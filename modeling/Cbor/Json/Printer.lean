import Cbor.Decimal.Layout
import Cbor.Json.Basic
import Cbor.Text.Quoted

/-!
# JSON text

- `Json.compact`, the text of a value without white space;
- `Json.pretty`, the text with every element on a line of its own.
-/

namespace Cbor.Json

/-- Floats: plain from `0.00001` up to sixteen digits before the point; of two nearest decimals the even one. -/
def floatStyle : Decimal.Style := ⟨-5, 16, true, .even⟩

/-! ## Leaves -/

/-- A character of a string: quotes, backslashes and the first 32 code points are escaped. -/
def escape (c : Char) : List Char :=
  if c = '"' then ['\\', '"']
  else if c = '\\' then ['\\', '\\']
  else if c = '\x08' then ['\\', 'b']
  else if c = '\x0c' then ['\\', 'f']
  else if c = '\n' then ['\\', 'n']
  else if c = '\r' then ['\\', 'r']
  else if c = '\t' then ['\\', 't']
  else if c.toNat < 32 then '\\' :: 'u' :: Text.hexDigits 4 c.toNat
  else [c]

/-- A string between quotes. -/
def writeString (s : String) : List Char := Text.quote escape s.toList

/-- The text of a number. -/
def Number.write : Number → List Char
  | .natural n => (toString n.toNat).toList
  | .negative i => (toString i.toInt).toList
  | .float x => floatStyle.write .binary64 x.bits.toNat

/-! ## Layout -/

/-- Where white space stands. -/
inductive Layout where
  | compact
  | pretty

/-- A line break and the indentation of the line after it. -/
def Layout.newline (layout : Layout) (level : Nat) : List Char :=
  match layout with
  | .compact => []
  | .pretty => '\n' :: List.replicate (2 * level) ' '

/-- Parts between brackets, one level deeper than the brackets. -/
def Layout.enclose (layout : Layout) (opening closing : Char) (level : Nat) (parts : List (List Char)) : List Char :=
  if parts.isEmpty then [opening, closing]
  else
    opening :: ([','].intercalate (parts.map (layout.newline (level + 1) ++ ·)) ++ layout.newline level ++ [closing])

/-- The colon between a key and its value. -/
def Layout.colon : Layout → List Char
  | .compact => [':']
  | .pretty => [':', ' ']

/-! ## Values -/

mutual

/-- The text of a value. -/
def write (layout : Layout) (level : Nat) : Json → List Char
  | .null => "null".toList
  | .bool b => (if b then "true" else "false").toList
  | .number n => n.write
  | .string s => writeString s
  | .array elements => layout.enclose '[' ']' level (writeElements layout (level + 1) elements)
  | .object members => layout.enclose '\x7b' '\x7d' level (writeMembers layout (level + 1) members)

/-- The texts of the elements of an array. -/
def writeElements (layout : Layout) (level : Nat) : List Json → List (List Char)
  | [] => []
  | element :: elements => write layout level element :: writeElements layout level elements

/-- The texts of the members of an object. -/
def writeMembers (layout : Layout) (level : Nat) : List (String × Json) → List (List Char)
  | [] => []
  | (key, value) :: members =>
    (writeString key ++ layout.colon ++ write layout level value) :: writeMembers layout level members

end

/-- The text of a value without white space. -/
def compact (j : Json) : String := .ofList (write .compact 0 j)

/-- The text of a value with every element on a line of its own. -/
def pretty (j : Json) : String := .ofList (write .pretty 0 j)

end Cbor.Json
