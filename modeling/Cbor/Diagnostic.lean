import Cbor.Decimal.Layout
import Cbor.Decode.Item
import Cbor.Text.Quoted

/-!
# Diagnostic text

The text of an item for people. A container stands on one line if it holds fewer than `inlineLimit` elements and none
of them is a container, or if the options ask for it; otherwise each element has a line of its own, indented by two
spaces per level. Encoded data inside an item is decoded and shown.

Arrays, maps and tags around an item spend a budget when they nest; the text of what lies beyond it is an error. The tag
of a date belongs to the text of the date, and spends nothing.

- `Diagnostic.item`, the characters of an item under a budget;
- `Item.diagnostic`, its text under the budget `maxDepth`;
- `diagnostic`, the text of the item that data encodes.
-/

namespace Cbor

namespace Diagnostic

open Cbor.Binary (Format)

/-- The choices of a reader. -/
structure Options where
  /-- Long and nested containers take several lines. -/
  pretty : Bool
  /-- Byte strings are shown by their length alone. -/
  bytesLengthOnly : Bool
deriving DecidableEq

/-- Several lines, contents of byte strings. -/
def Options.default : Options := ⟨true, false⟩

/-- One line, contents of byte strings. -/
def Options.compact : Options := ⟨false, false⟩

/-- Containers with as many elements take several lines. -/
def inlineLimit : Nat := 8

/-! ## Leaves -/

/-- A number in decimal. -/
def number (i : Int) : List Char := (toString i).toList

/-- A byte string, in hexadecimal or by its length. -/
def bytes (o : Options) (b : Bytes) : List Char :=
  if o.bytesLengthOnly then
    if b.length = 1 then "<1 byte>".toList else '<' :: (number b.length ++ " bytes>".toList)
  else 'h' :: '\'' :: (b.hexChars ++ ['\''])

/-- A character of quoted text: quotes, backslashes and controls are escaped. -/
def escape (c : Char) : List Char :=
  if c = '"' then ['\\', '"']
  else if c = '\\' then ['\\', '\\']
  else if c = '\n' then ['\\', 'n']
  else if c = '\r' then ['\\', 'r']
  else if c = '\t' then ['\\', 't']
  else if Text.isControl c then '\\' :: 'u' :: Text.hexDigits 4 c.toNat
  else [c]

/-- A text string between quotes. -/
def text (s : String) : List Char := Text.quote escape s.toList

/-- A bit pattern of a format, which may be no finite number. -/
def float (f : Format) (bits : Nat) : List Char :=
  if f.isNaN bits then "NaN".toList
  else if f.isInfinite bits then (if f.isNegative bits then "-Infinity" else "Infinity").toList
  else Decimal.Style.readable.write f bits

/-- An error in place of what it keeps from being shown. -/
def error (message : String) : List Char := ("error: " ++ message).toList

/-! ## Layout -/

/-- Parts between commas. -/
def commaSeparated (parts : List (List Char)) : List Char := [',', ' '].intercalate parts

/-- A line break and the indentation of the line after it. -/
def newline (indent : Nat) : List Char := '\n' :: List.replicate (2 * indent) ' '

/-- The elements of a container on one line, after a space if the container is marked. -/
def onOneLine (indefinite : Bool) (elements : List (List Char)) : List Char :=
  (if indefinite && !elements.isEmpty then [' '] else []) ++ commaSeparated elements

/-- The elements of a container on lines of their own, and the line break before the closing bracket. -/
def onLines (indent : Nat) (elements : List (List Char)) : List Char :=
  [','].intercalate (elements.map (newline (indent + 1) ++ ·)) ++ if elements.isEmpty then [] else newline indent

/-- A container between its brackets, marked if its length is indefinite. -/
def container (opening closing : Char) (indefinite inline : Bool) (indent : Nat) (elements : List (List Char)) :
    List Char :=
  opening :: ((if indefinite then ['_'] else []) ++
    (if inline then onOneLine indefinite elements else onLines indent elements) ++ [closing])

/-- A container may stand on one line. -/
def isInline (o : Options) (parts : List Item) (count : Nat) : Bool :=
  !o.pretty || (parts.all (!·.isCompound) && count < inlineLimit)

/-- Pieces of a string of indefinite length. -/
def chunks (pieces : List (List Char)) : List Char := "(_ ".toList ++ commaSeparated pieces ++ [')']

/-- A tag over something. -/
def tagged (tag : UInt64) (content : List Char) : List Char := number tag.toNat ++ '(' :: (content ++ [')'])

/-! ## Items -/

/-- A printer of items at an indentation. -/
abbrev Printer := Nat → Item → List Char

/-- What is nested one level deeper, if the budget allows. -/
def deeper (inner : Option Printer) (content : Printer → List Char) : List Char :=
  match inner with
  | some p => content p
  | none => error DecodeError.tooDeep.message

/-- An item whose content is printed by `inner`; encoded data that is not to be decoded is a byte string. -/
def shape (o : Options) (inner : Option Printer) (indent : Nat) : Item → List Char
  | .unsigned v => number v.toNat
  | .negative m => number (-1 - m.toNat)
  | .bytes b => bytes o b
  | .byteChunks pieces => chunks (pieces.map (bytes o))
  | .text s => text s
  | .textChunks pieces => chunks (pieces.map text)
  | .array items indefinite => deeper inner fun p =>
    container '[' ']' indefinite (isInline o items items.length) indent (items.map (p (indent + 1)))
  | .map entries indefinite => deeper inner fun p =>
    container '\x7b' '\x7d' indefinite (isInline o (entries.flatMap fun e => [e.1, e.2]) entries.length) indent
      (entries.map fun (k, v) => p (indent + 1) k ++ ':' :: ' ' :: p (indent + 1) v)
  | .tagged tag content => tagged tag (deeper inner (· indent content))
  | .dateTime s => tagged dateTimeTag (text s)
  | .epochTime content => tagged epochTimeTag (deeper inner (· indent content))
  | .encodedCbor b => tagged encodedCborTag ('<' :: '<' :: (deeper inner (embedded b) ++ ['>', '>']))
  | .fullDate s => tagged fullDateTag (text s)
  | .bool b => (if b then "true" else "false").toList
  | .null => "null".toList
  | .undefined => "undefined".toList
  | .simple s => s.text.toList
  | .half x => float .binary32 x.toBinary32.bits.toNat
  | .single x => float .binary32 x.bits.toNat
  | .double x => float .binary64 x.bits.toNat
  | .raw b => bytes o b
where
  /-- The items of an embedded sequence. -/
  embedded (b : Bytes) (p : Printer) : List Char :=
    match decodeSequence b with
    | .ok items => commaSeparated (items.map (p indent))
    | .error e => error e.message

/-- An item whose content is printed by `inner`; encoded data is shown as the item that it encodes, if there is one. -/
def itemWith (o : Options) (inner : Option Printer) (indent : Nat) (x : Item) : List Char :=
  match x with
  | .raw b =>
    match decode b with
    | .ok y => shape o inner indent y
    | .error _ => bytes o b
  | x => shape o inner indent x

/-- An item under a budget of arrays, maps and tags inside one another. -/
def item (o : Options) : Nat → Printer
  | 0, indent, x => itemWith o none indent x
  | budget + 1, indent, x => itemWith o (some (item o budget)) indent x

end Diagnostic

/-- The diagnostic text of an item. -/
def Item.diagnostic (o : Diagnostic.Options) (x : Item) : String := String.ofList (Diagnostic.item o maxDepth 0 x)

/-- The diagnostic text of the item that data encodes. -/
def diagnostic (o : Diagnostic.Options) (data : Bytes) : Except DecodeError String :=
  return (← decode data).diagnostic o

end Cbor
