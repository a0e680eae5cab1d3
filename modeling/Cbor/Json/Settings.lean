import Cbor.Diagnostic
import Cbor.Json.Printer
import Cbor.Json.Reading

/-!
# Settings in JSON

Diagnostic options and kinds are stored as JSON texts.

- `Options.ofJson` and `Options.toJson`: an object whose missing members take the default, or a list of the values in
  order; members of other names are passed over whatever they hold;
- `Kind.ofJson` and `Kind.toJson`: the word of a kind, alone or as the key of null.
-/

namespace Cbor

open Json (Document)

/-! ## Options -/

namespace Diagnostic.Options

/-- A truth value. -/
def readBool : Document → Except JsonError Bool
  | .bool b => .ok b
  | _ => .error .unexpected

/-- The values of the members of the two names; neither may come twice. -/
def readMembers : List (List Json.StringUnit × Document) → Option Bool → Option Bool →
    Except JsonError (Option Bool × Option Bool)
  | [], pretty, bytesLengthOnly => .ok (pretty, bytesLengthOnly)
  | (key, value) :: members, pretty, bytesLengthOnly => do
    let key ← Json.stringOf key
    if key = "pretty" then
      if pretty.isSome then throw .unexpected
      readMembers members (some (← readBool value)) bytesLengthOnly
    else if key = "bytes_length_only" then
      if bytesLengthOnly.isSome then throw .unexpected
      readMembers members pretty (some (← readBool value))
    else readMembers members pretty bytesLengthOnly

/-- The two values, each of which may be missing. -/
def readValues : Document → Except JsonError (Option Bool × Option Bool)
  | .object members => readMembers members none none
  | .array [] => return (none, none)
  | .array [pretty] => return (some (← readBool pretty), none)
  | .array [pretty, bytesLengthOnly] => return (some (← readBool pretty), some (← readBool bytesLengthOnly))
  | _ => .error .unexpected

/-- The options of a text. -/
def ofJson (s : String) : Except JsonError Options := do
  let document ← Document.ofString s
  let (pretty, bytesLengthOnly) ← readValues document
  return ⟨pretty.getD Options.default.pretty, bytesLengthOnly.getD Options.default.bytesLengthOnly⟩

/-- The text of options. -/
def toJson (o : Options) : String :=
  Json.compact (.object [("pretty", .bool o.pretty), ("bytes_length_only", .bool o.bytesLengthOnly)])

end Diagnostic.Options

/-! ## Kinds -/

namespace Kind

/-- The word of a kind. -/
def word : Kind → String
  | unsigned => "unsignedint"
  | negative => "negativeint"
  | bytes => "bytestring"
  | text => "textstring"
  | half => "half"
  | single => "single"
  | double => "double"
  | k => k.name

/-- The kind of a word. -/
def ofWord (units : List Json.StringUnit) : Except JsonError Kind := do
  let s ← Json.stringOf units
  match all.find? (·.word = s) with
  | some k => return k
  | none => throw .unexpected

/-- The kind of a text. -/
def ofJson (s : String) : Except JsonError Kind := do
  match ← Document.ofString s with
  | .string units => ofWord units
  | .object [(units, .null)] => ofWord units
  | _ => throw .unexpected

/-- The text of a kind. -/
def toJson (k : Kind) : String := Json.compact (.string k.word)

end Kind

end Cbor
