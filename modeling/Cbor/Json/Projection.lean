import Cbor.Diagnostic
import Cbor.Host
import Cbor.Item.Access
import Cbor.Json.Basic
import Cbor.Text.Base64

/-!
# Items and JSON

- `Item.toJson`, a lossy view of an item: byte strings become base 64, keys that are no text become diagnostic text,
  floats that are no finite number become null, and some items have no view;
- `HostValue.ofJson`, the host value of a JSON value.
-/

namespace Cbor

/-- Why an item has no JSON view. -/
inductive ProjectionError where
  /-- The integer is below the least signed 64-bit number. -/
  | outOfRange
  /-- A tag without a shape of its own. -/
  | tag
  /-- An embedded encoding. -/
  | encodedCbor
  /-- A simple value without an item of its own. -/
  | simple
  /-- Encoded data. -/
  | raw
deriving DecidableEq

/-- The text of an error. -/
def ProjectionError.message : ProjectionError → String
  | .outOfRange => "Value out of range"
  | .tag => "Not implemented for JSON projection of tag"
  | .encodedCbor => "Not implemented for JSON projection of encoded-cbor"
  | .simple => "Not implemented for JSON projection of simple value"
  | .raw => "Not implemented for JSON projection of raw CBOR"

namespace Item

/-! ## Views of items -/

/-- The string that stands for an item as a key: its own text, or its diagnostic text on one line. -/
def jsonKey (key : Item) : String :=
  match key.asText with
  | .ok s => s
  | .error _ => key.diagnostic .compact

/-- A byte string in base 64. -/
def jsonBytes (b : Bytes) : Json := .string (.ofList (Text.Base64.encode b))

/-- A finite float as a number. -/
def jsonFloat (x : Binary64) : Json := if x.isNaN || x.isInfinite then .null else .number (.float x)

mutual

/-- The JSON view of an item. -/
def toJson : Item → Except ProjectionError Json
  | .unsigned v => .ok (.number (.natural v))
  | .negative m =>
    if m.toNat ≤ Int64.maxValue.toInt then .ok (.number (.negative (.ofInt (-1 - m.toNat)))) else .error .outOfRange
  | .bytes b => .ok (jsonBytes b)
  | .byteChunks chunks => .ok (jsonBytes chunks.flatten)
  | .text s => .ok (.string s)
  | .textChunks chunks => .ok (.string (String.join chunks))
  | .array items _ => return .array (← toJsonItems items)
  | .map entries _ => return .ofMembers (← toJsonEntries entries)
  | .tagged .. => .error .tag
  | .dateTime s => .ok (.string s)
  | .epochTime content => toJson content
  | .encodedCbor _ => .error .encodedCbor
  | .fullDate s => .ok (.string s)
  | .bool b => .ok (.bool b)
  | .null | .undefined => .ok .null
  | .simple _ => .error .simple
  | .half x => .ok (jsonFloat x.toBinary64)
  | .single x => .ok (jsonFloat x.toBinary64)
  | .double x => .ok (jsonFloat x)
  | .raw _ => .error .raw

/-- The views of items, up to the first that has none. -/
def toJsonItems : List Item → Except ProjectionError (List Json)
  | [] => .ok []
  | item :: items => do
    let value ← toJson item
    let values ← toJsonItems items
    return value :: values

/-- The members of entries, up to the first value that has no view. -/
def toJsonEntries : List (Item × Item) → Except ProjectionError (List (String × Json))
  | [] => .ok []
  | (key, item) :: entries => do
    let value ← toJson item
    let members ← toJsonEntries entries
    return (key.jsonKey, value) :: members

end

end Item

/-! ## Host values of JSON values -/

namespace HostValue

mutual

/-- The host value of a JSON value. -/
def ofJson : Json → HostValue
  | .null => .null
  | .bool b => .bool b
  | .number (.natural n) => .int n.toNat
  | .number (.negative i) => .int i.toInt
  | .number (.float x) => .float x
  | .string s => .text s
  | .array elements => .list (ofJsonElements elements)
  | .object members => .map (ofJsonMembers members)

/-- The host values of the elements of an array. -/
def ofJsonElements : List Json → List HostValue
  | [] => []
  | element :: elements => ofJson element :: ofJsonElements elements

/-- The entries of the members of an object. -/
def ofJsonMembers : List (String × Json) → List (HostValue × HostValue)
  | [] => []
  | (key, value) :: members => (.text key, ofJson value) :: ofJsonMembers members

end

end HostValue

end Cbor
