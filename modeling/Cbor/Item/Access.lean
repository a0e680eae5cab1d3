import Cbor.Decode.Item

/-!
# Reading items

Each accessor gives the content of the shapes it is for, and otherwise an error that names the type it expects and the
type it finds. The pieces of a string of indefinite length are joined.
-/

namespace Cbor

/-- Why an item does not give what is asked for. -/
inductive AccessError where
  /-- The item is of another type. -/
  | wrongType (expected found : String)
  /-- The integer does not fit. -/
  | outOfRange
  /-- The embedded data does not decode. -/
  | undecodable (error : DecodeError)
deriving DecidableEq

/-- The text of an error. -/
def AccessError.message : AccessError → String
  | .wrongType expected found => "Incorrect type, expecting " ++ expected ++ ", found " ++ found
  | .outOfRange => "Value out of range"
  | .undecodable e => e.message

namespace Item

/-- The error of an item that is not of the expected type. -/
def mismatch (x : Item) (expected : String) : AccessError := .wrongType expected x.typeName

/-! ## Numbers -/

/-- The integer of an item. -/
def asInt : Item → Except AccessError Int
  | .unsigned v => .ok v.toNat
  | .negative m => .ok (-1 - m.toNat)
  | x => .error (x.mismatch "int")

/-- The integer of an item, if it lies between two bounds. -/
def asIntWithin (low high : Int) (x : Item) : Except AccessError Int := do
  let i ← x.asInt
  if low ≤ i ∧ i ≤ high then return i else throw .outOfRange

/-- The integer of an item as an unsigned 64-bit number. -/
def asUInt64 (x : Item) : Except AccessError UInt64 := return .ofNat (← x.asIntWithin 0 (UInt64.size - 1)).toNat

/-- The integer of an item as a signed 64-bit number. -/
def asInt64 (x : Item) : Except AccessError Int64 :=
  return .ofInt (← x.asIntWithin Int64.minValue.toInt Int64.maxValue.toInt)

/-- The integer of an item as an unsigned 32-bit number. -/
def asUInt32 (x : Item) : Except AccessError UInt32 := return .ofNat (← x.asIntWithin 0 (UInt32.size - 1)).toNat

/-- The integer of an item as a signed 32-bit number. -/
def asInt32 (x : Item) : Except AccessError Int32 :=
  return .ofInt (← x.asIntWithin Int32.minValue.toInt Int32.maxValue.toInt)

/-- The number of a float of any width. -/
def asFloat : Item → Except AccessError Binary64
  | .half x => .ok x.toBinary64
  | .single x => .ok x.toBinary64
  | .double x => .ok x
  | x => .error (x.mismatch "float")

/-! ## Truth values and strings -/

/-- The truth value of an item. -/
def asBool : Item → Except AccessError Bool
  | .bool b => .ok b
  | x => .error (x.mismatch "bool")

/-- The text of a text string. -/
def asText : Item → Except AccessError String
  | .text s => .ok s
  | .textChunks chunks => .ok (String.join chunks)
  | x => .error (x.mismatch "tstr")

/-- The bytes of a byte string. -/
def asBytes : Item → Except AccessError Bytes
  | .bytes b => .ok b
  | .byteChunks chunks => .ok chunks.flatten
  | x => .error (x.mismatch "bstr")

/-! ## Containers and tags -/

/-- The elements of an array, and whether its length is indefinite. -/
def asArray : Item → Except AccessError (List Item × Bool)
  | .array items indefinite => .ok (items, indefinite)
  | x => .error (x.mismatch "array")

/-- The table of a map's entries. -/
def asMap : Item → Except AccessError ItemTable
  | .map entries indefinite => .ok ((Table.ofList entries).setIndefinite indefinite)
  | x => .error (x.mismatch "map")

/-- The tag and the content of a tagged item that has no shape of its own. -/
def asTagged : Item → Except AccessError (UInt64 × Item)
  | .tagged tag content => .ok (tag, content)
  | x => .error (x.mismatch "tag")

/-- The text of a date and time. -/
def asDateTime : Item → Except AccessError String
  | .dateTime s => .ok s
  | x => .error (x.mismatch "tdate")

/-- The text of a date. -/
def asFullDate : Item → Except AccessError String
  | .fullDate s => .ok s
  | x => .error (x.mismatch "full-date")

/-- The number of a time from the epoch. -/
def asEpochTime : Item → Except AccessError Item
  | .epochTime content => .ok content
  | x => .error (x.mismatch "time")

/-- The bytes of an embedded encoding. -/
def asEncodedCbor : Item → Except AccessError Bytes
  | .encodedCbor b => .ok b
  | x => .error (x.mismatch "encoded-cbor")

/-- The item of an embedded encoding. -/
def asEmbedded (x : Item) : Except AccessError Item := do
  let b ← x.asEncodedCbor
  (decode b).mapError .undecodable

end Item

end Cbor
