import Cbor.Binary.Basic
import Cbor.Head
import Cbor.Kind

/-!
# Data items

- `Simple`, the simple values that have no item of their own;
- `Item`, a data item: what is encoded and what decoding gives;
- `Item.ofInt?` and `Item.ofTag`, the items of an integer and of a tag over any content;
- `Item.kind`, `Item.typeName`, `Item.majorType`, `Item.additionalInfo` and `Item.tagNumber`, its classification.

The entries of a map are kept in order. Every operation that builds a map keeps its keys distinct.
-/

namespace Cbor

/-! ## Simple values -/

/-- A simple value other than the four with items of their own (20 to 23) and the reserved ones (24 to 31). -/
structure Simple where
  value : UInt8
  unassigned : value < 20 ∨ 32 ≤ value
deriving DecidableEq

/-- The simple value with a number, if it is not one of 20 to 31. -/
def Simple.ofByte? (value : UInt8) : Option Simple :=
  if h : value < 20 ∨ 32 ≤ value then some ⟨value, h⟩ else none

/-- Simple values are in the order of their numbers. -/
instance : Ord Simple := ⟨fun a b => compare a.value b.value⟩

/-- The diagnostic text of a simple value. -/
def Simple.text (s : Simple) : String := "simple(" ++ toString s.value.toNat ++ ")"

/-! ## Items -/

/-- The tag of a date and time in text. -/
def dateTimeTag : UInt64 := 0

/-- The tag of a time counted from the epoch. -/
def epochTimeTag : UInt64 := 1

/-- The tag of a byte string that holds encoded items. -/
def encodedCborTag : UInt64 := 24

/-- The tag of a date in text. -/
def fullDateTag : UInt64 := 1004

/-- A data item. -/
inductive Item where
  | unsigned (value : UInt64)
  /-- The integer `-(magnitude + 1)`. -/
  | negative (magnitude : UInt64)
  | bytes (content : Bytes)
  /-- A byte string of indefinite length. -/
  | byteChunks (chunks : List Bytes)
  | text (content : String)
  /-- A text string of indefinite length. -/
  | textChunks (chunks : List String)
  | array (items : List Item) (indefinite : Bool)
  | map (entries : List (Item × Item)) (indefinite : Bool)
  | tagged (tag : UInt64) (content : Item)
  /-- The tag `dateTimeTag` over a text string. -/
  | dateTime (content : String)
  /-- The tag `epochTimeTag` over an integer or a float. -/
  | epochTime (content : Item)
  /-- The tag `encodedCborTag` over a byte string. -/
  | encodedCbor (content : Bytes)
  /-- The tag `fullDateTag` over a text string. -/
  | fullDate (content : String)
  | bool (value : Bool)
  | null
  | undefined
  | simple (value : Simple)
  | half (value : Binary16)
  | single (value : Binary32)
  | double (value : Binary64)
  /-- Encoded data that is written as it is. -/
  | raw (content : Bytes)
deriving Inhabited

namespace Item

/-! ## Construction -/

/-- The item of an integer, if its sign and 64 bits can hold it. -/
def ofInt? (i : Int) : Option Item :=
  match i with
  | .ofNat n => if n < UInt64.size then some (.unsigned (.ofNat n)) else none
  | .negSucc n => if n < UInt64.size then some (.negative (.ofNat n)) else none

/-- An integer or a float: what a time from the epoch can hold. -/
def isEpochNumber : Item → Bool
  | .unsigned _ | .negative _ | .half _ | .single _ | .double _ => true
  | _ => false

/-- A tag over an item, in the shape of its own that the tag and the content may have. -/
def ofTag (tag : UInt64) (content : Item) : Item :=
  match content with
  | .text s => if tag = dateTimeTag then .dateTime s else if tag = fullDateTag then .fullDate s else .tagged tag content
  | .bytes b => if tag = encodedCborTag then .encodedCbor b else .tagged tag content
  | _ => if tag = epochTimeTag ∧ content.isEpochNumber then .epochTime content else .tagged tag content

/-! ## Classification -/

/-- The narrowest kind of an item. -/
def kind : Item → Kind
  | .unsigned _ => .unsigned
  | .negative _ => .negative
  | .bytes _ | .byteChunks _ => .bytes
  | .text _ | .textChunks _ => .text
  | .array .. => .array
  | .map .. => .map
  | .tagged .. | .dateTime _ | .epochTime _ | .encodedCbor _ | .fullDate _ => .tag
  | .bool false => .falseValue
  | .bool true => .trueValue
  | .null => .null
  | .undefined => .undefined
  | .simple _ => .special
  | .half _ => .half
  | .single _ => .single
  | .double _ => .double
  | .raw _ => .any

/-- The name of an item's type in messages. -/
def typeName : Item → String
  | .byteChunks _ => "indefinite bstr"
  | .textChunks _ => "indefinite tstr"
  | .dateTime _ => "tdate"
  | .epochTime _ => "time"
  | .encodedCbor _ => "encoded-cbor"
  | .fullDate _ => "full-date"
  | .simple _ => "simple"
  | .raw _ => "raw"
  | x => x.kind.name

/-- The major type of the first byte of an item's encoding. -/
def majorType : Item → UInt8
  | .raw (b :: _) => b >>> 5
  | x => x.kind.majorType?.getD 7

/-- The additional info of the first byte of an item's encoding. -/
def additionalInfo : Item → UInt8
  | .unsigned v | .negative v => Head.infoFor v
  | .bytes b => Head.infoFor (.ofNat b.length)
  | .text s => Head.infoFor (.ofNat (Bytes.ofString s).length)
  | .byteChunks _ | .textChunks _ => Head.indefiniteInfo
  | .array items indefinite => if indefinite then Head.indefiniteInfo else Head.infoFor (.ofNat items.length)
  | .map entries indefinite => if indefinite then Head.indefiniteInfo else Head.infoFor (.ofNat entries.length)
  | .tagged tag _ => Head.infoFor tag
  | .dateTime _ => Head.infoFor dateTimeTag
  | .epochTime _ => Head.infoFor epochTimeTag
  | .encodedCbor _ => Head.infoFor encodedCborTag
  | .fullDate _ => Head.infoFor fullDateTag
  | .bool false => 20
  | .bool true => 21
  | .null => 22
  | .undefined => 23
  | .simple s => Head.infoFor s.value.toUInt64
  | .half _ => 25
  | .single _ => 26
  | .double _ => 27
  | .raw [] => 31
  | .raw (b :: _) => b &&& 31

/-- The tag of an item of any tagged shape. -/
def tagNumber : Item → Option UInt64
  | .tagged tag _ => some tag
  | .dateTime _ => some dateTimeTag
  | .epochTime _ => some epochTimeTag
  | .encodedCbor _ => some encodedCborTag
  | .fullDate _ => some fullDateTag
  | _ => none

/-- An array or a map, under any number of tags. -/
def isCompound : Item → Bool
  | .array .. | .map .. => true
  | .tagged _ content | .epochTime content => content.isCompound
  | _ => false

/-- A string or a container without content. -/
def isBlank : Item → Bool
  | .bytes b | .encodedCbor b | .raw b => b.isEmpty
  | .byteChunks chunks => chunks.all (·.isEmpty)
  | .text s => s.isEmpty
  | .textChunks chunks => chunks.all (·.isEmpty)
  | .array items _ => items.isEmpty
  | .map entries _ => entries.isEmpty
  | _ => false

end Item

end Cbor
