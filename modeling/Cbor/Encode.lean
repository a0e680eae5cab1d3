import Cbor.Item.Basic

/-!
# Encoding

- `Item.encode`, the shortest encoding of an item; encoded data inside an item is copied;
- `encodeOption`, where absence is null;
- `Encoder`, a buffer to which encodings are appended.
-/

namespace Cbor

namespace Item

/-! ## Items -/

/-- A definite string of bytes under a major type. -/
def encodeString (major : UInt8) (content : Bytes) : Bytes := Head.encodeLength major content.length ++ content

/-- The head, the contents and, at indefinite length, the break of a container. -/
def encodeContainer (major : UInt8) (count : Nat) (indefinite : Bool) (contents : Bytes) : Bytes :=
  if indefinite then Head.initialByte major Head.indefiniteInfo :: (contents ++ [Head.breakByte])
  else Head.encodeLength major count ++ contents

/-- A string of indefinite length in definite pieces. -/
def encodeChunks (major : UInt8) (chunks : List Bytes) : Bytes :=
  encodeContainer major 0 true (chunks.flatMap (encodeString major))

mutual

/-- The encoding of an item. -/
def encode : Item → Bytes
  | .unsigned v => Head.encode 0 v
  | .negative m => Head.encode 1 m
  | .bytes b => encodeString 2 b
  | .byteChunks chunks => encodeChunks 2 chunks
  | .text s => encodeString 3 (Bytes.ofString s)
  | .textChunks chunks => encodeChunks 3 (chunks.map Bytes.ofString)
  | .array items indefinite => encodeContainer 4 items.length indefinite (encodeItems items)
  | .map entries indefinite => encodeContainer 5 entries.length indefinite (encodeEntries entries)
  | .tagged tag content => Head.encode 6 tag ++ encode content
  | .dateTime s => Head.encode 6 dateTimeTag ++ encodeString 3 (Bytes.ofString s)
  | .epochTime content => Head.encode 6 epochTimeTag ++ encode content
  | .encodedCbor b => Head.encode 6 encodedCborTag ++ encodeString 2 b
  | .fullDate s => Head.encode 6 fullDateTag ++ encodeString 3 (Bytes.ofString s)
  | .bool b => [Head.initialByte 7 (if b then 21 else 20)]
  | .null => [Head.initialByte 7 22]
  | .undefined => [Head.initialByte 7 23]
  | .simple s => Head.encode 7 s.value.toUInt64
  | .half x => Head.initialByte 7 25 :: Bytes.ofNat 2 x.bits.toNat
  | .single x => Head.initialByte 7 26 :: Bytes.ofNat 4 x.bits.toNat
  | .double x => Head.initialByte 7 27 :: Bytes.ofNat 8 x.bits.toNat
  | .raw b => b

/-- The encodings of items one after the other. -/
def encodeItems : List Item → Bytes
  | [] => []
  | item :: items => encode item ++ encodeItems items

/-- The encodings of keys and values one after the other. -/
def encodeEntries : List (Item × Item) → Bytes
  | [] => []
  | (key, value) :: entries => encode key ++ encode value ++ encodeEntries entries

end

/-- A tag over the encoding of an item. -/
def embed (item : Item) : Item := .encodedCbor item.encode

end Item

/-- The encoding of an item that may be absent, which is that of null. -/
def encodeOption : Option Item → Bytes
  | some item => item.encode
  | none => Item.encode .null

/-! ## Buffers -/

/-- Encoded data under construction. -/
structure Encoder where
  data : Bytes

namespace Encoder

/-- A buffer without data. -/
def empty : Encoder := ⟨[]⟩

/-- The number of bytes written. -/
def offset (e : Encoder) : Nat := e.data.length

/-- Appends bytes as they are. -/
def raw (e : Encoder) (b : Bytes) : Encoder := ⟨e.data ++ b⟩

/-- Appends the shortest head with an argument. -/
def head (e : Encoder) (major : UInt8) (argument : UInt64) : Encoder := e.raw (Head.encode major argument)

/-- Appends an item. -/
def item (e : Encoder) (x : Item) : Encoder := e.raw x.encode

/-- Appends a tag and the item under it. -/
def tagged (e : Encoder) (tag : UInt64) (x : Item) : Encoder := (e.head 6 tag).item x

/-- Appends an item or, for its absence, null. -/
def option (e : Encoder) (x : Option Item) : Encoder := e.raw (encodeOption x)

end Encoder

end Cbor
