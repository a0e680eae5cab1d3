import Cbor.Decode.Reader
import Cbor.Item.Map

/-!
# Decoding

- `Reader.item`, an item under a limit on the nesting of arrays, maps and tags;
- `decode`, exactly one item; `decodeSequence`, any number of items; `decodeWithDepth`, one item anywhere in the data;
- `decodeLength`, the argument of a head alone.
-/

namespace Cbor

/-- The nesting limit where none is given. -/
def maxDepth : Nat := 256

namespace Reader

/-! ## Parts of items -/

/-- A piece of a string of indefinite length: a definite string of the same major type. -/
def chunk (major : Nat) : Reader Bytes := do
  let start ← offset
  let initial ← byte
  let info := initial.toNat % 32
  if initial.toNat / 32 ≠ major ∨ info = 31 then throw (.invalidChunk start)
  content start info

/-- A key and its value. -/
def entry (r : Reader Item) : Reader (Item × Item) := do
  let key ← r
  let value ← r
  return (key, value)

/-- The elements of a container: as many as its argument says, or up to a break. -/
def elements {α : Type} (r : Reader α) (start info : Nat) : Reader (List α) :=
  if info = 31 then untilBreak r
  else do
    let count ← argument start info
    times r count.toNat

/-- The simple value of a byte. -/
def simple (value : UInt8) : Reader Item :=
  match Simple.ofByte? value with
  | some s => pure (.simple s)
  | none => throw (.reservedSimple value)

/-- An item of major type 7, after its initial byte at `start`. -/
def special (start info : Nat) : Reader Item :=
  match info with
  | 20 => pure (.bool false)
  | 21 => pure (.bool true)
  | 22 => pure .null
  | 23 => pure .undefined
  | 24 => do
    let value ← byte
    if value < 32 then throw (.reservedSimple value) else simple value
  | 25 => return .half ⟨.ofNat (Bytes.toNat (← take 2))⟩
  | 26 => return .single ⟨.ofNat (Bytes.toNat (← take 4))⟩
  | 27 => return .double ⟨.ofNat (Bytes.toNat (← take 8))⟩
  | 31 => throw (.strayBreak start)
  | _ => if info < 20 then simple (.ofNat info) else throw (.reservedInfo info start)

/-- The reader of what is nested one level deeper. -/
def deeper (inner : Option (Reader Item)) : Reader (Reader Item) :=
  match inner with
  | some r => pure r
  | none => throw .tooDeep

/-! ## Items -/

/-- An item after its initial byte at `start`; `inner` reads what is nested in it, if the nesting limit leaves any. -/
def body (inner : Option (Reader Item)) (start major info : Nat) : Reader Item :=
  match major with
  | 0 => return .unsigned (← argument start info)
  | 1 => return .negative (← argument start info)
  | 2 =>
    if info = 31 then return .byteChunks (← untilBreak (chunk 2))
    else return .bytes (← content start info)
  | 3 =>
    if info = 31 then return .textChunks (← (← untilBreak (chunk 3)).mapM (text start))
    else return .text (← text start (← content start info))
  | 4 => do
    let r ← deeper inner
    return .array (← elements r start info) (info = 31)
  | 5 => do
    let r ← deeper inner
    return .ofEntries (← elements (entry r) start info) (info = 31)
  | 6 => do
    let tag ← argument start info
    let r ← deeper inner
    return .ofTag tag (← r)
  | _ => special start info

/-- An item in which `inner` reads what is nested. -/
def itemWith (inner : Option (Reader Item)) : Reader Item := do
  let start ← offset
  let initial ← byte
  body inner start (initial.toNat / 32) (initial.toNat % 32)

/-- An item with at most `depth` arrays, maps and tags inside one another. -/
def item : Nat → Reader Item
  | 0, c => itemWith none c
  | depth + 1, c => itemWith (some (item depth)) c

end Reader

/-! ## Entry points -/

/-- One item at an offset under a nesting limit, and the offset after it. -/
def decodeWithDepth (data : Bytes) (offset depth : Nat) : Except DecodeError (Item × Nat) := do
  let (x, c) ← Reader.item depth (.at data offset)
  return (x, c.offset)

theorem decodeWithDepth_eq (data : Bytes) (offset depth : Nat) : decodeWithDepth data offset depth =
    Reader.item depth (.at data offset) >>= fun p => .ok (p.1, p.2.offset) := rfl

/-- One item at an offset, and the offset after it. -/
def decodeWithOffset (data : Bytes) (offset : Nat) : Except DecodeError (Item × Nat) :=
  decodeWithDepth data offset maxDepth

/-- The item that the whole data encodes. -/
def decode (data : Bytes) : Except DecodeError Item := do
  let (x, next) ← decodeWithOffset data 0
  if next < data.length then throw (.trailing (data.length - next))
  return x

theorem decode_eq (data : Bytes) : decode data = decodeWithDepth data 0 maxDepth >>= fun p =>
    if p.2 < data.length then throw (.trailing (data.length - p.2)) else pure p.1 := rfl

/-- The items that the whole data encodes one after the other. -/
def decodeSequence (data : Bytes) : Except DecodeError (List Item) := do
  let (items, _) ← Reader.untilEnd (Reader.item maxDepth) (.at data 0)
  return items

/-- The argument of the head at an offset, zero for one of indefinite length, and the offset after it. -/
def decodeLength (data : Bytes) (offset : Nat) : Except DecodeError (UInt64 × Nat) := do
  let (length, c) ← readLength (.at data offset)
  return (length, c.offset)
where
  /-- The argument of the next head of any major type. -/
  readLength : Reader UInt64 := do
    let start ← Reader.offset
    let initial ← Reader.byte
    let info := initial.toNat % 32
    if info = 31 then return 0 else Reader.argument start info

end Cbor
