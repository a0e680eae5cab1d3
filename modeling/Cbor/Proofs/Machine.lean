import Cbor.Decode.Item

/-!
# The decoder on a machine

Decoding with offsets that are 64-bit numbers. A run ends with a result, with an error of the data, or with a panic
where the machine cannot go on: a sum or a difference is no 64-bit number, a slice does not lie within the data, an
item leaves the offset where it was, a case is met that the program excludes, or a loop begins a round beyond a bound
on their number. Memory is unbounded, and space is not reserved in advance.

- `Run.sum`, `Run.difference` and `Machine.slice`, the operations that may panic, beside those that check first;
- `Machine.untilBreakWithin` and `Machine.timesWithin`, the loops over chunks, elements and entries;
- `Machine.item` and the entry points `Machine.decodeWithDepth`, `Machine.decode` and so on.
-/

namespace Cbor

/-- Why a run cannot go on. -/
inductive Panic where
  /-- A sum or a difference does not fit its width. -/
  | overflow
  /-- A slice ends before it starts, or after the data. -/
  | outOfRange
  /-- The offset after an item is not past its start. -/
  | stalled
  /-- A major type above 7. -/
  | unreachable
  /-- A loop begins a round beyond the bound. -/
  | exhausted
deriving DecidableEq

/-- Why a run gives no result. -/
inductive Halt where
  | error (e : DecodeError)
  | panic (p : Panic)
deriving DecidableEq

/-- The result of a run. -/
abbrev Run := Except Halt

namespace Run

variable {α : Type}

/-- Ends with an error of the data. -/
def fail (e : DecodeError) : Run α := .error (.error e)

/-- Ends with a panic. -/
def panic (p : Panic) : Run α := .error (.panic p)

/-- A sum, if it is a 64-bit number. -/
def checkedSum (a b : Nat) : Option Nat := if a + b < UInt64.size then some (a + b) else none

/-- A sum that must be a 64-bit number. -/
def sum (a b : Nat) : Run Nat :=
  match checkedSum a b with
  | some c => .ok c
  | none => panic .overflow

/-- A difference that must not be negative. -/
def difference (a b : Nat) : Run Nat := if b ≤ a then .ok (a - b) else panic .overflow

/-- What takes `width` bytes from an offset on, with the offset after it. -/
def spanning (offset width : Nat) (x : α) : Run (α × Nat) := do
  let next ← sum offset width
  return (x, next)

/-- The text with the given bytes, in the string whose initial byte is at `start`. -/
def text (start : Nat) (b : Bytes) : Run String :=
  match b.toString? with
  | some s => .ok s
  | none => fail (.invalidUtf8 start)

/-- The simple value of a byte. -/
def simple (value : UInt8) : Run Item :=
  match Simple.ofByte? value with
  | some s => .ok (.simple s)
  | none => fail (.reservedSimple value)

/-- What is nested one level deeper. -/
def deeper (inner : Option α) : Run α :=
  match inner with
  | some r => .ok r
  | none => fail .tooDeep

/-- A key and its value. -/
def entry (r : Nat → Run (Item × Nat)) (offset : Nat) : Run ((Item × Item) × Nat) := do
  let (key, next) ← r offset
  let (value, next) ← r next
  return ((key, value), next)

/-- Reads `count` times, in no more than `limit` rounds. -/
def timesWithin (r : Nat → Run (α × Nat)) : (limit count offset : Nat) → Run (List α × Nat)
  | _, 0, offset => .ok ([], offset)
  | 0, _ + 1, _ => panic .exhausted
  | limit + 1, count + 1, offset => do
    let (x, next) ← r offset
    let (xs, stop) ← timesWithin r limit count next
    return (x :: xs, stop)

end Run

/-- The data, and a bound on the rounds of each loop. -/
structure Machine where
  data : Bytes
  /-- How many rounds a loop may make, by the offset at which it starts. -/
  rounds : Nat → Nat

namespace Machine

open Run

variable {α : Type} (m : Machine)

/-! ## Bytes and arguments -/

/-- The byte at an offset. -/
def byte (offset : Nat) : Run UInt8 :=
  match m.data[offset]? with
  | some b => .ok b
  | none => fail (.outOfData offset)

/-- The bytes between two offsets, if both are within the data. -/
def slice? (start stop : Nat) : Option Bytes :=
  if start ≤ stop ∧ stop ≤ m.data.length then some (m.data.extract start stop) else none

/-- The bytes between two offsets, which must be within the data. -/
def slice (start stop : Nat) : Run Bytes :=
  match m.slice? start stop with
  | some b => .ok b
  | none => panic .outOfRange

/-- A number of `width` bytes. -/
def number (width offset : Nat) : Run Nat :=
  match (checkedSum offset width).bind (m.slice? offset) with
  | some b => .ok b.toNat
  | none => fail (.outOfData offset)

/-- The argument of the head at an offset, zero for one of indefinite length, and the offset after the head. -/
def argument (info offset : Nat) : Run (UInt64 × Nat) := do
  let start ← sum offset 1
  if info < 24 then return (.ofNat info, start)
  else if info < 28 then do
    let v ← m.number (1 <<< (info - 24)) start
    let next ← sum start (1 <<< (info - 24))
    return (.ofNat v, next)
  else if info = 31 then return (0, start)
  else fail (.reservedInfo info offset)

/-- The content of a definite string. -/
def content (info offset : Nat) : Run (Bytes × Nat) := do
  let (length, start) ← m.argument info offset
  match (checkedSum start length.toNat).filter (· ≤ m.data.length) with
  | some stop => do
    let b ← m.slice start stop
    return (b, stop)
  | none => fail (.outOfData start)

/-- A piece of a string of indefinite length. -/
def chunk (major offset : Nat) : Run (Bytes × Nat) := do
  let initial ← m.byte offset
  let info := initial.toNat % 32
  if initial.toNat / 32 ≠ major ∨ info = 31 then fail (.invalidChunk offset) else m.content info offset

/-! ## Containers -/

/-- Reads up to a break, in no more than `limit` rounds. -/
def untilBreakWithin (r : Nat → Run (α × Nat)) : (limit offset : Nat) → Run (List α × Nat)
  | 0, _ => panic .exhausted
  | limit + 1, offset => do
    let b ← m.byte offset
    if b = Head.breakByte then spanning offset 1 []
    else do
      let (x, next) ← r offset
      let (xs, stop) ← untilBreakWithin r limit next
      return (x :: xs, stop)

/-- Reads up to a break. -/
def untilBreak (r : Nat → Run (α × Nat)) (start : Nat) : Run (List α × Nat) :=
  m.untilBreakWithin r (m.rounds start) start

/-- The elements of a container: as many as its argument says, or up to a break. -/
def elements (r : Nat → Run (α × Nat)) (info offset : Nat) : Run (List α × Nat) := do
  let (count, start) ← m.argument info offset
  if info = 31 then m.untilBreak r start else timesWithin r (m.rounds start) count.toNat start

/-! ## Items -/

/-- An item of major type 7. -/
def special (info offset : Nat) : Run (Item × Nat) :=
  match info with
  | 20 => spanning offset 1 (.bool false)
  | 21 => spanning offset 1 (.bool true)
  | 22 => spanning offset 1 .null
  | 23 => spanning offset 1 .undefined
  | 24 => do
    let start ← sum offset 1
    let v ← m.number 1 start
    if UInt8.ofNat v < 32 then fail (.reservedSimple (.ofNat v)) else do
      let x ← simple (.ofNat v)
      spanning offset 2 x
  | 25 => do
    let start ← sum offset 1
    let v ← m.number 2 start
    spanning offset 3 (.half ⟨.ofNat v⟩)
  | 26 => do
    let start ← sum offset 1
    let v ← m.number 4 start
    spanning offset 5 (.single ⟨.ofNat v⟩)
  | 27 => do
    let start ← sum offset 1
    let v ← m.number 8 start
    spanning offset 9 (.double ⟨.ofNat v⟩)
  | 31 => fail (.strayBreak offset)
  | _ =>
    if info < 20 then do
      let x ← simple (.ofNat info)
      spanning offset 1 x
    else fail (.reservedInfo info offset)

/-- An item whose initial byte at `offset` has the given parts; `inner` reads what is nested in it. -/
def body (inner : Option (Nat → Run (Item × Nat))) (offset major info : Nat) : Run (Item × Nat) :=
  if info = 31 ∧ (major = 0 ∨ major = 1 ∨ major = 6) then fail (.reservedInfo 31 offset)
  else match major with
    | 0 => do
      let (v, next) ← m.argument info offset
      return (.unsigned v, next)
    | 1 => do
      let (v, next) ← m.argument info offset
      return (.negative v, next)
    | 2 =>
      if info = 31 then do
        let start ← sum offset 1
        let (chunks, next) ← m.untilBreak (m.chunk 2) start
        return (.byteChunks chunks, next)
      else do
        let (b, next) ← m.content info offset
        return (.bytes b, next)
    | 3 =>
      if info = 31 then do
        let start ← sum offset 1
        let (chunks, next) ← m.untilBreak (m.chunk 3) start
        let texts ← chunks.mapM (text offset)
        return (.textChunks texts, next)
      else do
        let (b, next) ← m.content info offset
        let s ← text offset b
        return (.text s, next)
    | 4 => do
      let r ← deeper inner
      let (items, next) ← m.elements r info offset
      return (.array items (info = 31), next)
    | 5 => do
      let r ← deeper inner
      let (entries, next) ← m.elements (entry r) info offset
      return (.ofEntries entries (info = 31), next)
    | 6 => do
      let (tag, next) ← m.argument info offset
      let r ← deeper inner
      let (x, next) ← r next
      return (.ofTag tag x, next)
    | 7 => m.special info offset
    | _ => panic .unreachable

/-- An item in which `inner` reads what is nested. -/
def itemWith (inner : Option (Nat → Run (Item × Nat))) (offset : Nat) : Run (Item × Nat) := do
  let initial ← m.byte offset
  let (x, next) ← m.body inner offset (initial.toNat / 32) (initial.toNat % 32)
  if offset < next then return (x, next) else panic .stalled

/-- An item with at most `depth` arrays, maps and tags inside one another. -/
def item : (depth offset : Nat) → Run (Item × Nat)
  | 0, offset => m.itemWith none offset
  | depth + 1, offset => m.itemWith (some (item depth)) offset

/-! ## Entry points -/

/-- One item at an offset under a nesting limit, and the offset after it. -/
def decodeWithDepth (offset depth : Nat) : Run (Item × Nat) := m.item depth offset

/-- One item at an offset, and the offset after it. -/
def decodeWithOffset (offset : Nat) : Run (Item × Nat) := m.item maxDepth offset

/-- The item that the whole data encodes. -/
def decode : Run Item := do
  let (x, next) ← m.decodeWithOffset 0
  if next < m.data.length then do
    let count ← difference m.data.length next
    fail (.trailing count)
  else return x

/-- Items up to the end of the data, in no more than `limit` rounds. -/
def sequenceWithin : (limit offset : Nat) → Run (List Item × Nat)
  | limit, offset =>
    if offset < m.data.length then
      match limit with
      | 0 => panic .exhausted
      | limit + 1 => do
        let (x, next) ← m.decodeWithOffset offset
        let (xs, stop) ← sequenceWithin limit next
        return (x :: xs, stop)
    else .ok ([], offset)

/-- The items that the whole data encodes one after the other. -/
def decodeSequence : Run (List Item) := do
  let (items, _) ← m.sequenceWithin (m.rounds 0) 0
  return items

/-- The argument of the head at an offset, and the offset after the head. -/
def decodeLength (offset : Nat) : Run (UInt64 × Nat) := do
  let initial ← m.byte offset
  m.argument (initial.toNat % 32) offset

end Machine

end Cbor
