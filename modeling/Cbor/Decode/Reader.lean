import Cbor.Decode.Error
import Cbor.Head

/-!
# Readers

A reader takes what it needs off the front of the remaining bytes, or fails.

- `byte`, `take` and `argument`, the parts of heads and contents;
- `times`, `untilBreak` and `untilEnd`, the three ways in which items follow one another.
-/

namespace Cbor

/-- The remaining bytes, and the offset of the first of them in the data. -/
structure Cursor where
  offset : Nat
  rest : Bytes
deriving DecidableEq

/-- The cursor at an offset, which may lie beyond the end. -/
def Cursor.at (data : Bytes) (offset : Nat) : Cursor := ⟨offset, data.drop offset⟩

/-- A step of decoding. -/
abbrev Reader := StateT Cursor (Except DecodeError)

namespace Reader

/-! ## Bytes and arguments -/

/-- The offset of the next byte. -/
def offset : Reader Nat := fun c => .ok (c.offset, c)

/-- The next byte. -/
def byte : Reader UInt8 := fun c =>
  match c.rest with
  | [] => .error (.outOfData c.offset)
  | b :: rest => .ok (b, ⟨c.offset + 1, rest⟩)

/-- The next `n` bytes. -/
def take (n : Nat) : Reader Bytes := fun c =>
  let taken := c.rest.take n
  if taken.length = n then .ok (taken, ⟨c.offset + n, c.rest.drop n⟩) else .error (.outOfData c.offset)

/-- The argument of a head, after its initial byte at `start`. -/
def argument (start info : Nat) : Reader UInt64 :=
  if info < 24 then pure (.ofNat info)
  else if info < 28 then return .ofNat (Bytes.toNat (← take (1 <<< (info - 24))))
  else throw (.reservedInfo info start)

/-- The content of a definite string, after the initial byte at `start`. -/
def content (start info : Nat) : Reader Bytes := do
  let length ← argument start info
  take length.toNat

/-- The text with the given bytes, in the string whose initial byte is at `start`. -/
def text (start : Nat) (b : Bytes) : Reader String :=
  match b.toString? with
  | some s => pure s
  | none => throw (.invalidUtf8 start)

/-! ## Repetition -/

/-- Reads `n` times. -/
def times {α : Type} (r : Reader α) : Nat → Reader (List α)
  | 0 => pure []
  | n + 1 => do
    let x ← r
    let xs ← times r n
    return x :: xs

/-- Reads up to a break, which is taken too; `limit` bounds the number of looks at the next byte. -/
def untilBreakWithin {α : Type} (r : Reader α) : Nat → Reader (List α)
  | 0, c => .error (.stalled c.offset)
  | limit + 1, c =>
    match c.rest with
    | [] => .error (.outOfData c.offset)
    | b :: rest =>
      if b = Head.breakByte then .ok ([], ⟨c.offset + 1, rest⟩)
      else (do
        let x ← r
        let xs ← untilBreakWithin r limit
        return x :: xs : Reader (List α)) c

/-- Reads up to a break, which is taken too. -/
def untilBreak {α : Type} (r : Reader α) : Reader (List α) := fun c => untilBreakWithin r (c.rest.length + 1) c

/-- Reads up to the end of the data; `limit` bounds the number of looks at the next byte. -/
def untilEndWithin {α : Type} (r : Reader α) : Nat → Reader (List α)
  | 0, c => .error (.stalled c.offset)
  | limit + 1, c =>
    match c.rest with
    | [] => .ok ([], c)
    | _ :: _ => (do
        let x ← r
        let xs ← untilEndWithin r limit
        return x :: xs : Reader (List α)) c

/-- Reads up to the end of the data. -/
def untilEnd {α : Type} (r : Reader α) : Reader (List α) := fun c => untilEndWithin r (c.rest.length + 1) c

end Reader

end Cbor
