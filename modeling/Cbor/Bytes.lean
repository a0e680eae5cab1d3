/-!
# Byte strings

- `Bytes`, a byte string as a list, first byte first;
- `Bytes.ofNat` and `Bytes.toNat`, big-endian numbers of a fixed width and back;
- `Bytes.toHex` and `Bytes.ofHex?`, two lower-case digits per byte and back.
-/

namespace Cbor

/-- A byte string. -/
abbrev Bytes := List UInt8

namespace Bytes

/-! ## Big-endian numbers -/

/-- The low `width` bytes of a number, highest byte first. -/
def ofNat : Nat → Nat → Bytes
  | 0, _ => []
  | width + 1, n => UInt8.ofNat (n >>> (8 * width)) :: ofNat width n

/-- The number whose base-256 digits are the bytes, highest first. -/
def toNat (b : Bytes) : Nat := b.foldl (fun n x => n * 256 + x.toNat) 0

@[simp] theorem length_ofNat (width n : Nat) : (ofNat width n).length = width := by
  induction width with
  | zero => rfl
  | succ w ih => simp [ofNat, ih]

/-! ## Hexadecimal text -/

/-- The lower-case digit of a number below 16. -/
def hexDigit (n : Nat) : Char := Char.ofNat (if n < 10 then 48 + n else 87 + n)

/-- The value of a hexadecimal digit of either case. -/
def hexValue? (c : Char) : Option Nat :=
  if '0' ≤ c ∧ c ≤ '9' then some (c.toNat - 48)
  else if 'a' ≤ c ∧ c ≤ 'f' then some (c.toNat - 87)
  else if 'A' ≤ c ∧ c ≤ 'F' then some (c.toNat - 55)
  else none

/-- Two digits per byte. -/
def hexChars (b : Bytes) : List Char :=
  b.flatMap fun x => [hexDigit (x.toNat / 16), hexDigit (x.toNat % 16)]

/-- Two digits per byte, as a string. -/
def toHex (b : Bytes) : String := String.ofList b.hexChars

/-- Reads pairs of digits. -/
def ofHexChars? : List Char → Option Bytes
  | [] => some []
  | h :: l :: rest => do
    let h ← hexValue? h
    let l ← hexValue? l
    let rest ← ofHexChars? rest
    return UInt8.ofNat (16 * h + l) :: rest
  | [_] => none

/-- Reads a string of digit pairs. -/
def ofHex? (s : String) : Option Bytes := ofHexChars? s.toList

/-! ## Text -/

/-- The UTF-8 bytes of a string. -/
def ofString (s : String) : Bytes := s.toUTF8.toList

/-- The string whose UTF-8 bytes are given, if they are valid. -/
def toString? (b : Bytes) : Option String := String.fromUTF8? ⟨b.toArray⟩

end Bytes

end Cbor
