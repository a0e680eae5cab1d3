import Cbor.Binary.Format

/-!
# Floating-point numbers of three widths

`Binary16`, `Binary32` and `Binary64` are bit patterns: two of them are equal when they are the same bits, so that
every payload of a value that is not a number stays apart. `Binary64.same` compares the numbers instead.
-/

namespace Cbor

open Binary (Format)

/-- A 16-bit float. -/
structure Binary16 where
  bits : UInt16
deriving DecidableEq, Hashable

/-- A 32-bit float. -/
structure Binary32 where
  bits : UInt32
deriving DecidableEq, Hashable

/-- A 64-bit float. -/
structure Binary64 where
  bits : UInt64
deriving DecidableEq, Hashable

/-! ## Conversions -/

/-- Every 16-bit number is a 32-bit number. -/
def Binary16.toBinary32 (x : Binary16) : Binary32 := ⟨.ofNat (Format.convert .binary16 .binary32 x.bits.toNat)⟩

/-- Every 16-bit number is a 64-bit number. -/
def Binary16.toBinary64 (x : Binary16) : Binary64 := ⟨.ofNat (Format.convert .binary16 .binary64 x.bits.toNat)⟩

/-- Every 32-bit number is a 64-bit number. -/
def Binary32.toBinary64 (x : Binary32) : Binary64 := ⟨.ofNat (Format.convert .binary32 .binary64 x.bits.toNat)⟩

namespace Binary64

/-- The nearest 16-bit number. -/
def toBinary16 (x : Binary64) : Binary16 := ⟨.ofNat (Format.convert .binary64 .binary16 x.bits.toNat)⟩

/-- The nearest 32-bit number. -/
def toBinary32 (x : Binary64) : Binary32 := ⟨.ofNat (Format.convert .binary64 .binary32 x.bits.toNat)⟩

/-- The 64-bit number nearest to an integer. -/
def ofInt (i : Int) : Binary64 := ⟨.ofNat (Format.binary64.ofInt i)⟩

/-- The value is not a number. -/
def isNaN (x : Binary64) : Bool := Format.binary64.isNaN x.bits.toNat

/-- The value is one of the two infinities. -/
def isInfinite (x : Binary64) : Bool := Format.binary64.isInfinite x.bits.toNat

/-- The sign bit is set. -/
def isNegative (x : Binary64) : Bool := Format.binary64.isNegative x.bits.toNat

/-- The value is one of the two zeros. -/
def isZero (x : Binary64) : Bool := x.bits.toNat % Format.binary64.signBit = 0

/-- Equality of numbers: a value that is not a number differs from itself, and the two zeros are one number. -/
def same (x y : Binary64) : Bool := !x.isNaN && (x = y || (x.isZero && y.isZero))

end Binary64

/-- The 32-bit number nearest to an integer. -/
def Binary32.ofInt (i : Int) : Binary32 := ⟨.ofNat (Format.binary32.ofInt i)⟩

end Cbor
