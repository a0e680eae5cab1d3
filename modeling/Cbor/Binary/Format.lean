/-!
# Binary floating-point formats

A finite magnitude of a format is `significand * 2 ^ exponent`; bit patterns without their sign bit are ordered as
the magnitudes they stand for, so that rounding is a computation on bit patterns as numbers.

- `Format.nearest`: the magnitude nearest to a fraction, of two equally near ones the even one;
- `Format.convert`: the bit pattern of one format that another one's rounds to.
-/

namespace Cbor.Binary

/-- The widths of the two fields that follow the sign bit. -/
structure Format where
  exponentBits : Nat
  fractionBits : Nat
deriving DecidableEq

/-- The 16-bit format. -/
def Format.binary16 : Format := ⟨5, 10⟩

/-- The 32-bit format. -/
def Format.binary32 : Format := ⟨8, 23⟩

/-- The 64-bit format. -/
def Format.binary64 : Format := ⟨11, 52⟩

/-! ## Rounding of fractions -/

/-- The integer nearest to `num / den`, of two equally near ones the even one. -/
def roundHalfEven (num den : Nat) : Nat :=
  let q := num / den
  let r := num % den
  if 2 * r < den then q else if den < 2 * r then q + 1 else q + q % 2

/-- Numerator and denominator of `n * 2 ^ e`. -/
def scale (n : Nat) (e : Int) : Nat × Nat := (n <<< e.toNat, 1 <<< (-e).toNat)

/-- The greatest `e` with `2 ^ e ≤ num / den`, for positive numbers. -/
def floorLog2 (num den : Nat) : Int :=
  let e : Int := (Nat.log2 num : Int) - Nat.log2 den
  if den <<< e.toNat ≤ num <<< (-e).toNat then e else e - 1

namespace Format

/-! ## Fields -/

/-- The weight of the sign bit; a bit pattern below it is a magnitude. -/
def signBit (f : Format) : Nat := 1 <<< (f.exponentBits + f.fractionBits)

/-- The magnitude of infinity; every greater one is not a number. -/
def infinity (f : Format) : Nat := (1 <<< f.exponentBits - 1) <<< f.fractionBits

/-- The exponent of the least significant bit of the smallest magnitudes. -/
def minExponent (f : Format) : Int := 2 - (1 <<< (f.exponentBits - 1) : Nat) - f.fractionBits

/-- The integer significand of a finite magnitude: without its leading bit in the smallest binade. -/
def significand (f : Format) (m : Nat) : Nat :=
  if m < 1 <<< f.fractionBits then m else 1 <<< f.fractionBits + m % (1 <<< f.fractionBits)

/-- The exponent of the least significant bit of a finite magnitude. -/
def exponent (f : Format) (m : Nat) : Int := f.minExponent + (m >>> f.fractionBits - 1 : Nat)

/-- Numerator and denominator of a finite magnitude. -/
def fraction (f : Format) (m : Nat) : Nat × Nat := scale (f.significand m) (f.exponent m)

/-! ## Rounding -/

/-- The magnitude nearest to `num / den`, of two equally near ones the even one, from the overflow bound on infinity. -/
def nearest (f : Format) (num den : Nat) : Nat :=
  if num = 0 then 0
  else
    let e := max f.minExponent (floorLog2 num den - f.fractionBits)
    let n := roundHalfEven (num <<< (-e).toNat) (den <<< e.toNat)
    min f.infinity ((e - f.minExponent).toNat <<< f.fractionBits + n)

/-- A magnitude that is not a number keeps the upper bits of its payload and becomes quiet. -/
def convertNaN (source target : Format) (m : Nat) : Nat :=
  let payload := (m - source.infinity) <<< target.fractionBits >>> source.fractionBits
  target.infinity + (payload ||| 1 <<< (target.fractionBits - 1))

/-- The magnitude of `target` that a magnitude of `source` rounds to. -/
def convertMagnitude (source target : Format) (m : Nat) : Nat :=
  if source.infinity < m then convertNaN source target m
  else if m = source.infinity then target.infinity
  else target.nearest (source.fraction m).1 (source.fraction m).2

/-- The bit pattern of `target` that a bit pattern of `source` rounds to; the sign is kept. -/
def convert (source target : Format) (bits : Nat) : Nat :=
  bits / source.signBit * target.signBit + convertMagnitude source target (bits % source.signBit)

/-- The bit pattern nearest to an integer. -/
def ofInt (f : Format) (i : Int) : Nat :=
  (if i < 0 then f.signBit else 0) + f.nearest i.natAbs 1

/-- A bit pattern of the format whose magnitude is above infinity. -/
def isNaN (f : Format) (bits : Nat) : Bool := f.infinity < bits % f.signBit

/-- A bit pattern of the format whose magnitude is infinity. -/
def isInfinite (f : Format) (bits : Nat) : Bool := bits % f.signBit = f.infinity

/-- A bit pattern of the format with its sign bit set. -/
def isNegative (f : Format) (bits : Nat) : Bool := f.signBit ≤ bits

end Format

end Cbor.Binary
