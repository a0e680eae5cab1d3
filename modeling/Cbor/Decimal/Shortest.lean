import Cbor.Binary.Format

/-!
# Shortest decimals

The shortest decimal of a magnitude is, of the decimals with the fewest digits among those that round to it, the one
nearest to it. Magnitudes and the interval that rounds to them are compared exactly, as integers scaled by four.

- `Decimal`, `coefficient * 10 ^ exponent`;
- `shortest`, the shortest decimal of a magnitude of a format.
-/

namespace Cbor

open Cbor.Binary (Format scale)

/-- The value `coefficient * 10 ^ exponent`. -/
structure Decimal where
  coefficient : Nat
  exponent : Int
deriving DecidableEq

namespace Decimal

/-- Which of two equally near decimals is taken: the one of greater magnitude, or the one with an even last digit. -/
inductive Tie where
  | away
  | even
deriving DecidableEq

/-- The number of decimal digits of a positive number. -/
def digitCount (n : Nat) : Nat := (Nat.toDigits 10 n).length

/-- The greatest `e` with `10 ^ e ≤ num / den`, for positive numbers. -/
def floorLog10 (num den : Nat) : Int :=
  if den ≤ num then (digitCount (num / den) : Int) - 1 else -(digitCount ((den - 1) / num) : Int)

/-- The reals that round to one magnitude, as numerators over a common denominator. -/
structure Interval where
  low : Nat
  value : Nat
  high : Nat
  denominator : Nat
  /-- The two ends belong to the interval. -/
  closed : Bool

/-- The interval of a positive magnitude: half a unit to each side, a quarter below a power of two. -/
def interval (f : Format) (m : Nat) : Interval :=
  let s := f.significand m
  let (unit, den) := scale 1 (f.exponent m - 2)
  let narrow := s = 1 <<< f.fractionBits && f.minExponent < f.exponent m
  ⟨(4 * s - (if narrow then 1 else 2)) * unit, 4 * s * unit, (4 * s + 2) * unit, den, s % 2 = 0⟩

namespace Interval

/-- A fraction with the common denominator scaled to `10 ^ (-e)` lies inside. -/
def contains (i : Interval) (d : Decimal) : Bool :=
  let x := d.coefficient * Nat.pow 10 d.exponent.toNat * i.denominator
  let up := Nat.pow 10 (-d.exponent).toNat
  if i.closed then i.low * up ≤ x && x ≤ i.high * up else i.low * up < x && x < i.high * up

/-- The nearest decimal with exponent `e` inside the interval, one of the two neighbours of its value. -/
def onGrid (i : Interval) (tie : Tie) (e : Int) : Option Decimal :=
  let num := i.value * Nat.pow 10 (-e).toNat
  let den := i.denominator * Nat.pow 10 e.toNat
  let below : Decimal := ⟨num / den, e⟩
  let above : Decimal := ⟨num / den + 1, e⟩
  let r := 2 * (num % den)
  match i.contains below, i.contains above with
  | true, true =>
    if r < den then some below
    else if den < r then some above
    else if tie = .even && below.coefficient % 2 = 0 then some below
    else some above
  | true, false => some below
  | false, true => some above
  | false, false => none

/-- The coarsest of `n` grids, from the one with exponent `e` down, that meets the interval. -/
def firstGrid (i : Interval) (tie : Tie) : Nat → Int → Option Decimal
  | 0, _ => none
  | n + 1, e => (i.onGrid tie e).or (i.firstGrid tie n (e - 1))

end Interval

/-- The shortest decimal of a positive finite magnitude; seventeen digits always suffice. -/
def shortest (f : Format) (tie : Tie) (m : Nat) : Decimal :=
  let i := interval f m
  (i.firstGrid tie 17 (floorLog10 i.value i.denominator)).getD ⟨0, 0⟩

end Decimal

end Cbor
