import Cbor.Binary.Basic
import Cbor.Decimal.Shortest

/-!
# Written floats

A float is written by its shortest decimal, in plain notation with at least one fraction digit while the exponent of
its first digit is inside the bounds of the style, in exponent notation otherwise.

- `Style`, the choices of an output format, and `Style.readable`, those of texts for people;
- `Style.write`, the text of a finite float.
-/

namespace Cbor.Decimal

open Cbor.Binary (Format)

/-- How an output format writes finite floats. -/
structure Style where
  /-- The smallest exponent of the first digit in plain notation. -/
  plainFrom : Int
  /-- The smallest exponent of the first digit above plain notation. -/
  plainBelow : Int
  /-- A positive exponent has a plus sign. -/
  plus : Bool
  /-- The choice between two equally near decimals. -/
  tie : Tie

/-- Text for people: plain from `0.0001` up to sixteen digits before the point; of two nearest decimals the greater. -/
def Style.readable : Style := ⟨-4, 16, false, .away⟩

/-- Drops the zeros that end a coefficient, which has at most `n` digits. -/
def dropZeros : Nat → Decimal → Decimal
  | 0, d => d
  | n + 1, d =>
    if d.coefficient % 10 = 0 && d.coefficient ≠ 0 then dropZeros n ⟨d.coefficient / 10, d.exponent + 1⟩ else d

/-- Plain notation: zeros fill up to the point, and one stands for an empty fraction. -/
def plain (digits : List Char) (e : Int) : List Char :=
  if e < 0 then '0' :: '.' :: (List.replicate (-e - 1).toNat '0' ++ digits)
  else
    let whole := e.toNat + 1
    let tail := digits.drop whole
    digits.take whole ++ List.replicate (whole - digits.length) '0' ++ '.' :: (if tail.isEmpty then ['0'] else tail)

/-- Exponent notation: a point only before further digits. -/
def scientific (plus : Bool) (digits : List Char) (e : Int) : List Char :=
  let mantissa := match digits with
    | d :: d' :: ds => d :: '.' :: d' :: ds
    | ds => ds
  let sign := if e < 0 then ['-'] else if plus then ['+'] else []
  mantissa ++ 'e' :: (sign ++ Nat.toDigits 10 e.natAbs)

namespace Style

/-- The text of a decimal. -/
def writeDecimal (style : Style) (d : Decimal) : List Char :=
  let d := dropZeros 18 d
  let digits := Nat.toDigits 10 d.coefficient
  let e := d.exponent + digits.length - 1
  if style.plainFrom ≤ e ∧ e < style.plainBelow then plain digits e else scientific style.plus digits e

/-- The text of a finite bit pattern of a format; a zero keeps its sign. -/
def write (style : Style) (f : Format) (bits : Nat) : List Char :=
  let m := bits % f.signBit
  let text := if m = 0 then ['0', '.', '0'] else style.writeDecimal (shortest f style.tie m)
  if f.isNegative bits then '-' :: text else text

end Style

end Cbor.Decimal
