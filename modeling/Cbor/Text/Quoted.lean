/-!
# Quoted text

Text between double quotes, in which each character is written by an escape of the output format.

- `quote`, the quoted form under a format's escapes;
- `isControl`, the characters that no format writes as they are;
- `hexDigits`, the lower-case digits of a number.
-/

namespace Cbor.Text

/-- Text between double quotes, each character written by `escape`. -/
def quote (escape : Char → List Char) (s : List Char) : List Char := '"' :: (s.flatMap escape ++ ['"'])

/-- The controls: the first 32 code points, and 127 to 159. -/
def isControl (c : Char) : Bool := c.toNat < 32 || (127 ≤ c.toNat && c.toNat < 160)

/-- The hexadecimal digits of a number, at least `width` of them. -/
def hexDigits (width n : Nat) : List Char :=
  let digits := Nat.toDigits 16 n
  List.replicate (width - digits.length) '0' ++ digits

end Cbor.Text
