import Cbor.Json.Basic
import Cbor.Json.Document

/-!
# JSON values of texts

Evaluation refuses what is written correctly and has no value: halves of surrogate pairs, numbers beyond the greatest
float, and containers nested deeper than `nestingLimit`.

- `Json.ofString`, the value of a text.
-/

namespace Cbor.Json

/-- The number of containers that may stand inside one another. -/
def nestingLimit : Nat := 127

/-! ## Strings -/

/-- The character of a pair of surrogates. -/
def pair? (high low : Nat) : Option Char :=
  if high < 0xDC00 ∧ 0xDC00 ≤ low then some (.ofNat (0x10000 + (high - 0xD800) * 0x400 + (low - 0xDC00))) else none

/-- The characters of a list of units. -/
def characters? : List StringUnit → Option (List Char)
  | [] => some []
  | .char c :: units => (characters? units).map (c :: ·)
  | .surrogate high :: .surrogate low :: units => do
    let c ← pair? high low
    let cs ← characters? units
    return c :: cs
  | .surrogate _ :: _ => none

/-- The string of a list of units. -/
def stringOf (units : List StringUnit) : Except JsonError String :=
  match characters? units with
  | some cs => .ok (.ofList cs)
  | none => .error .loneSurrogate

/-! ## Numbers -/

/-- Decimal exponents beyond which a number of any digits is zero or infinite. -/
def exponentBound : Int := 400

/-- The magnitude nearest to a decimal. -/
def magnitude (coefficient : Nat) (exponent : Int) : Nat :=
  let f := Binary.Format.binary64
  let top := exponent + (Nat.toDigits 10 coefficient).length
  if coefficient = 0 || top < -exponentBound then 0
  else if exponentBound < top then f.infinity
  else f.nearest (coefficient * Nat.pow 10 exponent.toNat) (Nat.pow 10 (-exponent).toNat)

/-- The float nearest to a numeral. -/
def floatOf (n : Numeral) : Except JsonError Number :=
  let f := Binary.Format.binary64
  let m := magnitude n.coefficient n.exponent
  if m < f.infinity then .ok (.float ⟨.ofNat ((if n.negative then f.signBit else 0) + m)⟩) else .error .outOfRange

/-- The number of a numeral; negative zero is a float. -/
def numberOf (n : Numeral) : Except JsonError Number :=
  if !n.integral then floatOf n
  else if n.negative then
    if 0 < n.coefficient ∧ n.coefficient ≤ Int64.minValue.toInt.natAbs then .ok (.negative (.ofInt (-n.coefficient)))
    else floatOf n
  else if n.coefficient < UInt64.size then .ok (.natural (.ofNat n.coefficient))
  else floatOf n

/-! ## Values -/

/-- The number of containers that may still open inside one. -/
def deeper : Nat → Except JsonError Nat
  | 0 => .error .tooDeep
  | depth + 1 => .ok depth

mutual

/-- The value of a document in which `depth` containers may nest. -/
def evaluate (depth : Nat) : Document → Except JsonError Json
  | .null => .ok .null
  | .bool b => .ok (.bool b)
  | .number n => return .number (← numberOf n)
  | .string units => return .string (← stringOf units)
  | .array elements => do
    let depth ← deeper depth
    return .array (← evaluateElements depth elements)
  | .object members => do
    let depth ← deeper depth
    return .ofMembers (← evaluateMembers depth members)

/-- The values of the elements of an array. -/
def evaluateElements (depth : Nat) : List Document → Except JsonError (List Json)
  | [] => .ok []
  | element :: elements => do
    let value ← evaluate depth element
    let values ← evaluateElements depth elements
    return value :: values

/-- The members of an object with their values. -/
def evaluateMembers (depth : Nat) : List (List StringUnit × Document) → Except JsonError (List (String × Json))
  | [] => .ok []
  | (key, member) :: members => do
    let key ← stringOf key
    let value ← evaluate depth member
    let rest ← evaluateMembers depth members
    return (key, value) :: rest

end

/-- The value of a text. -/
def ofString (s : String) : Except JsonError Json := do
  let document ← Document.ofString s
  evaluate nestingLimit document

end Cbor.Json
