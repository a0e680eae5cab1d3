import Cbor.Bytes
import Cbor.Json.Error

/-!
# Tokens of JSON text

Strings are kept as the units that are written, so that a surrogate can be told from a character, and numbers as their
digits, so that no number is out of range yet.

- `Token.scan`, the tokens of a text.
-/

namespace Cbor.Json

/-- A unit of a string: a character, or an escaped code that stands for half a character. -/
inductive StringUnit where
  | char (c : Char)
  | surrogate (code : Nat)
deriving DecidableEq

/-- A written number: `coefficient * 10 ^ exponent` with a sign. -/
structure Numeral where
  negative : Bool
  coefficient : Nat
  exponent : Int
  /-- The number is written without a fraction and without an exponent. -/
  integral : Bool
deriving DecidableEq

/-- A token of a text. -/
inductive Token where
  | openArray
  | closeArray
  | openObject
  | closeObject
  | colon
  | comma
  | null
  | bool (value : Bool)
  | number (value : Numeral)
  | string (units : List StringUnit)
deriving DecidableEq

namespace Token

/-! ## Strings -/

/-- The unit of an escaped code. -/
def unitOf (code : Nat) : StringUnit :=
  if 0xD800 ≤ code ∧ code < 0xE000 then .surrogate code else .char (.ofNat code)

/-- The code of four hexadecimal digits. -/
def code? (digits : List Char) : Option Nat :=
  digits.foldlM (fun n c => (Bytes.hexValue? c).map (16 * n + ·)) 0

/-- The character of an escape of one letter. -/
def escaped? : Char → Option Char
  | '"' => some '"'
  | '\\' => some '\\'
  | '/' => some '/'
  | 'b' => some '\x08'
  | 'f' => some '\x0c'
  | 'n' => some '\n'
  | 'r' => some '\r'
  | 't' => some '\t'
  | _ => none

/-- The units up to the closing quote, and the text after it. -/
def scanString : List Char → Except JsonError (List StringUnit × List Char)
  | [] => .error .malformed
  | '"' :: rest => .ok ([], rest)
  | '\\' :: 'u' :: a :: b :: c :: d :: rest =>
    match code? [a, b, c, d] with
    | none => .error .malformed
    | some code => do
      let (units, rest) ← scanString rest
      return (unitOf code :: units, rest)
  | '\\' :: c :: rest =>
    match escaped? c with
    | none => .error .malformed
    | some c => do
      let (units, rest) ← scanString rest
      return (.char c :: units, rest)
  | c :: rest =>
    if c.toNat < 32 || c = '\\' then .error .malformed
    else do
      let (units, rest) ← scanString rest
      return (.char c :: units, rest)

/-! ## Numbers -/

/-- The digits at the front of a text, at least one, and the text after them. -/
def scanDigits (s : List Char) : Except JsonError (List Char × List Char) :=
  let (digits, rest) := s.span Char.isDigit
  if digits.isEmpty then .error .malformed else .ok (digits, rest)

/-- The number of a list of digits. -/
def digitsValue (digits : List Char) : Nat := digits.foldl (fun n d => 10 * n + (d.toNat - 48)) 0

/-- The digits of a whole part, which is zero or begins with another digit. -/
def scanWhole : List Char → Except JsonError (List Char × List Char)
  | '0' :: rest => .ok (['0'], rest)
  | s => scanDigits s

/-- The digits of a fraction, if one follows. -/
def scanFraction : List Char → Except JsonError (Option (List Char) × List Char)
  | '.' :: rest => do
    let (digits, rest) ← scanDigits rest
    return (some digits, rest)
  | s => .ok (none, s)

/-- An exponent, if one follows. -/
def scanExponent : List Char → Except JsonError (Option Int × List Char)
  | c :: rest =>
    if c = 'e' ∨ c = 'E' then do
      let (negative, unsigned) := match rest with
        | '+' :: rest => (false, rest)
        | '-' :: rest => (true, rest)
        | rest => (false, rest)
      let (digits, rest) ← scanDigits unsigned
      let e : Int := digitsValue digits
      return (some (if negative then -e else e), rest)
    else .ok (none, c :: rest)
  | [] => .ok (none, [])

/-- A number, after its sign. -/
def scanNumber (negative : Bool) (s : List Char) : Except JsonError (Numeral × List Char) := do
  let (whole, s) ← scanWhole s
  let (fraction, s) ← scanFraction s
  let (exponent, s) ← scanExponent s
  let places := fraction.getD []
  let numeral : Numeral :=
    ⟨negative, digitsValue (whole ++ places), exponent.getD 0 - places.length, fraction.isNone && exponent.isNone⟩
  return (numeral, s)

/-! ## Texts -/

/-- The characters between tokens. -/
def isSpace (c : Char) : Bool := c = ' ' || c = '\n' || c = '\t' || c = '\r'

/-- The token that begins with a character, and the text after it. -/
def scanToken (c : Char) (rest : List Char) : Except JsonError (Token × List Char) :=
  match c, rest with
  | '[', rest => .ok (.openArray, rest)
  | ']', rest => .ok (.closeArray, rest)
  | '\x7b', rest => .ok (.openObject, rest)
  | '\x7d', rest => .ok (.closeObject, rest)
  | ':', rest => .ok (.colon, rest)
  | ',', rest => .ok (.comma, rest)
  | 'n', 'u' :: 'l' :: 'l' :: rest => .ok (.null, rest)
  | 't', 'r' :: 'u' :: 'e' :: rest => .ok (.bool true, rest)
  | 'f', 'a' :: 'l' :: 's' :: 'e' :: rest => .ok (.bool false, rest)
  | '"', rest => do
    let (units, rest) ← scanString rest
    return (.string units, rest)
  | '-', rest => do
    let (numeral, rest) ← scanNumber true rest
    return (.number numeral, rest)
  | c, rest => do
    let (numeral, rest) ← scanNumber false (c :: rest)
    return (.number numeral, rest)

/-- The tokens of a text; `limit` bounds the number of looks at the next character. -/
def scanWithin : Nat → List Char → Except JsonError (List Token)
  | _, [] => .ok []
  | 0, _ => .error .malformed
  | limit + 1, c :: rest =>
    if isSpace c then scanWithin limit rest
    else do
      let (token, rest) ← scanToken c rest
      let tokens ← scanWithin limit rest
      return token :: tokens

/-- The tokens of a text. -/
def scan (s : List Char) : Except JsonError (List Token) := scanWithin s.length s

end Token

end Cbor.Json
