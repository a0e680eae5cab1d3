import Cbor.Bytes

/-!
# Heads

The head of an item is its initial byte, the major type in the upper three bits and the additional info in the lower
five, and the argument that follows it. An argument below 24 is the additional info itself.

- `Head.infoFor` and `Head.encode`, the shortest head with an argument.
-/

namespace Cbor.Head

/-- The additional info of the shortest head with an argument. -/
def infoFor (argument : UInt64) : UInt8 :=
  if argument < 24 then argument.toUInt8
  else if argument ≤ 0xFF then 24
  else if argument ≤ 0xFFFF then 25
  else if argument ≤ 0xFFFFFFFF then 26
  else 27

/-- The number of argument bytes that follow an initial byte with the additional info. -/
def width (info : UInt8) : Nat :=
  match info.toNat with
  | 24 => 1
  | 25 => 2
  | 26 => 4
  | 27 => 8
  | _ => 0

/-- An initial byte; of the major type only the low three bits count. -/
def initialByte (major info : UInt8) : UInt8 := (major <<< 5) ||| info

/-- The additional info of an item that is ended by a break. -/
def indefiniteInfo : UInt8 := 31

/-- The byte that ends an item of indefinite length. -/
def breakByte : UInt8 := 0xFF

/-- The shortest head with an argument. -/
def encode (major : UInt8) (argument : UInt64) : Bytes :=
  initialByte major (infoFor argument) :: Bytes.ofNat (width (infoFor argument)) argument.toNat

/-- The shortest head of something of the given length. -/
def encodeLength (major : UInt8) (length : Nat) : Bytes := encode major (.ofNat length)

end Cbor.Head
