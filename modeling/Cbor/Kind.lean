/-!
# Kinds of items

A kind is a named type of data items: the major type it is encoded under, the additional info its initial byte is
bound to, and the narrower kinds it stands for.

- `Kind.leaves`, the concrete kinds that a kind stands for;
- `Kind.resolve`, the one of them with a given additional info;
- `Kind.toCode` and `Kind.ofCode`, the notation `#major.info` and back;
- `Kind.parse`, a kind from its name or its code.
-/

namespace Cbor

/-- A named type of data items. -/
inductive Kind where
  | unsigned
  | negative
  | int
  | bytes
  | text
  | array
  | map
  | tag
  | special
  | bool
  | falseValue
  | trueValue
  | null
  | undefined
  | float
  | half
  | single
  | double
  | any
deriving DecidableEq, Inhabited

/-- Why a kind is not found. -/
inductive KindError where
  /-- No concrete kind under `kind` has the additional info. -/
  | unresolved (kind : Kind) (info : Option UInt8)
  /-- No kind has the name. -/
  | unknownName (name : String)
  /-- The text is not the code of a kind. -/
  | badCode (text : String)
deriving DecidableEq

namespace Kind

/-! ## The registry -/

/-- Every kind once. -/
def all : List Kind :=
  [unsigned, negative, int, bytes, text, array, map, tag, special, bool, falseValue, trueValue, null, undefined,
    float, half, single, double, any]

/-- The name used in data definitions. -/
def name : Kind → String
  | unsigned => "uint"
  | negative => "nint"
  | int => "int"
  | bytes => "bstr"
  | text => "tstr"
  | array => "array"
  | map => "map"
  | tag => "tag"
  | special => "special"
  | bool => "bool"
  | falseValue => "false"
  | trueValue => "true"
  | null => "null"
  | undefined => "undefined"
  | float => "float"
  | half => "float16"
  | single => "float32"
  | double => "float64"
  | any => "any"

/-- The major type of every item of the kind, if they share one. -/
def majorType? : Kind → Option UInt8
  | unsigned => some 0
  | negative => some 1
  | bytes => some 2
  | text => some 3
  | array => some 4
  | map => some 5
  | tag => some 6
  | special | bool | falseValue | trueValue | null | undefined | float | half | single | double => some 7
  | int | any => none

/-- The additional info of every item of the kind, if it is bound to one. -/
def additionalInfo? : Kind → Option UInt8
  | falseValue => some 20
  | trueValue => some 21
  | null => some 22
  | undefined => some 23
  | half => some 25
  | single => some 26
  | double => some 27
  | _ => none

/-- The narrower kinds that a kind stands for, the default one first. -/
def aliases : Kind → List Kind
  | int => [unsigned, negative]
  | special => [bool, null, undefined, float]
  | bool => [trueValue, falseValue]
  | float => [half, single, double]
  | _ => []

/-- One level of aliases; a kind without aliases stands for itself. -/
def expand (k : Kind) : List Kind := if k.aliases.isEmpty then [k] else k.aliases

/-- The concrete kinds that a kind stands for, depth first; aliases nest no deeper than two levels. -/
def leaves (k : Kind) : List Kind := k.expand.flatMap expand

/-! ## Resolution -/

/-- The first concrete kind under a kind, or the one bound to `info` where that is given. -/
def resolve (k : Kind) (info : Option UInt8) : Except KindError Kind :=
  match info with
  | none => .ok (k.leaves.headD k)
  | some i =>
    if k.aliases.isEmpty then
      if k.additionalInfo?.all (· = i) then .ok k else .error (.unresolved k info)
    else
      match k.leaves.find? (·.additionalInfo? = some i) with
      | some leaf => .ok leaf
      | none => .error (.unresolved k info)

/-- The kind of all items of a major type. -/
def ofMajorType (major : Nat) : Kind :=
  match major with
  | 0 => unsigned
  | 1 => negative
  | 2 => bytes
  | 3 => text
  | 4 => array
  | 5 => map
  | 6 => tag
  | _ => special

/-- The kind of the items that begin with a byte, by its upper three bits. -/
def ofInitialByte (b : UInt8) : Kind := ofMajorType (b.toNat / 32)

/-! ## Codes -/

/-- The code `#major.info` of a kind, or `#major` where no additional info applies. -/
def toCode (k : Kind) (info : Option UInt8) : Except KindError String := do
  let resolved ← k.resolve info
  match resolved.majorType? with
  | none => throw (.unresolved k info)
  | some major =>
    let code := "#" ++ toString major.toNat
    match info.or resolved.additionalInfo? with
    | some i => return code ++ "." ++ toString i.toNat
    | none => return code

/-- A numeral below 256: ASCII digits, at least one, after an optional plus sign. -/
def numeral? (s : List Char) : Option Nat :=
  let digits := match s with
    | '+' :: rest => rest
    | _ => s
  if digits.isEmpty || !digits.all Char.isDigit then none
  else
    let n := digits.foldl (fun n d => 10 * n + (d.toNat - 48)) 0
    if n < 256 then some n else none

/-- The major type and additional info of a code: a hash sign, a numeral, and after a point another one. -/
def readCode? : List Char → Option (Nat × Option Nat)
  | '#' :: body => do
    let major ← numeral? (body.takeWhile (· ≠ '.'))
    match body.dropWhile (· ≠ '.') with
    | [] => return (major, none)
    | _ :: info => return (major, some (← numeral? info))
  | _ => none

/-- The kind with a code; only under major type 7 does the additional info narrow the kind. -/
def ofCode (s : String) : Except KindError Kind :=
  match readCode? s.toList with
  | none => .error (.badCode s)
  | some (major, info) =>
    if 7 < major || info.any (31 < ·) then .error (.badCode s)
    else
      match major, info with
      | 7, some i => (special.resolve (some (.ofNat i))).mapError fun _ => .badCode s
      | _, _ => .ok (ofMajorType major)

/-- The kind with a name. -/
def ofName (s : String) : Except KindError Kind :=
  match all.find? (·.name = s) with
  | some k => .ok k
  | none => .error (.unknownName s)

/-- The kind with a code, if the text begins with a hash sign, or with a name. -/
def parse (s : String) : Except KindError Kind := if s.toList.head? = some '#' then ofCode s else ofName s

end Kind

/-- The text of an error. -/
def KindError.message : KindError → String
  | .unresolved k (some i) => "Unknown CBOR type '" ++ k.name ++ "." ++ toString i.toNat ++ "'"
  | .unresolved k none => "Unknown CBOR type '" ++ k.name ++ "'"
  | .unknownName s => "Unknown CBOR type '" ++ s ++ "'"
  | .badCode s => "Invalid type tag string '" ++ s ++ "'"

end Cbor
