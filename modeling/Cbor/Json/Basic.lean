import Cbor.Binary.Basic

/-!
# JSON values

- `Json.Number`, integers of 64 bits by their sign and other numbers as floats;
- `Json`, a value; the members of an object are in the order of their keys;
- `Json.ofMembers`, the object of members in any order: of equal keys the last value counts.
-/

namespace Cbor

/-- A number: a natural one, a negative integer or a finite float. -/
inductive Json.Number where
  | natural (value : UInt64)
  | negative (value : Int64)
  | float (value : Binary64)
deriving DecidableEq

/-- A value. -/
inductive Json where
  | null
  | bool (value : Bool)
  | number (value : Json.Number)
  | string (value : String)
  | array (elements : List Json)
  | object (members : List (String × Json))
deriving Inhabited

namespace Json

/-- Sets the value of a key among members in the order of their keys. -/
def setMember (key : String) (value : Json) : List (String × Json) → List (String × Json)
  | [] => [(key, value)]
  | (k, v) :: members =>
    if key < k then (key, value) :: (k, v) :: members
    else if key = k then (key, value) :: members
    else (k, v) :: setMember key value members

/-- The object of members in any order. -/
def ofMembers (members : List (String × Json)) : Json :=
  .object (members.foldl (fun sorted (k, v) => setMember k v sorted) [])

end Json

end Cbor
