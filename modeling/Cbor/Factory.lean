import Cbor.Dump
import Cbor.Item.Map

/-!
# Items from host values

- `create`, an item of a kind from a host value, which must have a shape that the kind takes;
- `createAny`, an item of the kind that the host value itself suggests;
- `narrowest`, the shortest float that holds a number.
-/

namespace Cbor

/-- Why a host value does not become an item of a kind. -/
inductive CreateError where
  /-- Items of the kind are not made from values of this shape. -/
  | unsupported (value : HostValue) (kind : Kind)
  /-- The integer does not have the sign of the kind. -/
  | wrongSign (value : Int) (kind : Kind)
  /-- An item of one kind is given where another is needed. -/
  | wrongItem (found expected : Kind)
  /-- No item holds the integer. -/
  | outOfRange

/-- The text of an error. -/
def CreateError.message : CreateError → String
  | .unsupported value kind => conversion (value.dump ++ " to " ++ kind.name)
  | .wrongSign value kind => conversion (toString value ++ " to " ++ kind.name)
  | .wrongItem found expected => conversion (found.name ++ " item to " ++ expected.name)
  | .outOfRange => "Value out of range"
where
  /-- The sentence around what cannot be converted. -/
  conversion (what : String) : String := "Cannot convert " ++ what ++ " to the requested type"

/-! ## Integers and floats -/

/-- The item of an integer. -/
def createInt (i : Int) : Except CreateError Item :=
  match Item.ofInt? i with
  | some x => .ok x
  | none => .error .outOfRange

/-- The concrete kind of an integer under a kind, by its sign where the kind leaves it open. -/
def Kind.resolveInt (k : Kind) (i : Int) : Except CreateError Kind :=
  match k with
  | .int | .any => .ok (if i < 0 then .negative else .unsigned)
  | .unsigned => if i < 0 then .error (.wrongSign i k) else .ok k
  | .negative => if i < 0 then .ok k else .error (.wrongSign i k)
  | _ => .error (.wrongSign i k)

/-- The item of the narrowest width that holds a number exactly; what is not a number keeps its width. -/
def narrowest (x : Binary64) : Item :=
  if x.toBinary16.toBinary64.same x then .half x.toBinary16
  else if x.toBinary32.toBinary64.same x then .single x.toBinary32
  else .double x

/-! ## Any kind -/

mutual

/-- The item that a host value itself suggests. -/
def createAny : HostValue → Except CreateError Item
  | .null => .ok .null
  | .bool b => .ok (.bool b)
  | .int i => createInt i
  | .float x => .ok (.double x)
  | .text s => .ok (.text s)
  | .bytes b => .ok (.bytes b)
  | .list elements => return .array (← createElements elements) false
  | .map entries => return .ofEntries (← createEntries entries) false
  | .tagged tag content => return .ofTag tag (← createAny content)
  | .item x => .ok x

/-- The items of the elements of a list, up to the first error. -/
def createElements : List HostValue → Except CreateError (List Item)
  | [] => .ok []
  | element :: elements => do
    let item ← createAny element
    let items ← createElements elements
    return item :: items

/-- The pairs of items of the entries of a map, up to the first error. -/
def createEntries : List (HostValue × HostValue) → Except CreateError (List (Item × Item))
  | [] => .ok []
  | (key, value) :: entries => do
    let key ← createAny key
    let value ← createAny value
    let pairs ← createEntries entries
    return (key, value) :: pairs

end

/-! ## A given kind -/

/-- An item belongs to a kind. -/
def Kind.admits (k : Kind) (x : Item) : Bool :=
  match k with
  | .any => true
  | .int => x.kind = .unsigned || x.kind = .negative
  | .special => x.kind.majorType? = some 7
  | .bool => x.kind = .trueValue || x.kind = .falseValue
  | .float => x.kind = .half || x.kind = .single || x.kind = .double
  | k => x.kind = k

/-- An item, if it belongs to a kind. -/
def accept (k : Kind) (x : Item) : Except CreateError Item :=
  if k.admits x then .ok x else .error (.wrongItem x.kind k)

/-- An item of a kind from a host value. -/
def create (k : Kind) (v : HostValue) : Except CreateError Item :=
  match k, v with
  | k, .item x => accept k x
  | .any, v => createAny v
  | .special, .null | .special, .bool _ | .special, .float _ => createAny v
  | .int, .int i | .unsigned, .int i | .negative, .int i => do
    let _ ← k.resolveInt i
    createInt i
  | .bytes, .bytes _ | .text, .text _ | .array, .list _ | .map, .map _ | .tag, .tagged .. | .bool, .bool _
  | .trueValue, .bool true | .falseValue, .bool false | .null, .null => createAny v
  | .undefined, .null => .ok .undefined
  | .float, .float x => .ok (narrowest x)
  | .float, .int i => .ok (narrowest (.ofInt i))
  | .half, .float x => .ok (.half x.toBinary16)
  | .half, .int i => .ok (.half (Binary64.ofInt i).toBinary16)
  | .single, .float x => .ok (.single x.toBinary32)
  | .single, .int i => .ok (.single (.ofInt i))
  | .double, .float x => .ok (.double x)
  | .double, .int i => .ok (.double (.ofInt i))
  | k, v => .error (.unsupported v k)

end Cbor
