import Cbor.Item.Equality

/-!
# Host values

A host value is what a program outside holds before it becomes an item: its numbers are integers of any size or
64-bit floats, its maps may repeat keys, and it may hold items.

- `HostValue.same`, equality in which floats compare as numbers;
- `ToHost α`, the host value of a value of `α`.
-/

namespace Cbor

/-- A value that is to become an item. -/
inductive HostValue where
  | null
  | bool (value : Bool)
  | int (value : Int)
  | float (value : Binary64)
  | text (content : String)
  | bytes (content : Bytes)
  | list (elements : List HostValue)
  | map (entries : List (HostValue × HostValue))
  | tagged (tag : UInt64) (content : HostValue)
  | item (item : Item)
deriving Inhabited

namespace HostValue

/-! ## Equality -/

mutual

/-- Two values agree, floats as numbers. -/
def same : HostValue → HostValue → Bool
  | .null, .null => true
  | .bool a, .bool b => a = b
  | .int a, .int b => a = b
  | .float a, .float b => a.same b
  | .text a, .text b => a = b
  | .bytes a, .bytes b => a = b
  | .list a, .list b => sameElements a b
  | .map a, .map b => sameEntries a b
  | .tagged tag a, .tagged tag' b => tag = tag' && same a b
  | .item a, .item b => a = b
  | _, _ => false

/-- Two lists agree element by element. -/
def sameElements : List HostValue → List HostValue → Bool
  | [], [] => true
  | a :: as, b :: bs => same a b && sameElements as bs
  | _, _ => false

/-- Two lists agree entry by entry. -/
def sameEntries : List (HostValue × HostValue) → List (HostValue × HostValue) → Bool
  | [], [] => true
  | (k, v) :: as, (k', v') :: bs => same k k' && same v v' && sameEntries as bs
  | _, _ => false

end

end HostValue

/-! ## Host values of other types -/

/-- Types whose values have a host value. -/
class ToHost (α : Type) where
  toHost : α → HostValue

export ToHost (toHost)

instance : ToHost UInt64 := ⟨fun v => .int v.toNat⟩
instance : ToHost UInt32 := ⟨fun v => .int v.toNat⟩
instance : ToHost UInt16 := ⟨fun v => .int v.toNat⟩
instance : ToHost UInt8 := ⟨fun v => .int v.toNat⟩
instance : ToHost USize := ⟨fun v => .int v.toNat⟩

instance : ToHost Int64 := ⟨fun v => .int v.toInt⟩
instance : ToHost Int32 := ⟨fun v => .int v.toInt⟩
instance : ToHost Int16 := ⟨fun v => .int v.toInt⟩
instance : ToHost Int8 := ⟨fun v => .int v.toInt⟩
instance : ToHost ISize := ⟨fun v => .int v.toInt⟩

instance : ToHost HostValue := ⟨id⟩
instance : ToHost Bool := ⟨.bool⟩
instance : ToHost String := ⟨.text⟩
instance : ToHost Bytes := ⟨.bytes⟩
instance : ToHost Item := ⟨.item⟩
instance : ToHost Binary64 := ⟨.float⟩
instance : ToHost Binary32 := ⟨fun x => .float x.toBinary64⟩
instance : ToHost (List HostValue) := ⟨.list⟩

instance {α : Type} [ToHost α] : ToHost (Option α) := ⟨fun x => x.elim .null toHost⟩

end Cbor
