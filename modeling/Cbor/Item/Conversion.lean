import Cbor.Item.Basic

/-!
# Items of host types

`ToItem α` gives the item of a value of `α`; numbers of every width become integers by their sign, absence becomes
null.
-/

namespace Cbor

/-- Types whose values have an item. -/
class ToItem (α : Type) where
  toItem : α → Item

export ToItem (toItem)

/-! ## Integers -/

instance : ToItem UInt64 := ⟨.unsigned⟩
instance : ToItem UInt32 := ⟨fun v => .unsigned v.toUInt64⟩
instance : ToItem UInt16 := ⟨fun v => .unsigned v.toUInt64⟩
instance : ToItem UInt8 := ⟨fun v => .unsigned v.toUInt64⟩
instance : ToItem USize := ⟨fun v => .unsigned v.toUInt64⟩

instance : ToItem Int64 := ⟨fun v => if 0 ≤ v then .unsigned v.toUInt64 else .negative (-1 - v).toUInt64⟩
instance : ToItem Int32 := ⟨fun v => toItem v.toInt64⟩
instance : ToItem Int16 := ⟨fun v => toItem v.toInt64⟩
instance : ToItem Int8 := ⟨fun v => toItem v.toInt64⟩
instance : ToItem ISize := ⟨fun v => toItem v.toInt64⟩

/-! ## Other types -/

instance : ToItem Item := ⟨id⟩
instance : ToItem Bool := ⟨.bool⟩
instance : ToItem String := ⟨.text⟩
instance : ToItem Bytes := ⟨.bytes⟩
instance : ToItem Simple := ⟨.simple⟩
instance : ToItem Binary16 := ⟨.half⟩
instance : ToItem Binary32 := ⟨.single⟩
instance : ToItem Binary64 := ⟨.double⟩

instance {α : Type} [ToItem α] : ToItem (Option α) := ⟨fun x => x.elim .null toItem⟩

/-- The array of the items of a list. -/
def Item.ofList {α : Type} [ToItem α] (xs : List α) : Item := .array (xs.map toItem) false

end Cbor
