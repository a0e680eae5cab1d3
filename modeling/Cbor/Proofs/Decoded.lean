import Cbor.Proofs.Grammar
import Cbor.Proofs.WellFormed

/-!
# What the grammar encodes

An item with an encoding is well-formed (`Encodes.wellFormed`) and nests no deeper than the limit
(`Encodes.nesting_le`), also where a map repeats keys and only some of its pairs stay.
-/

namespace Cbor

theorem EncodesSpecial.wellFormed {info : UInt8} {b : Bytes} {x : Item} (h : EncodesSpecial info b x) :
    x.WellFormed := by
  cases h <;> trivial

theorem EncodesSpecial.nesting_eq {info : UInt8} {b : Bytes} {x : Item} (h : EncodesSpecial info b x) :
    x.nesting = 0 := by
  cases h <;> rfl

namespace Item

/-- The map of well-formed pairs is well-formed, whatever the pairs. -/
theorem wellFormed_ofEntries {entries : List (Item × Item)} (h : WellFormedEntries entries) (indefinite : Bool) :
    (ofEntries entries indefinite).WellFormed := by
  rw [ofEntries_eq]
  refine ⟨nodup_putAll entries List.nodup_nil, wellFormedEntries_iff.mpr ?_⟩
  exact forall_mem_putAll (P := WellFormed) (Q := WellFormed) entries (wellFormedEntries_iff.mp h) (by simp)

theorem nesting_ofEntries_le {entries : List (Item × Item)} {d : Nat} (h : nestingEntries entries ≤ d)
    (indefinite : Bool) : (ofEntries entries indefinite).nesting ≤ d + 1 := by
  rw [ofEntries_eq]
  refine Nat.succ_le_succ (nestingEntries_le_iff.mpr ?_)
  exact forall_mem_putAll (P := (·.nesting ≤ d)) (Q := (·.nesting ≤ d)) (l := []) entries
    (nestingEntries_le_iff.mp h) (by simp)

end Item

mutual

/-- Only well-formed items have encodings. -/
theorem Encodes.wellFormed : ∀ {D : Nat} {b : Bytes} {x : Item}, Encodes D b x → x.WellFormed
  | _, _, _, .unsigned _ | _, _, _, .negative _ | _, _, _, .bytes _ | _, _, _, .byteChunks _ | _, _, _, .text _
  | _, _, _, .textChunks _ => trivial
  | _, _, _, .array _ _ h | _, _, _, .arrayToBreak h => EncodesItems.wellFormed h
  | _, _, _, .map _ _ h | _, _, _, .mapToBreak h => Item.wellFormed_ofEntries (EncodesEntries.wellFormed h) _
  | _, _, _, .tag _ h => (Encodes.wellFormed h).ofTag _
  | _, _, _, .special h => h.wellFormed

theorem EncodesItems.wellFormed : ∀ {D : Nat} {b : Bytes} {items : List Item}, EncodesItems D b items →
    Item.WellFormedItems items
  | _, _, _, .nil => trivial
  | _, _, _, .cons h hs => ⟨Encodes.wellFormed h, EncodesItems.wellFormed hs⟩

theorem EncodesEntries.wellFormed : ∀ {D : Nat} {b : Bytes} {entries : List (Item × Item)},
    EncodesEntries D b entries → Item.WellFormedEntries entries
  | _, _, _, .nil => trivial
  | _, _, _, .cons hk hv hs => ⟨Encodes.wellFormed hk, Encodes.wellFormed hv, EncodesEntries.wellFormed hs⟩

end

mutual

/-- An item nests no deeper than the limit under which it has an encoding. -/
theorem Encodes.nesting_le : ∀ {D : Nat} {b : Bytes} {x : Item}, Encodes D b x → x.nesting ≤ D
  | _, _, _, .unsigned _ | _, _, _, .negative _ | _, _, _, .bytes _ | _, _, _, .byteChunks _ | _, _, _, .text _
  | _, _, _, .textChunks _ => Nat.zero_le _
  | _, _, _, .array _ _ h | _, _, _, .arrayToBreak h => Nat.succ_le_succ (EncodesItems.nesting_le h)
  | _, _, _, .map _ _ h | _, _, _, .mapToBreak h => Item.nesting_ofEntries_le (EncodesEntries.nesting_le h) _
  | _, _, _, .tag _ h => by
    rw [Item.nesting_ofTag]
    exact Nat.succ_le_succ (Encodes.nesting_le h)
  | _, _, _, .special h => h.nesting_eq ▸ Nat.zero_le _

theorem EncodesItems.nesting_le : ∀ {D : Nat} {b : Bytes} {items : List Item}, EncodesItems D b items →
    Item.nestingItems items ≤ D
  | _, _, _, .nil => Nat.zero_le _
  | _, _, _, .cons h hs => Nat.max_le.mpr ⟨Encodes.nesting_le h, EncodesItems.nesting_le hs⟩

theorem EncodesEntries.nesting_le : ∀ {D : Nat} {b : Bytes} {entries : List (Item × Item)},
    EncodesEntries D b entries → Item.nestingEntries entries ≤ D
  | _, _, _, .nil => Nat.zero_le _
  | _, _, _, .cons hk hv hs =>
    Nat.max_le.mpr ⟨Nat.max_le.mpr ⟨Encodes.nesting_le hk, Encodes.nesting_le hv⟩, EncodesEntries.nesting_le hs⟩

end

end Cbor
