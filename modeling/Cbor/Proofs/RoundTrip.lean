import Cbor.Proofs.Agreement
import Cbor.Proofs.Splice

/-!
# Round trip

A well-formed item has no encoded data in it and is its own normal form (`Item.WellFormed.spliceable`,
`Item.WellFormed.normal_eq`). So its encoding is one of its encodings by the grammar (`Item.WellFormed.encodes`), under
the limit of its own nesting and under no smaller one, and decoding gives it back whatever follows.
-/

namespace Cbor

namespace Item

/-! ## Well-formed items are their own normal forms -/

mutual

theorem WellFormed.spliceable : ∀ {x : Item}, x.WellFormed → x.Spliceable
  | .array _ _, h => WellFormedItems.spliceable h
  | .map _ _, h => WellFormedEntries.spliceable h.2
  | .tagged _ _, h => (WellFormed.spliceable h.2 :)
  | .epochTime content, h => by
    rw [WellFormed] at h
    cases content <;> trivial
  | .unsigned _, _ | .negative _, _ | .bytes _, _ | .byteChunks _, _ | .text _, _ | .textChunks _, _ | .dateTime _, _
  | .encodedCbor _, _ | .fullDate _, _ | .bool _, _ | .null, _ | .undefined, _ | .simple _, _ | .half _, _
  | .single _, _ | .double _, _ => trivial

theorem WellFormedItems.spliceable : ∀ {items : List Item}, WellFormedItems items → SpliceableItems items
  | [], _ => trivial
  | _ :: _, h => ⟨WellFormed.spliceable h.1, WellFormedItems.spliceable h.2⟩

theorem WellFormedEntries.spliceable : ∀ {entries : List (Item × Item)}, WellFormedEntries entries →
    SpliceableEntries entries
  | [], _ => trivial
  | (_, _) :: _, h =>
    ⟨WellFormed.spliceable h.1, WellFormed.spliceable h.2.1, WellFormedEntries.spliceable h.2.2⟩

end

mutual

theorem WellFormed.normal_eq : ∀ {x : Item}, x.WellFormed → x.normal = x
  | .array _ _, h => by rw [normal, WellFormedItems.normalItems_eq h]
  | .map entries indefinite, h => by
    have hp : putAll [] entries = entries := putAll_of_nodup (l := []) h.1
    rw [normal, WellFormedEntries.normalEntries_eq h.2, ofEntries_eq, hp]
  | .tagged _ _, h => by rw [normal, WellFormed.normal_eq h.2, h.1]
  | .epochTime content, h => by
    rw [WellFormed] at h
    cases content <;> first | rfl | cases h
  | .unsigned _, _ | .negative _, _ | .bytes _, _ | .byteChunks _, _ | .text _, _ | .textChunks _, _ | .dateTime _, _
  | .encodedCbor _, _ | .fullDate _, _ | .bool _, _ | .null, _ | .undefined, _ | .simple _, _ | .half _, _
  | .single _, _ | .double _, _ => rfl

theorem WellFormedItems.normalItems_eq : ∀ {items : List Item}, WellFormedItems items → normalItems items = items
  | [], _ => rfl
  | _ :: _, h => by rw [normalItems, WellFormed.normal_eq h.1, WellFormedItems.normalItems_eq h.2]

theorem WellFormedEntries.normalEntries_eq : ∀ {entries : List (Item × Item)}, WellFormedEntries entries →
    normalEntries entries = entries
  | [], _ => rfl
  | (_, _) :: _, h => by
    rw [normalEntries, WellFormed.normal_eq h.1, WellFormed.normal_eq h.2.1, WellFormedEntries.normalEntries_eq h.2.2]

end

/-- The encoding of a well-formed item is one of its encodings. -/
theorem WellFormed.encodes {x : Item} (h : x.WellFormed) (hl : x.encode.length < 2 ^ 64) :
    Encodes x.nesting x.encode x := by
  have he := h.spliceable.encodes hl
  rwa [h.normal_eq] at he

end Item

/-! ## Decoding -/

theorem decodeWithDepth_encode {x : Item} (hx : x.WellFormed) {s : Bytes} (hl : (x.encode ++ s).length < 2 ^ 64)
    {D : Nat} (hD : x.nesting ≤ D) : decodeWithDepth (x.encode ++ s) 0 D = .ok (x, x.encode.length) := by
  rw [List.length_append] at hl
  exact decodeWithDepth_ok_iff.mpr ⟨x.encode, s, rfl, (Nat.zero_add _).symm, (hx.encodes (by omega)).mono hD⟩

/-- No limit below its nesting admits an item. -/
theorem decodeWithDepth_encode_tooDeep {x : Item} (hx : x.WellFormed) {s : Bytes}
    (hl : (x.encode ++ s).length < 2 ^ 64) {D : Nat} (hD : D < x.nesting) :
    decodeWithDepth (x.encode ++ s) 0 D = .error .tooDeep := by
  rcases decodeWithDepth_of_le (Nat.le_of_lt hD) (x.encode ++ s) 0 with h | h
  · exact h
  · -- The result under the limit of the nesting itself would be a result under `D` too.
    rw [decodeWithDepth_encode hx hl (Nat.le_refl _)] at h
    obtain ⟨b, rest, -, -, he⟩ := decodeWithDepth_ok_iff.mp h
    exact absurd he.nesting_le (Nat.not_le.mpr hD)

theorem decode_encode {x : Item} (hx : x.WellFormed) (hl : x.encode.length < 2 ^ 64) (hD : x.nesting ≤ maxDepth) :
    decode x.encode = .ok x := by
  have h := decodeWithDepth_encode hx (s := []) (by rwa [List.append_nil]) hD
  rw [List.append_nil] at h
  exact decode_eq_ok_iff.mpr h

/-- **Decoding gives an item back from its encoding**, whatever follows, exactly if the limit is no less than the
nesting of the item. -/
theorem decodeWithDepth_encode_append {x : Item} (hx : x.WellFormed) {s : Bytes}
    (hl : (x.encode ++ s).length < 2 ^ 63) :
    (∀ D, decodeWithDepth (x.encode ++ s) 0 D =
      if x.nesting ≤ D then .ok (x, x.encode.length) else .error .tooDeep) ∧
    (x.nesting ≤ maxDepth → decode x.encode = .ok x) := by
  have hl' : (x.encode ++ s).length < 2 ^ 64 := Nat.lt_trans hl (by decide)
  constructor
  · intro D
    split
    · rename_i hD
      exact decodeWithDepth_encode hx hl' hD
    · rename_i hD
      exact decodeWithDepth_encode_tooDeep hx hl' (Nat.not_le.mp hD)
  · intro hD
    rw [List.length_append] at hl'
    exact decode_encode hx (by omega) hD

/-- A map that nests four deep, with a float that is not a number for a key and chunks in an open array. -/
def Item.nestedMap : Item :=
  .map [(.half ⟨0x7E01⟩, .tagged 32 (.array [.epochTime (.negative 5), .byteChunks [[1], [2, 3]]] true)),
    (.bool true, .encodedCbor [0xF6])] false

theorem decodeWithDepth_encode_nestedMap :
    Item.nestedMap.WellFormed ∧ (Item.nestedMap.encode ++ [0xFF]).length < 2 ^ 63 ∧
      decodeWithDepth (Item.nestedMap.encode ++ [0xFF]) 0 4 = .ok (Item.nestedMap, 22) ∧
      decodeWithDepth (Item.nestedMap.encode ++ [0xFF]) 0 3 = .error .tooDeep ∧
      decode Item.nestedMap.encode = .ok Item.nestedMap := by
  have hw : Item.nestedMap.WellFormed :=
    ⟨by decide, trivial, ⟨rfl, rfl, trivial, trivial⟩, trivial, trivial, trivial⟩
  have hl : (Item.nestedMap.encode ++ [0xFF]).length < 2 ^ 63 := by decide
  have h := decodeWithDepth_encode_append hw hl
  exact ⟨hw, hl, (h.1 4).trans (if_pos (by decide)), (h.1 3).trans (if_neg (by decide)), h.2 (by decide)⟩

end Cbor
