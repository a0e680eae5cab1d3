import Cbor.Json.Projection
import Cbor.Proofs.Outcome
import Cbor.Proofs.Scan

/-!
# The JSON view of an item

A view is taken of the value positions of an item: of itself, of the elements of arrays, of the values of entries and
of the content of times from the epoch, but of no key.

- An item has a view unless there is an obstacle at one of its value positions, and the first of them in the order of
  the document is the error (`Item.failure?_toJson`).
- The views of elements and of entries are one each, in order (`Item.toJsonItems_eq_ok_iff`,
  `Item.toJsonEntries_eq_ok_iff`).
- Members in any order become an object in which each name stands once, with its last value
  (`Json.ofMembers_eq_object`), and so the last of the entries whose keys stand for one string counts
  (`Item.toJson_first_obstacle`).
-/

namespace Cbor

open Outcome (failure? failure?_map failure?_bind failure?_eq_some_iff failure?_eq_none_iff bind_eq_ok_iff
  pure_eq_ok_iff mapM_eq_ok_iff)

namespace Item

/-! ## Value positions -/

mutual

/-- The value positions of an item in the order of the document, the item itself first. -/
def positions : Item → List Item
  | .array items indefinite => .array items indefinite :: positionsOfItems items
  | .map entries indefinite => .map entries indefinite :: positionsOfEntries entries
  | .epochTime content => .epochTime content :: positions content
  | x => [x]

/-- The value positions of items. -/
def positionsOfItems : List Item → List Item
  | [] => []
  | item :: items => positions item ++ positionsOfItems items

/-- The value positions of the values of entries. -/
def positionsOfEntries : List (Item × Item) → List Item
  | [] => []
  | (_, value) :: entries => positions value ++ positionsOfEntries entries

end

/-- What keeps an item by itself from having a view: it is of a type that has none, or an integer below the least
signed 64-bit number. -/
def obstacle? : Item → Option ProjectionError
  | .tagged .. => some .tag
  | .encodedCbor _ => some .encodedCbor
  | .simple _ => some .simple
  | .raw _ => some .raw
  | .negative m => if -1 - (m.toNat : Int) < -0x8000000000000000 then some .outOfRange else none
  | _ => none

theorem failure?_toJson_negative (m : UInt64) : failure? (toJson (.negative m)) = obstacle? (.negative m) := by
  rw [toJson, obstacle?, Int64.toInt_maxValue]
  by_cases h : (m.toNat : Int) ≤ 2 ^ 63 - 1
  · rw [if_pos h, if_neg (by omega)]
    rfl
  · rw [if_neg h, if_pos (by omega)]
    rfl

mutual

/-- **The first obstacle at a value position is the error.** -/
theorem failure?_toJson : ∀ x : Item, failure? x.toJson = x.positions.findSome? obstacle?
  | .array items _ => (failure?_map _ _).trans (failure?_toJsonItems items)
  | .map entries _ => (failure?_map _ _).trans (failure?_toJsonEntries entries)
  | .epochTime content => failure?_toJson content
  | .negative m => by
    rw [failure?_toJson_negative, positions, List.findSome?_singleton]
    all_goals simp
  | .tagged .. | .encodedCbor _ | .simple _ | .raw _ | .unsigned _ | .bytes _ | .byteChunks _ | .text _
  | .textChunks _ | .dateTime _ | .fullDate _ | .bool _ | .null | .undefined | .half _ | .single _ | .double _ => rfl

theorem failure?_toJsonItems : ∀ items : List Item,
    failure? (toJsonItems items) = (positionsOfItems items).findSome? obstacle?
  | [] => rfl
  | item :: items => by
    rw [toJsonItems, positionsOfItems, List.findSome?_append, ← failure?_toJson item, ← failure?_toJsonItems items]
    exact failure?_bind _ fun value => failure?_map _ _

theorem failure?_toJsonEntries : ∀ entries : List (Item × Item),
    failure? (toJsonEntries entries) = (positionsOfEntries entries).findSome? obstacle?
  | [] => rfl
  | (key, value) :: entries => by
    rw [toJsonEntries, positionsOfEntries, List.findSome?_append, ← failure?_toJson value,
      ← failure?_toJsonEntries entries]
    exact failure?_bind _ fun value => failure?_map _ _

end

/-! ## Views of elements and values -/

theorem toJsonItems_eq_mapM (items : List Item) : toJsonItems items = items.mapM toJson := by
  induction items with
  | nil => rfl
  | cons x items ih =>
    rw [toJsonItems, List.mapM_cons, ih]

theorem toJsonEntries_eq_mapM (entries : List (Item × Item)) :
    toJsonEntries entries = entries.mapM fun e => e.2.toJson >>= fun v => pure (e.1.jsonKey, v) := by
  induction entries with
  | nil => rfl
  | cons e entries ih =>
    rw [toJsonEntries, List.mapM_cons, ih]
    simp only [bind_assoc, pure_bind]

theorem toJsonItems_eq_ok_iff {items : List Item} {values : List Json} :
    toJsonItems items = .ok values ↔ List.Forall₂ (fun x v => x.toJson = .ok v) items values := by
  rw [toJsonItems_eq_mapM, mapM_eq_ok_iff]

/-- A member has the name that its key stands for, and the view of its value. -/
def Shows (e : Item × Item) (m : String × Json) : Prop := m.1 = e.1.jsonKey ∧ e.2.toJson = .ok m.2

theorem toJsonEntries_eq_ok_iff {entries : List (Item × Item)} {members : List (String × Json)} :
    toJsonEntries entries = .ok members ↔ List.Forall₂ Shows entries members := by
  have hs (e : Item × Item) (m : String × Json) :
      (e.2.toJson >>= fun v => pure (e.1.jsonKey, v)) = .ok m ↔ Shows e m := by
    simp only [bind_eq_ok_iff, pure_eq_ok_iff]
    constructor
    · rintro ⟨v, hv, rfl⟩
      exact ⟨rfl, hv⟩
    · rintro ⟨hk, hv⟩
      exact ⟨m.2, hv, Prod.ext hk rfl⟩
  simp only [toJsonEntries_eq_mapM, mapM_eq_ok_iff, hs]

theorem toJson_array_eq_ok_iff {items : List Item} {indefinite : Bool} {j : Json} :
    (array items indefinite).toJson = .ok j ↔ ∃ values, toJsonItems items = .ok values ∧ j = .array values := by
  rw [toJson, bind_eq_ok_iff]
  simp only [pure_eq_ok_iff]

theorem toJson_map_eq_ok_iff {entries : List (Item × Item)} {indefinite : Bool} {j : Json} :
    (map entries indefinite).toJson = .ok j ↔
      ∃ members, toJsonEntries entries = .ok members ∧ j = .ofMembers members := by
  rw [toJson, bind_eq_ok_iff]
  simp only [pure_eq_ok_iff]

/-- Under a string stands the view of the first entry whose key stands for it. -/
theorem rel_find?_lookup {entries : List (Item × Item)} {members : List (String × Json)}
    (h : List.Forall₂ Shows entries members) (s : String) :
    Option.Rel (fun e v => e.2.toJson = .ok v) (entries.find? (·.1.jsonKey = s)) (members.lookup s) := by
  induction h with
  | nil => exact .none
  | @cons e m entries members hm _ ih =>
    rw [List.find?_cons, lookup_cons_ite, hm.1]
    by_cases hk : e.1.jsonKey = s
    · rw [decide_eq_true hk, if_pos hk.symm]
      exact .some hm.2
    · rw [decide_eq_false hk, if_neg (Ne.symm hk)]
      exact ih

end Item

/-! ## Objects -/

namespace Json

theorem lookup_setMember (key : String) (value : Json) (s : String) (members : List (String × Json)) :
    (setMember key value members).lookup s = if s = key then some value else members.lookup s := by
  induction members with
  | nil => exact lookup_cons_ite s key value []
  | cons m members ih =>
    obtain ⟨k, v⟩ := m
    rw [setMember]
    split
    · exact lookup_cons_ite s key value _
    · split
      · rename_i hk
        subst hk
        simp only [lookup_cons_ite]
        split <;> rfl
      · rename_i hk
        simp only [lookup_cons_ite, ih]
        by_cases hs : s = k
        · rw [if_pos hs, if_pos hs, if_neg fun he => hk (he.symm.trans hs)]
        · rw [if_neg hs, if_neg hs]

theorem keysOf_setMember_subset (key : String) (value : Json) : ∀ members : List (String × Json),
    ∀ k ∈ keysOf (setMember key value members), k = key ∨ k ∈ keysOf members
  | [], k, h => .inl (List.mem_singleton.mp h)
  | (k', v) :: members, k, h => by
    rw [setMember] at h
    split at h
    · exact List.mem_cons.mp h
    · split at h
      · rename_i hk
        subst hk
        exact .inr h
      · rcases List.mem_cons.mp h with rfl | h
        · exact .inr List.mem_cons_self
        · exact (keysOf_setMember_subset key value members k h).imp_right (List.mem_cons_of_mem _)

/-- Setting a member keeps the names in strict order. -/
theorem pairwise_setMember (key : String) (value : Json) : ∀ {members : List (String × Json)},
    (keysOf members).Pairwise (· < ·) → (keysOf (setMember key value members)).Pairwise (· < ·)
  | [], _ => List.pairwise_singleton _ _
  | (k, v) :: members, h => by
    obtain ⟨hk, hm⟩ := List.pairwise_cons.mp h
    rw [setMember]
    split
    · rename_i hlt
      refine List.pairwise_cons.mpr ⟨fun k' hk' => ?_, h⟩
      rcases List.mem_cons.mp hk' with rfl | hk'
      · exact hlt
      · exact String.lt_trans hlt (hk k' hk')
    · rename_i hge
      split
      · rename_i he
        subst he
        exact h
      · rename_i hne
        refine List.pairwise_cons.mpr ⟨fun k' hk' => ?_, pairwise_setMember key value hm⟩
        rcases keysOf_setMember_subset key value members k' hk' with rfl | hk'
        · refine Decidable.not_not.mp fun hn => hne ?_
          exact String.le_antisymm (String.not_lt.mp hn) (String.not_lt.mp hge)
        · exact hk k' hk'

theorem ofMembers_eq_object (members : List (String × Json)) :
    ∃ sorted, ofMembers members = .object sorted ∧ (keysOf sorted).Pairwise (· < ·) ∧
      ∀ s, sorted.lookup s = members.reverse.lookup s := by
  refine ⟨_, rfl, ?_, fun s => ?_⟩
  · exact List.foldlRecOn (motive := fun sorted => (keysOf sorted).Pairwise (· < ·)) members _ List.Pairwise.nil
      fun _ h m _ => pairwise_setMember m.1 m.2 h
  · exact (lookup_foldl (fun key value => lookup_setMember key value s) members []).trans Option.or_none

end Json

/-! ## The view of any item -/

namespace Item

theorem jsonKey_of_kind_ne {key : Item} (h : key.kind ≠ .text) : key.jsonKey = key.diagnostic .compact := by
  unfold jsonKey asText
  split
  · rename_i he
    split at he
    · exact absurd rfl h
    · exact absurd rfl h
    · cases he
  · rfl

/-- **Every item has a view, or the first obstacle to it is the error.** Obstacles stand at value positions only. The
view of an array has the views of its elements, that of a map under each string that a key stands for the view of the
last such entry, and nothing under any other string. -/
theorem toJson_first_obstacle :
    (∀ (x : Item) e, x.toJson = .error e ↔ x.positions.findSome? obstacle? = some e) ∧
    (∀ x : Item, (∃ j, x.toJson = .ok j) ↔ ∀ y ∈ x.positions, y.obstacle? = none) ∧
    (∀ items indefinite j, (array items indefinite).toJson = .ok j →
      ∃ values, j = .array values ∧ List.Forall₂ (fun x v => x.toJson = .ok v) items values) ∧
    (∀ entries indefinite j, (map entries indefinite).toJson = .ok j →
      ∃ members, j = .object members ∧ (keysOf members).Pairwise (· < ·) ∧ ∀ s,
        Option.Rel (fun e v => e.2.toJson = .ok v) (entries.reverse.find? (·.1.jsonKey = s)) (members.lookup s)) ∧
    (∀ s, (text s).jsonKey = s) ∧ (∀ chunks, (textChunks chunks).jsonKey = String.join chunks) ∧
    ∀ key : Item, key.kind ≠ .text → key.jsonKey = key.diagnostic .compact := by
  refine ⟨fun x e => ?_, fun x => ?_, fun items indefinite j h => ?_, fun entries indefinite j h => ?_,
    fun _ => rfl, fun _ => rfl, fun _ => jsonKey_of_kind_ne⟩
  · rw [← failure?_toJson, failure?_eq_some_iff]
  · rw [← failure?_eq_none_iff, failure?_toJson, List.findSome?_eq_none_iff]
  · obtain ⟨values, hv, rfl⟩ := toJson_array_eq_ok_iff.mp h
    exact ⟨values, rfl, toJsonItems_eq_ok_iff.mp hv⟩
  · obtain ⟨members, hm, rfl⟩ := toJson_map_eq_ok_iff.mp h
    obtain ⟨sorted, hs, ho, hl⟩ := Json.ofMembers_eq_object members
    refine ⟨sorted, hs, ho, fun s => ?_⟩
    rw [hl]
    exact rel_find?_lookup (List.rel_reverse (toJsonEntries_eq_ok_iff.mp hm)) s

/-- Two keys that stand for one string, the number 1 and its numeral in pieces, around one that is encoded data. -/
def sameKeys : List (Item × Item) :=
  [(.unsigned 1, .array [.undefined] true), (.raw [], .null), (.textChunks ["", "1"], .negative 0)]

theorem toJson_first_obstacle_sameKeys :
    (∃ members, (map sameKeys false).toJson = .ok (.object members) ∧
      members.lookup "1" = some (.number (.negative (-1)))) ∧
    (map [(.raw [0xFF], .epochTime (.array [.encodedCbor [], .raw []] false)), (.null, .raw [])] false).toJson =
      .error .encodedCbor := by
  obtain ⟨he, hk, -, hm, -⟩ := toJson_first_obstacle
  refine ⟨?_, (he _ _).mpr rfl⟩
  obtain ⟨j, hj⟩ := (hk (map sameKeys false)).mpr (by decide)
  obtain ⟨members, rfl, -, hl⟩ := hm _ _ j hj
  have hf : sameKeys.reverse.find? (·.1.jsonKey = "1") = some (.textChunks ["", "1"], .negative 0) := by decide
  have hr := hl "1"
  rw [hf] at hr
  cases hv : members.lookup "1" with
  | none =>
    rw [hv] at hr
    cases hr
  | some v =>
    rw [hv] at hr
    cases hr with
    | some h =>
      cases h
      exact ⟨members, hj, hv⟩

end Item

end Cbor
