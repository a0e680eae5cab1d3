import Cbor.Factory
import Cbor.Proofs.Outcome
import Cbor.Proofs.RoundTrip
import Cbor.Proofs.Scan
import Mathlib.Logic.Relation

/-!
# What is made of host values

- `HostValue.ints` and `HostValue.items`, the integers and the items that a host value holds at any depth. Nothing but
  an integer out of range keeps a host value from becoming the item that it suggests (`createAny_eq_error_iff`), and the
  item is well-formed if those are that it is made of (`wellFormed_createAny`).
- `Kind.Covers`, the kinds that a kind leads to through aliases: those of the items that it accepts
  (`Kind.admits_iff`).
- `Creates k v`: what can come of a host value under a kind. Under each kind it is an item that the kind accepts, or an
  error (`creates`).
- The factory for any kind refuses only integers out of range, and what it makes can be decoded (`create_any_total`);
  that of each kind makes items of the kind, and takes them for themselves (`create_sound`).
-/

namespace Cbor

open Outcome (failure? failure?_map failure?_bind failure?_eq_some_iff failure?_eq_none_iff bind_eq_ok_iff
  pure_eq_ok_iff mapM_eq_ok_iff)

/-! ## What a host value holds -/

namespace HostValue

mutual

/-- The integers that a host value holds, but for those of its items. -/
def ints : HostValue → List Int
  | .int i => [i]
  | .list elements => intsOfElements elements
  | .map entries => intsOfEntries entries
  | .tagged _ content => ints content
  | _ => []

/-- The integers of the elements of a list. -/
def intsOfElements : List HostValue → List Int
  | [] => []
  | element :: elements => ints element ++ intsOfElements elements

/-- The integers of the keys and values of a map. -/
def intsOfEntries : List (HostValue × HostValue) → List Int
  | [] => []
  | (key, value) :: entries => ints key ++ (ints value ++ intsOfEntries entries)

end

mutual

/-- The items that a host value holds. -/
def items : HostValue → List Item
  | .list elements => itemsOfElements elements
  | .map entries => itemsOfEntries entries
  | .tagged _ content => items content
  | .item x => [x]
  | _ => []

/-- The items of the elements of a list. -/
def itemsOfElements : List HostValue → List Item
  | [] => []
  | element :: elements => items element ++ itemsOfElements elements

/-- The items of the keys and values of a map. -/
def itemsOfEntries : List (HostValue × HostValue) → List Item
  | [] => []
  | (key, value) :: entries => items key ++ (items value ++ itemsOfEntries entries)

end

/-- The kind that a host value suggests by its shape. -/
def suggested : HostValue → Kind
  | .null => .null
  | .bool _ => .bool
  | .int _ => .int
  | .float _ => .double
  | .text _ => .text
  | .bytes _ => .bytes
  | .list _ => .array
  | .map _ => .map
  | .tagged .. => .tag
  | .item _ => .any

end HostValue

/-! ## Integers in range -/

/-- An integer of 64 bits and a sign. -/
def IntInRange (i : Int) : Prop := -0x10000000000000000 ≤ i ∧ i ≤ 0xFFFFFFFFFFFFFFFF

instance (i : Int) : Decidable (IntInRange i) := inferInstanceAs (Decidable (_ ∧ _))

/-- The error of an integer that no item holds. -/
def overflow? (i : Int) : Option CreateError := if IntInRange i then none else some .outOfRange

theorem overflow?_eq_none_iff {i : Int} : overflow? i = none ↔ IntInRange i := by
  unfold overflow?
  split <;> simp [*]

theorem overflow?_eq_some_iff {i : Int} {e : CreateError} : overflow? i = some e ↔ ¬IntInRange i ∧ e = .outOfRange := by
  unfold overflow?
  split <;> simp [*, eq_comm]

/-- The item of an integer holds it, by its sign; there is one for the integers in range. -/
theorem createInt_cases (i : Int) :
    (∃ n : UInt64, i = n.toNat ∧ createInt i = .ok (.unsigned n)) ∨
    (∃ n : UInt64, i = -1 - n.toNat ∧ createInt i = .ok (.negative n)) ∨
    ¬IntInRange i ∧ createInt i = .error .outOfRange := by
  unfold createInt IntInRange
  cases i with
  | ofNat n =>
    by_cases hn : n < UInt64.size
    · have ho : Item.ofInt? (.ofNat n) = some (.unsigned (.ofNat n)) := if_pos hn
      rw [ho]
      exact .inl ⟨_, congrArg Int.ofNat (UInt64.toNat_ofNat_of_lt' hn).symm, rfl⟩
    · have ho : Item.ofInt? (.ofNat n) = none := if_neg hn
      rw [UInt64.size] at hn
      rw [ho, Int.ofNat_eq_natCast]
      exact .inr (.inr ⟨by omega, rfl⟩)
  | negSucc n =>
    by_cases hn : n < UInt64.size
    · have ho : Item.ofInt? (.negSucc n) = some (.negative (.ofNat n)) := if_pos hn
      have ht : (UInt64.ofNat n).toNat = n := UInt64.toNat_ofNat_of_lt' hn
      rw [ho]
      exact .inr (.inl ⟨_, by omega, rfl⟩)
    · have ho : Item.ofInt? (.negSucc n) = none := if_neg hn
      rw [UInt64.size] at hn
      rw [ho]
      exact .inr (.inr ⟨by omega, rfl⟩)

theorem failure?_createInt (i : Int) : failure? (createInt i) = overflow? i := by
  rcases createInt_cases i with ⟨n, hi, hc⟩ | ⟨n, hi, hc⟩ | ⟨hi, hc⟩
  · have hn := n.toNat_lt
    rw [hc, overflow?_eq_none_iff.mpr ⟨by omega, by omega⟩]
    rfl
  · have hn := n.toNat_lt
    rw [hc, overflow?_eq_none_iff.mpr ⟨by omega, by omega⟩]
    rfl
  · rw [hc, overflow?_eq_some_iff.mpr ⟨hi, rfl⟩]
    rfl

/-! ## Any kind -/

mutual

/-- **Only an integer out of range has no item.** -/
theorem failure?_createAny : ∀ v : HostValue, failure? (createAny v) = v.ints.findSome? overflow?
  | .int i => by
    rw [createAny, failure?_createInt, HostValue.ints, List.findSome?_singleton]
  | .list elements => (failure?_map _ _).trans (failure?_createElements elements)
  | .map entries => (failure?_map _ _).trans (failure?_createEntries entries)
  | .tagged _ content => (failure?_map _ _).trans (failure?_createAny content)
  | .null | .bool _ | .float _ | .text _ | .bytes _ | .item _ => rfl

theorem failure?_createElements : ∀ elements : List HostValue,
    failure? (createElements elements) = (HostValue.intsOfElements elements).findSome? overflow?
  | [] => rfl
  | element :: elements => by
    rw [createElements, HostValue.intsOfElements, List.findSome?_append, ← failure?_createAny element,
      ← failure?_createElements elements]
    exact failure?_bind _ fun item => failure?_map _ _

theorem failure?_createEntries : ∀ entries : List (HostValue × HostValue),
    failure? (createEntries entries) = (HostValue.intsOfEntries entries).findSome? overflow?
  | [] => rfl
  | (key, value) :: entries => by
    rw [createEntries, HostValue.intsOfEntries, List.findSome?_append, List.findSome?_append, ← failure?_createAny key,
      ← failure?_createAny value, ← failure?_createEntries entries]
    exact failure?_bind _ fun key => failure?_bind _ fun value => failure?_map _ _

end

theorem createAny_eq_error_iff {v : HostValue} {e : CreateError} :
    createAny v = .error e ↔ (∃ i ∈ v.ints, ¬IntInRange i) ∧ e = .outOfRange := by
  rw [← failure?_eq_some_iff, failure?_createAny]
  constructor
  · intro h
    obtain ⟨i, hi, he⟩ := List.exists_of_findSome?_eq_some h
    obtain ⟨hn, rfl⟩ := overflow?_eq_some_iff.mp he
    exact ⟨⟨i, hi, hn⟩, rfl⟩
  · rintro ⟨⟨i, hi, hn⟩, rfl⟩
    cases hf : v.ints.findSome? overflow? with
    | none => exact absurd (overflow?_eq_none_iff.mp (List.findSome?_eq_none_iff.mp hf i hi)) hn
    | some e =>
      obtain ⟨j, -, he⟩ := List.exists_of_findSome?_eq_some hf
      rw [(overflow?_eq_some_iff.mp he).2]

theorem exists_createAny_eq_ok_iff {v : HostValue} : (∃ x, createAny v = .ok x) ↔ ∀ i ∈ v.ints, IntInRange i := by
  rw [← failure?_eq_none_iff, failure?_createAny, List.findSome?_eq_none_iff]
  simp only [overflow?_eq_none_iff]

theorem createElements_eq_ok_iff {elements : List HostValue} {items : List Item} :
    createElements elements = .ok items ↔ List.Forall₂ (fun v x => createAny v = .ok x) elements items := by
  have hm : createElements elements = elements.mapM createAny := by
    induction elements with
    | nil => rfl
    | cons v elements ih => rw [createElements, List.mapM_cons, ih]
  rw [hm, mapM_eq_ok_iff]

theorem createEntries_eq_ok_iff {entries : List (HostValue × HostValue)} {pairs : List (Item × Item)} :
    createEntries entries = .ok pairs ↔
      List.Forall₂ (fun e p => createAny e.1 = .ok p.1 ∧ createAny e.2 = .ok p.2) entries pairs := by
  have hm : createEntries entries = entries.mapM fun e =>
      createAny e.1 >>= fun key => createAny e.2 >>= fun value => pure (key, value) := by
    induction entries with
    | nil => rfl
    | cons e entries ih =>
      rw [createEntries, List.mapM_cons, ih]
      simp only [bind_assoc, pure_bind]
  have hp (e : HostValue × HostValue) (p : Item × Item) :
      (createAny e.1 >>= fun key => createAny e.2 >>= fun value => pure (key, value)) = .ok p ↔
        createAny e.1 = .ok p.1 ∧ createAny e.2 = .ok p.2 := by
    simp only [bind_eq_ok_iff, pure_eq_ok_iff]
    constructor
    · rintro ⟨key, hk, value, hv, rfl⟩
      exact ⟨hk, hv⟩
    · rintro ⟨hk, hv⟩
      exact ⟨p.1, hk, p.2, hv, rfl⟩
  simp only [hm, mapM_eq_ok_iff, hp]

mutual

/-- What is made of well-formed items is well-formed. -/
theorem wellFormed_createAny : ∀ {v : HostValue} {x : Item}, createAny v = .ok x → (∀ y ∈ v.items, y.WellFormed) →
    x.WellFormed
  | .null, _, h, _ | .bool _, _, h, _ | .float _, _, h, _ | .text _, _, h, _ | .bytes _, _, h, _ => by
    cases h
    trivial
  | .int i, x, h, _ => by
    rw [createAny] at h
    rcases createInt_cases i with ⟨n, -, hc⟩ | ⟨n, -, hc⟩ | ⟨-, hc⟩ <;> rw [hc] at h <;> cases h <;> trivial
  | .list elements, x, h, hy => by
    rw [createAny, bind_eq_ok_iff] at h
    obtain ⟨items, hi, hx⟩ := h
    rw [pure_eq_ok_iff.mp hx]
    exact wellFormedItems_createElements hi hy
  | .map entries, x, h, hy => by
    rw [createAny, bind_eq_ok_iff] at h
    obtain ⟨pairs, hp, hx⟩ := h
    rw [pure_eq_ok_iff.mp hx]
    exact Item.wellFormed_ofEntries (wellFormedEntries_createEntries hp hy) false
  | .tagged tag content, x, h, hy => by
    rw [createAny, bind_eq_ok_iff] at h
    obtain ⟨c, hc, hx⟩ := h
    rw [pure_eq_ok_iff.mp hx]
    exact (wellFormed_createAny hc hy).ofTag tag
  | .item y, x, h, hy => by
    cases h
    exact hy y List.mem_cons_self

theorem wellFormedItems_createElements : ∀ {elements : List HostValue} {items : List Item},
    createElements elements = .ok items → (∀ y ∈ HostValue.itemsOfElements elements, y.WellFormed) →
    Item.WellFormedItems items
  | [], _, h, _ => by
    cases h
    trivial
  | element :: elements, _, h, hy => by
    rw [createElements_eq_ok_iff, List.forall₂_cons_left_iff] at h
    obtain ⟨x, items, hx, hi, rfl⟩ := h
    rw [HostValue.itemsOfElements, List.forall_mem_append] at hy
    exact ⟨wellFormed_createAny hx hy.1, wellFormedItems_createElements (createElements_eq_ok_iff.mpr hi) hy.2⟩

theorem wellFormedEntries_createEntries : ∀ {entries : List (HostValue × HostValue)} {pairs : List (Item × Item)},
    createEntries entries = .ok pairs → (∀ y ∈ HostValue.itemsOfEntries entries, y.WellFormed) →
    Item.WellFormedEntries pairs
  | [], _, h, _ => by
    cases h
    trivial
  | (key, value) :: entries, _, h, hy => by
    rw [createEntries_eq_ok_iff, List.forall₂_cons_left_iff] at h
    obtain ⟨p, pairs, ⟨hk, hv⟩, hp, rfl⟩ := h
    rw [HostValue.itemsOfEntries, List.forall_mem_append, List.forall_mem_append] at hy
    exact ⟨wellFormed_createAny hk hy.1, wellFormed_createAny hv hy.2.1,
      wellFormedEntries_createEntries (createEntries_eq_ok_iff.mpr hp) hy.2.2⟩

end

/-! ## The kinds of what is made -/

namespace Kind

/-- A kind covers the kinds that it leads to through aliases. -/
def Covers : Kind → Kind → Prop := Relation.ReflTransGen fun a b => b ∈ a.aliases

/-- Aliases nest no deeper than two levels. -/
theorem aliases_of_mem (k : Kind) : ∀ a ∈ k.aliases, ∀ b ∈ a.aliases, b.aliases = [] := by
  cases k <;> decide

theorem covers_iff {k k' : Kind} : k.Covers k' ↔ k' = k ∨ k' ∈ k.aliases ∨ ∃ a ∈ k.aliases, k' ∈ a.aliases := by
  constructor
  · intro h
    induction h with
    | refl => exact .inl rfl
    | @tail b c _ hc ih =>
      rcases ih with rfl | hb | ⟨a, ha, hb⟩
      · exact .inr (.inl hc)
      · exact .inr (.inr ⟨b, hb, hc⟩)
      · rw [aliases_of_mem k a ha b hb] at hc
        cases hc
  · rintro (rfl | h | ⟨a, ha, h⟩)
    · exact .refl
    · exact .single h
    · exact .tail (.single ha) h

/-- No item is of a kind that is merely a choice between others. -/
theorem kind_ne (x : Item) : x.kind ≠ .int ∧ x.kind ≠ .bool ∧ x.kind ≠ .float := by
  cases x with
  | bool b => cases b <;> simp [Item.kind]
  | _ => simp [Item.kind]

/-- An item is accepted under any kind and under the kinds that cover its own. -/
theorem admits_iff {k : Kind} {x : Item} : k.admits x = true ↔ k = .any ∨ k.Covers x.kind := by
  obtain ⟨hi, hb, hf⟩ := kind_ne x
  rw [covers_iff]
  cases k with
  | special =>
    simp only [admits]
    generalize x.kind = k at *
    cases k <;> simp [majorType?, aliases] at *
  | _ => simp [admits, aliases, hi, hb, hf, or_assoc]

end Kind

theorem kind_createInt {i : Int} {x : Item} (h : createInt i = .ok x) :
    x.kind = if i < 0 then .negative else .unsigned := by
  rcases createInt_cases i with ⟨n, hi, hc⟩ | ⟨n, hi, hc⟩ | ⟨-, hc⟩ <;> rw [hc] at h <;> cases h
  · rw [if_neg (by omega)]
    rfl
  · rw [if_pos (by omega)]
    rfl

theorem admits_narrowest (x : Binary64) : Kind.float.admits (narrowest x) = true := by
  unfold narrowest
  split
  · rfl
  · split <;> rfl

theorem kind_ofTag (tag : UInt64) (content : Item) : (Item.ofTag tag content).kind = .tag := by
  unfold Item.ofTag
  split <;> repeat' split
  all_goals rfl

/-- The item that a host value suggests is accepted under the kind that it suggests. -/
theorem admits_of_createAny {v : HostValue} {x : Item} (h : createAny v = .ok x) : v.suggested.admits x = true := by
  cases v with
  | null | float _ | text _ | bytes _ | item _ =>
    cases h
    rfl
  | bool b => cases b <;> cases h <;> rfl
  | int i =>
    have hk := kind_createInt h
    simp only [HostValue.suggested, Kind.admits, hk]
    split <;> rfl
  | list elements | map entries =>
    obtain ⟨_, -, hx⟩ := bind_eq_ok_iff.mp h
    cases hx
    rfl
  | tagged tag content =>
    obtain ⟨c, -, hx⟩ := bind_eq_ok_iff.mp h
    cases hx
    exact decide_eq_true (kind_ofTag tag c)

theorem createAny_eq_create (v : HostValue) : createAny v = create v.suggested v := by cases v <;> rfl

/-! ## A given kind -/

/-- A conversion error: it names the kind, and the value or the kind of the item that does not belong to it. -/
inductive Misfit (k : Kind) : HostValue → CreateError → Prop
  | unsupported {v : HostValue} : (∀ x, v ≠ .item x) → Misfit k v (.unsupported v k)
  | wrongSign {i : Int} : k = .unsigned ∧ i < 0 ∨ k = .negative ∧ 0 ≤ i → Misfit k (.int i) (.wrongSign i k)
  | wrongItem {x : Item} : k.admits x = false → Misfit k (.item x) (.wrongItem x.kind k)

theorem Misfit.message_eq {k : Kind} {v : HostValue} {e : CreateError} (h : Misfit k v e) :
    ∃ what, e.message = CreateError.message.conversion what := by
  cases h with
  | unsupported | wrongSign | wrongItem => exact ⟨_, rfl⟩

/-- What comes of a host value under a kind: what the value suggests, where the kind accepts that; an item that the
kind accepts; or a conversion error. -/
inductive Creates (k : Kind) (v : HostValue) : Except CreateError Item → Prop
  | suggested : (∀ {x}, createAny v = .ok x → k.admits x = true) → Creates k v (createAny v)
  | item {x : Item} : k.admits x = true → Creates k v (.ok x)
  | misfit {e : CreateError} : Misfit k v e → Creates k v (.error e)

/-- Integers keep their sign under the kinds that ask for one. -/
theorem creates_int (k : Kind) (i : Int) : Creates k (.int i) (create k (.int i)) := by
  cases k with
  | any => exact .suggested fun _ => rfl
  | int => exact .suggested admits_of_createAny
  | unsigned =>
    rw [create, Kind.resolveInt]
    split
    · rename_i hi
      exact .misfit (.wrongSign (.inl ⟨rfl, hi⟩))
    · rename_i hi
      exact .suggested fun h => by simp [Kind.admits, kind_createInt h, hi]
  | negative =>
    rw [create, Kind.resolveInt]
    split
    · rename_i hi
      exact .suggested fun h => by simp [Kind.admits, kind_createInt h, hi]
    · rename_i hi
      exact .misfit (.wrongSign (.inr ⟨rfl, Int.not_lt.mp hi⟩))
  | float => exact .item (admits_narrowest _)
  | half | single | double => exact .item rfl
  | _ => exact .misfit (.unsupported (by simp))

theorem creates (k : Kind) (v : HostValue) : Creates k v (create k v) := by
  cases v with
  | null =>
    cases k with
    | any | special | null | undefined => exact .item rfl
    | _ => exact .misfit (.unsupported (by simp))
  | bool b =>
    cases b with
    | false =>
      cases k with
      | any | special | bool | falseValue => exact .item rfl
      | _ => exact .misfit (.unsupported (by simp))
    | true =>
      cases k with
      | any | special | bool | trueValue => exact .item rfl
      | _ => exact .misfit (.unsupported (by simp))
  | int i => exact creates_int k i
  | float f =>
    cases k with
    | any | special | half | single | double => exact .item rfl
    | float => exact .item (admits_narrowest f)
    | _ => exact .misfit (.unsupported (by simp))
  | text s =>
    cases k with
    | any | text => exact .item rfl
    | _ => exact .misfit (.unsupported (by simp))
  | bytes b =>
    cases k with
    | any | bytes => exact .item rfl
    | _ => exact .misfit (.unsupported (by simp))
  | list elements =>
    cases k with
    | any => exact .suggested fun _ => rfl
    | array => exact .suggested admits_of_createAny
    | _ => exact .misfit (.unsupported (by simp))
  | map entries =>
    cases k with
    | any => exact .suggested fun _ => rfl
    | map => exact .suggested admits_of_createAny
    | _ => exact .misfit (.unsupported (by simp))
  | tagged tag content =>
    cases k with
    | any => exact .suggested fun _ => rfl
    | tag => exact .suggested admits_of_createAny
    | _ => exact .misfit (.unsupported (by simp))
  | item x =>
    rw [create, accept]
    split
    · rename_i ha
      exact .item ha
    · rename_i ha
      exact .misfit (.wrongItem (Bool.eq_false_iff.mpr ha))

theorem admits_of_create {k : Kind} {v : HostValue} {x : Item} (h : create k v = .ok x) : k.admits x = true := by
  have hc := creates k v
  generalize create k v = r at hc h
  cases hc with
  | suggested ha => exact ha h
  | item ha =>
    cases h
    exact ha
  | misfit _ => cases h

theorem error_of_create {k : Kind} {v : HostValue} {e : CreateError} (h : create k v = .error e) :
    e = .outOfRange ∧ (∃ i ∈ v.ints, ¬IntInRange i) ∨ Misfit k v e := by
  have hc := creates k v
  generalize create k v = r at hc h
  cases hc with
  | suggested _ => exact .inl (createAny_eq_error_iff.mp h).symm
  | item _ => cases h
  | misfit hm =>
    cases h
    exact .inr hm

/-! ## The factory -/

theorem create_any_eq (v : HostValue) : create .any v = createAny v := by cases v <;> rfl

/-- **Every host value becomes an item, but for integers out of range**, as it does under the kind that it suggests. An
element of a list becomes one of the array; of the entries whose keys become the same, the first gives the place in the
map and the last the value. The item is well-formed if those are that the value holds, and decoding gives it back from
its encoding. -/
theorem create_any_total :
    (∀ v, create .any v = create v.suggested v) ∧
    (∀ v, (∃ x, create .any v = .ok x) ↔ ∀ i ∈ v.ints, IntInRange i) ∧
    (∀ v e, create .any v = .error e ↔ (∃ i ∈ v.ints, ¬IntInRange i) ∧ e = .outOfRange) ∧
    (∀ elements x, create .any (.list elements) = .ok x → ∃ items, x = .array items false ∧
      List.Forall₂ (fun v x => create .any v = .ok x) elements items) ∧
    (∀ entries x, create .any (.map entries) = .ok x → ∃ pairs members, x = .map members false ∧
      List.Forall₂ (fun e p => create .any e.1 = .ok p.1 ∧ create .any e.2 = .ok p.2) entries pairs ∧
      keysOf members = (keysOf pairs).eraseDups ∧ ∀ key, members.lookup key = pairs.reverse.lookup key) ∧
    ∀ v x, create .any v = .ok x → (∀ y ∈ v.items, y.WellFormed) → x.WellFormed ∧
      (x.encode.length < 2 ^ 63 → decodeWithDepth x.encode 0 x.encode.length = .ok (x, x.encode.length)) := by
  simp only [create_any_eq]
  refine ⟨createAny_eq_create, fun _ => exists_createAny_eq_ok_iff, fun _ _ => createAny_eq_error_iff,
    fun elements x h => ?_, fun entries x h => ?_, fun v x h hy => ?_⟩
  · obtain ⟨items, hi, hx⟩ := bind_eq_ok_iff.mp h
    exact ⟨items, pure_eq_ok_iff.mp hx, createElements_eq_ok_iff.mp hi⟩
  · obtain ⟨pairs, hp, hx⟩ := bind_eq_ok_iff.mp h
    refine ⟨pairs, putAll [] pairs, ?_, createEntries_eq_ok_iff.mp hp, keysOf_putAll_nil pairs,
      fun key => lookup_putAll_nil key pairs⟩
    rw [pure_eq_ok_iff.mp hx, Item.ofEntries_eq]
  · have hx := wellFormed_createAny h hy
    refine ⟨hx, fun hl => ?_⟩
    have hd := decodeWithDepth_encode hx (s := []) (by rw [List.append_nil]; omega) (Item.nesting_le_length x)
    rwa [List.append_nil] at hd

/-- A list for a key, twice, integers at both ends of the range, and two tags with shapes of their own. -/
def HostValue.ledger : HostValue :=
  .map [(.list [.int (-0x10000000000000000)], .tagged 0 (.text "")), (.text "a", .int 0xFFFFFFFFFFFFFFFF),
    (.list [.int (-0x10000000000000000)], .tagged 1 (.int 3))]

/-- The map of the ledger. -/
def Item.ledger : Item :=
  .map [(.array [.negative 0xFFFFFFFFFFFFFFFF] false, .epochTime (.unsigned 3)),
    (.text "a", .unsigned 0xFFFFFFFFFFFFFFFF)] false

theorem create_any_total_ledger :
    create .any HostValue.ledger = .ok Item.ledger ∧ Item.ledger.WellFormed ∧
      decodeWithDepth Item.ledger.encode 0 24 = .ok (Item.ledger, 24) ∧
      create .any (.tagged 7 (.list [.float ⟨0⟩, .map [(.int 0x10000000000000000, .text "")]])) =
        .error .outOfRange := by
  have hc : create .any HostValue.ledger = .ok Item.ledger :=
    congrArg Except.ok ((Item.ofEntries_eq _ _).trans (by rfl))
  have hl : Item.ledger.encode.length = 24 := by decide +kernel
  have hy : ∀ y ∈ HostValue.ledger.items, y.WellFormed := fun _ h => absurd h List.not_mem_nil
  obtain ⟨-, -, he, -, -, hw⟩ := create_any_total
  obtain ⟨hx, hd⟩ := hw HostValue.ledger Item.ledger hc hy
  rw [hl] at hd
  exact ⟨hc, hx, hd (by decide), (he _ _).mpr ⟨⟨_, List.mem_cons_self, by decide⟩, rfl⟩⟩

/-- **An item that is made under a kind is of a kind that it covers**, and is taken for itself under that kind and under
any. Otherwise there is an integer out of range, outside of the items that are held, or the value does not belong to the
kind, and the error says which. -/
theorem create_sound (k : Kind) (v : HostValue) :
    (∀ x, create k v = .ok x →
      (k = .any ∨ k.Covers x.kind) ∧ create k (.item x) = .ok x ∧ create .any (.item x) = .ok x) ∧
    ∀ e, create k v = .error e → e = .outOfRange ∧ (∃ i ∈ v.ints, ¬IntInRange i) ∨
      Misfit k v e ∧ ∃ what, e.message = CreateError.message.conversion what := by
  refine ⟨fun x h => ?_, fun e h => ?_⟩
  · have ha := admits_of_create h
    refine ⟨Kind.admits_iff.mp ha, ?_, rfl⟩
    rw [create, accept, if_pos ha]
  · rcases error_of_create h with ho | hm
    · exact .inl ho
    · exact .inr ⟨hm, hm.message_eq⟩

theorem create_sound_float :
    create .float (.int 1) = .ok (.half ⟨0x3C00⟩) ∧ Kind.float.Covers .half ∧
      create .float (.item (.half ⟨0x3C00⟩)) = .ok (.half ⟨0x3C00⟩) ∧
      ∃ e, create .special (.item (.raw [0xF6])) = .error e ∧ Misfit .special (.item (.raw [0xF6])) e := by
  have hc : create .float (.int 1) = .ok (.half ⟨0x3C00⟩) := rfl
  have he : create .special (.item (.raw [0xF6])) = .error (.wrongItem .any .special) := rfl
  obtain ⟨hk, hi, -⟩ := (create_sound .float (.int 1)).1 _ hc
  refine ⟨hc, hk.resolve_left (by decide), hi, _, he, ?_⟩
  rcases (create_sound .special (.item (.raw [0xF6]))).2 _ he with ⟨ho, -⟩ | ⟨hm, -⟩
  · cases ho
  · exact hm

end Cbor
