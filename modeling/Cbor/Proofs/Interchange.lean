import Cbor.Factory
import Cbor.Json.Projection
import Cbor.Proofs.Integers
import Cbor.Proofs.RoundTrip

/-!
# Interchange with JSON

- `Json.Canonical`: the numbers of a value lie in the range of their kind and the keys of its objects are in strict
  order, as they are in every value that is read from a text.
- `Json.asItem`, the item of a canonical value. It is what the host value of the JSON value becomes
  (`Json.Canonical.createAny_ofJson`), its view is the JSON value again (`Json.Canonical.toJson_asItem`), and it is
  well-formed and nests as deep (`Json.Canonical.wellFormed_asItem`, `Json.nesting_asItem`).
- So a JSON value comes back from its item, and its item from the encoding (`Json.Canonical.create_ofJson`).
-/

namespace Cbor

namespace Json

/-! ## Canonical values -/

/-- A negative integer is below zero, and a float is finite. -/
def Number.Canonical : Number → Prop
  | .natural _ => True
  | .negative i => i.toInt < 0
  | .float x => x.isNaN = false ∧ x.isInfinite = false

mutual

/-- The numbers lie in the range of their kind, and the keys of each object are distinct and in order. -/
def Canonical : Json → Prop
  | .number n => n.Canonical
  | .array elements => CanonicalElements elements
  | .object members => (keysOf members).Pairwise (· < ·) ∧ CanonicalMembers members
  | _ => True

/-- All elements are canonical. -/
def CanonicalElements : List Json → Prop
  | [] => True
  | element :: elements => Canonical element ∧ CanonicalElements elements

/-- All values of members are canonical. -/
def CanonicalMembers : List (String × Json) → Prop
  | [] => True
  | (_, value) :: members => Canonical value ∧ CanonicalMembers members

end

mutual

/-- How many arrays and objects are inside one another. -/
def nesting : Json → Nat
  | .array elements => nestingElements elements + 1
  | .object members => nestingMembers members + 1
  | _ => 0

/-- The greatest nesting of elements. -/
def nestingElements : List Json → Nat
  | [] => 0
  | element :: elements => max (nesting element) (nestingElements elements)

/-- The greatest nesting of the values of members. -/
def nestingMembers : List (String × Json) → Nat
  | [] => 0
  | (_, value) :: members => max (nesting value) (nestingMembers members)

end

/-! ## Their items -/

/-- The item of a number: an integer by its sign, any other number at full width. -/
def Number.asItem : Number → Item
  | .natural n => .unsigned n
  | .negative i => .negative (.ofNat (-1 - i.toInt).toNat)
  | .float x => .double x

mutual

/-- The item of a value, with text for the keys of objects. -/
def asItem : Json → Item
  | .null => .null
  | .bool b => .bool b
  | .number n => n.asItem
  | .string s => .text s
  | .array elements => .array (asItems elements) false
  | .object members => .map (asEntries members) false

/-- The items of the elements of an array. -/
def asItems : List Json → List Item
  | [] => []
  | element :: elements => asItem element :: asItems elements

/-- The entries of the members of an object. -/
def asEntries : List (String × Json) → List (Item × Item)
  | [] => []
  | (key, value) :: members => (.text key, asItem value) :: asEntries members

end

theorem keysOf_asEntries (members : List (String × Json)) :
    keysOf (asEntries members) = (keysOf members).map Item.text := by
  induction members with
  | nil => rfl
  | cons member members ih => rw [asEntries, keysOf_cons, keysOf_cons, List.map_cons, ih]

/-- Keys in strict order are distinct, as text. -/
theorem nodup_keysOf_asEntries {members : List (String × Json)} (h : (keysOf members).Pairwise (· < ·)) :
    (keysOf (asEntries members)).Nodup := by
  rw [keysOf_asEntries, List.Nodup, List.pairwise_map]
  refine h.imp fun {s s'} hs he => ?_
  rw [Item.text.inj he] at hs
  exact String.lt_irrefl s' hs

/-! ## Numbers -/

theorem createInt_natural (n : UInt64) : createInt n.toNat = .ok (Number.natural n).asItem :=
  createInt_eq_ok_iff.mpr rfl

/-- A negative 64-bit integer is one less than the opposite of a 63-bit number. -/
theorem exists_toInt_eq_negSucc {i : Int64} (h : i.toInt < 0) : ∃ m, m < 2 ^ 63 ∧ i.toInt = .negSucc m := by
  have hl := i.le_toInt
  refine ⟨(-1 - i.toInt).toNat, ?_, ?_⟩ <;> omega

theorem createInt_negative {i : Int64} (h : i.toInt < 0) : createInt i.toInt = .ok (Number.negative i).asItem := by
  have hl := i.le_toInt
  have hm : (UInt64.ofNat (-1 - i.toInt).toNat).toNat = (-1 - i.toInt).toNat :=
    UInt64.toNat_ofNat_of_lt' (by rw [UInt64.size]; omega)
  exact createInt_eq_ok_iff.mpr (Item.asInt_negative (by rw [hm]; omega))

/-- A canonical number is the view of its item. -/
theorem Number.Canonical.toJson_asItem {n : Number} (h : n.Canonical) : n.asItem.toJson = .ok (.number n) := by
  cases n with
  | natural n => rfl
  | negative i =>
    obtain ⟨m, hm, hi⟩ := exists_toInt_eq_negSucc h
    have ha : (-1 - i.toInt).toNat = m := by omega
    have hs : (UInt64.ofNat m).toNat = m := UInt64.toNat_ofNat_of_lt' (Nat.lt_trans hm (by decide))
    have hv : -1 - (m : Int) = i.toInt := by omega
    rw [asItem, ha, Item.toJson, hs, if_pos (by rw [Int64.toInt_maxValue]; omega), hv, Int64.ofInt_toInt]
  | float x =>
    rw [asItem, Item.toJson, Item.jsonFloat, h.1, h.2]
    rfl

theorem wellFormed_asItem_number (n : Number) : n.asItem.WellFormed := by cases n <;> trivial

theorem nesting_asItem_number (n : Number) : n.asItem.nesting = 0 := by cases n <;> rfl

/-! ## Objects -/

/-- A key after all others goes to the end. -/
theorem setMember_of_forall_lt {key : String} {value : Json} {members : List (String × Json)}
    (h : ∀ k ∈ keysOf members, k < key) : setMember key value members = members ++ [(key, value)] := by
  induction members with
  | nil => rfl
  | cons member members ih =>
    rw [keysOf_cons, List.forall_mem_cons] at h
    have hne : key ≠ member.1 := fun he => String.lt_irrefl key (he ▸ h.1)
    rw [setMember, if_neg (String.lt_asymm h.1), if_neg hne, ih h.2, List.cons_append]

/-- Members in strict order are an object as they are. -/
theorem ofMembers_of_pairwise {members : List (String × Json)} (h : (keysOf members).Pairwise (· < ·)) :
    ofMembers members = .object members := by
  suffices hs : ∀ {sorted : List (String × Json)}, (keysOf (sorted ++ members)).Pairwise (· < ·) →
      members.foldl (fun sorted member => setMember member.1 member.2 sorted) sorted = sorted ++ members from
    congrArg Json.object (@hs [] h)
  clear h
  induction members with
  | nil => exact fun _ => (List.append_nil _).symm
  | cons member members ih =>
    intro sorted h
    have hk : ∀ k ∈ keysOf sorted, k < member.1 := by
      rw [keysOf_append, List.pairwise_append] at h
      exact fun k hk => h.2.2 k hk member.1 List.mem_cons_self
    rw [List.append_cons] at h ⊢
    rw [← ih h, List.foldl_cons, ← setMember_of_forall_lt hk]

/-! ## Host values, views and encodings -/

mutual

/-- The host value of a canonical value becomes its item. -/
theorem Canonical.createAny_ofJson : ∀ {j : Json}, j.Canonical → createAny (.ofJson j) = .ok j.asItem
  | .null, _ | .bool _, _ | .string _, _ | .number (.float _), _ => rfl
  | .number (.natural n), _ => createInt_natural n
  | .number (.negative _), h => createInt_negative h
  | .array elements, h => by
    rw [HostValue.ofJson, createAny, CanonicalElements.createElements_ofJson h]
    rfl
  | .object members, h => by
    have hp : putAll [] (asEntries members) = asEntries members := putAll_of_nodup (nodup_keysOf_asEntries h.1)
    rw [HostValue.ofJson, createAny, CanonicalMembers.createEntries_ofJson h.2, asItem]
    exact congrArg Except.ok ((Item.ofEntries_eq _ _).trans (by rw [hp]))

theorem CanonicalElements.createElements_ofJson : ∀ {elements : List Json}, CanonicalElements elements →
    createElements (HostValue.ofJsonElements elements) = .ok (asItems elements)
  | [], _ => rfl
  | _ :: _, h => by
    rw [HostValue.ofJsonElements, createElements, Canonical.createAny_ofJson h.1,
      CanonicalElements.createElements_ofJson h.2]
    rfl

theorem CanonicalMembers.createEntries_ofJson : ∀ {members : List (String × Json)}, CanonicalMembers members →
    createEntries (HostValue.ofJsonMembers members) = .ok (asEntries members)
  | [], _ => rfl
  | (_, _) :: _, h => by
    rw [HostValue.ofJsonMembers, createEntries, createAny, Canonical.createAny_ofJson h.1,
      CanonicalMembers.createEntries_ofJson h.2]
    rfl

end

mutual

/-- A canonical value is the view of its item. -/
theorem Canonical.toJson_asItem : ∀ {j : Json}, j.Canonical → j.asItem.toJson = .ok j
  | .null, _ | .bool _, _ | .string _, _ => rfl
  | .number _, h => Number.Canonical.toJson_asItem h
  | .array _, h => by
    rw [asItem, Item.toJson, CanonicalElements.toJsonItems_asItems h]
    rfl
  | .object _, h => by
    rw [asItem, Item.toJson, CanonicalMembers.toJsonEntries_asEntries h.2]
    exact congrArg Except.ok (ofMembers_of_pairwise h.1)

theorem CanonicalElements.toJsonItems_asItems : ∀ {elements : List Json}, CanonicalElements elements →
    Item.toJsonItems (asItems elements) = .ok elements
  | [], _ => rfl
  | _ :: _, h => by
    rw [asItems, Item.toJsonItems, Canonical.toJson_asItem h.1, CanonicalElements.toJsonItems_asItems h.2]
    rfl

theorem CanonicalMembers.toJsonEntries_asEntries : ∀ {members : List (String × Json)}, CanonicalMembers members →
    Item.toJsonEntries (asEntries members) = .ok members
  | [], _ => rfl
  | (_, _) :: _, h => by
    rw [asEntries, Item.toJsonEntries, Canonical.toJson_asItem h.1, CanonicalMembers.toJsonEntries_asEntries h.2]
    rfl

end

mutual

theorem Canonical.wellFormed_asItem : ∀ {j : Json}, j.Canonical → j.asItem.WellFormed
  | .null, _ | .bool _, _ | .string _, _ => trivial
  | .number n, _ => wellFormed_asItem_number n
  | .array _, h => CanonicalElements.wellFormedItems_asItems h
  | .object _, h => ⟨nodup_keysOf_asEntries h.1, CanonicalMembers.wellFormedEntries_asEntries h.2⟩

theorem CanonicalElements.wellFormedItems_asItems : ∀ {elements : List Json}, CanonicalElements elements →
    Item.WellFormedItems (asItems elements)
  | [], _ => trivial
  | _ :: _, h => ⟨Canonical.wellFormed_asItem h.1, CanonicalElements.wellFormedItems_asItems h.2⟩

theorem CanonicalMembers.wellFormedEntries_asEntries : ∀ {members : List (String × Json)}, CanonicalMembers members →
    Item.WellFormedEntries (asEntries members)
  | [], _ => trivial
  | (_, _) :: _, h => ⟨trivial, Canonical.wellFormed_asItem h.1, CanonicalMembers.wellFormedEntries_asEntries h.2⟩

end

mutual

/-- The item of a value nests as deep as the value. -/
theorem nesting_asItem : ∀ j : Json, j.asItem.nesting = j.nesting
  | .null | .bool _ | .string _ => rfl
  | .number n => nesting_asItem_number n
  | .array elements => congrArg (· + 1) (nestingItems_asItems elements)
  | .object members => congrArg (· + 1) (nestingEntries_asEntries members)

theorem nestingItems_asItems : ∀ elements : List Json, Item.nestingItems (asItems elements) = nestingElements elements
  | [] => rfl
  | element :: elements => by
    rw [asItems, Item.nestingItems, nesting_asItem element, nestingItems_asItems elements, nestingElements]

theorem nestingEntries_asEntries : ∀ members : List (String × Json),
    Item.nestingEntries (asEntries members) = nestingMembers members
  | [] => rfl
  | (key, value) :: members => by
    have hk : (Item.text key).nesting = 0 := rfl
    rw [asEntries, Item.nestingEntries, hk, nesting_asItem value, nestingEntries_asEntries members, nestingMembers,
      Nat.zero_max]

end

/-- **A JSON value survives the way to an item and back**: its host value becomes an item whose view is the value
again, and if the value nests no deeper than the decoder goes, that item comes back from its encoding. -/
theorem Canonical.create_ofJson {j : Json} (hj : j.Canonical) :
    ∃ x, create .any (.ofJson j) = .ok x ∧ x.toJson = .ok j ∧
      (j.nesting ≤ maxDepth → x.encode.length < 2 ^ 63 → decode x.encode = .ok x) := by
  have hc : create .any (.ofJson j) = createAny (.ofJson j) := by
    cases j with
    | number n => cases n <;> rfl
    | _ => rfl
  refine ⟨j.asItem, hc.trans hj.createAny_ofJson, hj.toJson_asItem, fun hn hl => ?_⟩
  rw [← nesting_asItem] at hn
  exact decode_encode hj.wellFormed_asItem (Nat.lt_trans hl (by decide)) hn

/-- Numbers at the ends of their ranges and the negative zero, under keys and in an array. -/
def extremes : Json :=
  .object [("", .array [.number (.natural 0xFFFFFFFFFFFFFFFF), .number (.float ⟨0x8000000000000000⟩), .null]),
    ("a", .object []), ("b", .number (.negative Int64.minValue))]

theorem create_ofJson_extremes :
    extremes.Canonical ∧ ∃ x, create .any (.ofJson extremes) = .ok x ∧ x.toJson = .ok extremes ∧
      decode x.encode = .ok x := by
  have hc : extremes.Canonical :=
    ⟨by decide, ⟨trivial, ⟨by decide, by decide⟩, trivial, trivial⟩, ⟨List.Pairwise.nil, trivial⟩,
      (by decide : Int64.minValue.toInt < 0), trivial⟩
  obtain ⟨x, hx, hv, hd⟩ := hc.create_ofJson
  have he : x = extremes.asItem := Except.ok.inj (hx.symm.trans hc.createAny_ofJson)
  exact ⟨hc, x, hx, hv, hd (by decide) (by rw [he]; decide +kernel)⟩

end Json

end Cbor
