import Cbor.Encode
import Cbor.Item.Map
import Cbor.Proofs.Table

/-!
# Well-formed items and how deep they nest

- `Item.WellFormed`: no encoded data is spliced in and times from the epoch are numbers; and what holds of every item
  that is built by the operations of its type, that the keys of a map are distinct and that a tag has the shape of its
  own for its content if there is one.
- `Item.nesting`: how many arrays, maps and tags are inside one another.
- A tag over any content is written, nests and is well-formed as its parts are (`encode_ofTag`, `nesting_ofTag`,
  `WellFormed.ofTag`), and the map of a list of pairs is their list put in order (`ofEntries_eq`).
-/

namespace Cbor.Item

/-! ## Well-formed items -/

mutual

/-- The item holds no encoded data to be written as it is, and its times from the epoch are numbers. The keys of its
maps are distinct and its tags are in shape, as they are in all that `ofEntries` and `ofTag` build. -/
def WellFormed : Item → Prop
  | .array items _ => WellFormedItems items
  | .map entries _ => (keysOf entries).Nodup ∧ WellFormedEntries entries
  | .tagged tag content => ofTag tag content = .tagged tag content ∧ WellFormed content
  | .epochTime content => content.isEpochNumber = true
  | .raw _ => False
  | _ => True

/-- All items are well-formed. -/
def WellFormedItems : List Item → Prop
  | [] => True
  | item :: items => WellFormed item ∧ WellFormedItems items

/-- All keys and values are well-formed. -/
def WellFormedEntries : List (Item × Item) → Prop
  | [] => True
  | (key, value) :: entries => WellFormed key ∧ WellFormed value ∧ WellFormedEntries entries

end

theorem wellFormedItems_iff {items : List Item} : WellFormedItems items ↔ ∀ x ∈ items, x.WellFormed := by
  induction items with
  | nil => simp [WellFormedItems]
  | cons x items ih => rw [WellFormedItems, List.forall_mem_cons, ih]

theorem wellFormedEntries_iff {entries : List (Item × Item)} :
    WellFormedEntries entries ↔ ∀ e ∈ entries, e.1.WellFormed ∧ e.2.WellFormed := by
  induction entries with
  | nil => simp [WellFormedEntries]
  | cons e entries ih => rw [WellFormedEntries, List.forall_mem_cons, ih, and_assoc]

theorem wellFormed_of_isEpochNumber {x : Item} (h : x.isEpochNumber = true) : x.WellFormed := by
  cases x with
  | unsigned | negative | half | single | double => trivial
  | _ => cases h

/-! ## Nesting -/

mutual

/-- How many arrays, maps and tags are inside one another. Encoded data nests no deeper than it is long. -/
def nesting : Item → Nat
  | .array items _ => nestingItems items + 1
  | .map entries _ => nestingEntries entries + 1
  | .tagged _ content | .epochTime content => nesting content + 1
  | .dateTime _ | .encodedCbor _ | .fullDate _ => 1
  | .raw b => b.length
  | _ => 0

/-- The greatest nesting of items. -/
def nestingItems : List Item → Nat
  | [] => 0
  | item :: items => max (nesting item) (nestingItems items)

/-- The greatest nesting of keys and values. -/
def nestingEntries : List (Item × Item) → Nat
  | [] => 0
  | (key, value) :: entries => max (max (nesting key) (nesting value)) (nestingEntries entries)

end

theorem nestingItems_le_iff {d : Nat} {items : List Item} : nestingItems items ≤ d ↔ ∀ x ∈ items, x.nesting ≤ d := by
  induction items with
  | nil => simp [nestingItems]
  | cons x items ih => rw [nestingItems, List.forall_mem_cons, ← ih, Nat.max_le]

theorem nestingEntries_le_iff {d : Nat} {entries : List (Item × Item)} :
    nestingEntries entries ≤ d ↔ ∀ e ∈ entries, e.1.nesting ≤ d ∧ e.2.nesting ≤ d := by
  induction entries with
  | nil => simp [nestingEntries]
  | cons e entries ih => rw [nestingEntries, List.forall_mem_cons, ← ih, Nat.max_le, Nat.max_le]

/-! ## Tags and maps over any content -/

theorem encode_ofTag (tag : UInt64) (content : Item) :
    (ofTag tag content).encode = Head.encode 6 tag ++ content.encode := by
  unfold ofTag
  split <;> repeat' split
  all_goals simp_all [encode]

theorem nesting_ofTag (tag : UInt64) (content : Item) : (ofTag tag content).nesting = content.nesting + 1 := by
  unfold ofTag
  split <;> repeat' split
  all_goals simp [nesting]

theorem WellFormed.ofTag {content : Item} (h : content.WellFormed) (tag : UInt64) :
    (ofTag tag content).WellFormed := by
  unfold Item.ofTag
  split <;> repeat' split
  all_goals simp_all [WellFormed, Item.ofTag]

theorem ofEntries_eq (pairs : List (Item × Item)) (indefinite : Bool) :
    ofEntries pairs indefinite = .map (putAll [] pairs) indefinite := by
  rw [ofEntries, Table.toList_ofList]

end Cbor.Item
