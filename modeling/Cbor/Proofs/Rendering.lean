import Cbor.Proofs.Decoded
import Cbor.Proofs.Legible
import Cbor.Proofs.Sequence

/-!
# What is printed within what

- `Item.shown`: encoded data is printed as the item that it encodes, or as a byte string, and anything else as itself.
  So every text is the shape of a shown item (`item_eq`), and a shown item is no encoded data (`Item.shown_ne_raw`).
- `Part`: the items that a shown item calls for, and how many steps further in each of them stands. The text of an item
  is made of the texts of its parts and of nothing else that depends on them (`legible_shape`).
- `Bracketed`: arrays and maps alike, by their brackets, their parts and the texts of their elements.
-/

namespace Cbor

/-! ## Decoded items -/

theorem decode_wellFormed {data : Bytes} {x : Item} (h : decode data = .ok x) : x.WellFormed := by
  obtain ⟨_, _, -, -, he⟩ := decodeWithDepth_ok_iff.mp (decode_eq_ok_iff.mp h)
  exact he.wellFormed

theorem decodeSequence_wellFormed {data : Bytes} {items : List Item} (h : decodeSequence data = .ok items) :
    ∀ x ∈ items, x.WellFormed := by
  induction items generalizing data with
  | nil => exact fun _ hx => nomatch hx
  | cons x xs ih =>
    obtain ⟨n, hf, hs⟩ := decodeSequence_eq_cons_iff.mp h
    obtain ⟨_, _, -, -, he⟩ := decodeWithDepth_ok_iff.mp hf
    exact List.forall_mem_cons.mpr ⟨he.wellFormed, ih hs⟩

/-- What is printed for an item: for encoded data the item that it encodes, or a byte string if it encodes none. -/
def Item.shown : Item → Item
  | .raw b =>
    match decode b with
    | .ok y => y
    | .error _ => .bytes b
  | x => x

theorem Item.shown_ne_raw (x : Item) (b : Bytes) : x.shown ≠ .raw b := by
  intro h
  cases x with
  | raw b' =>
    rw [shown] at h
    split at h
    · rename_i y hy
      exact (h ▸ decode_wellFormed hy : (Item.raw b).WellFormed)
    · cases h
  | _ => cases h

theorem Item.shown_shown (x : Item) : x.shown.shown = x.shown := by
  cases h : x.shown with
  | raw b => exact absurd h (x.shown_ne_raw b)
  | _ => rfl

theorem Item.WellFormed.shown_eq {x : Item} (h : x.WellFormed) : x.shown = x := by
  cases x with
  | raw => exact h.elim
  | _ => rfl

namespace Diagnostic

/-! ## Budgets -/

/-- The printer of what is nested in an item under a budget. -/
def within (o : Options) : Nat → Option Printer
  | 0 => none
  | budget + 1 => some (item o budget)

theorem itemWith_eq (o : Options) (inner : Option Printer) (indent : Nat) (x : Item) :
    itemWith o inner indent x = shape o inner indent x.shown := by
  cases x with
  | raw b =>
    rw [itemWith, Item.shown]
    cases decode b <;> rfl
  | _ => rfl

theorem item_eq (o : Options) (budget indent : Nat) (x : Item) :
    item o budget indent x = shape o (within o budget) indent x.shown := by
  rw [← itemWith_eq]
  cases budget <;> rfl

theorem item_shown (o : Options) (budget indent : Nat) (x : Item) :
    item o budget indent x.shown = item o budget indent x := by
  rw [item_eq, item_eq, Item.shown_shown]

/-! ## Parts -/

/-- An item that is printed directly within another one, and how many steps further in. -/
inductive Part : Nat → Item → Item → Prop
  | element {items : List Item} {indefinite : Bool} {y : Item} : y ∈ items → Part 1 y (.array items indefinite)
  | key {entries : List (Item × Item)} {indefinite : Bool} {e : Item × Item} : e ∈ entries →
      Part 1 e.1 (.map entries indefinite)
  | value {entries : List (Item × Item)} {indefinite : Bool} {e : Item × Item} : e ∈ entries →
      Part 1 e.2 (.map entries indefinite)
  | content {tag : UInt64} {y : Item} : Part 0 y (.tagged tag y)
  | time {y : Item} : Part 0 y (.epochTime y)
  | embedded {b : Bytes} {items : List Item} {y : Item} : decodeSequence b = .ok items → y ∈ items →
      Part 0 y (.encodedCbor b)

theorem Part.wellFormed {s : Nat} {x y : Item} (h : Part s y x) (hx : x.WellFormed) : y.WellFormed := by
  cases h with
  | element hy => exact Item.wellFormedItems_iff.mp hx _ hy
  | key he => exact (Item.wellFormedEntries_iff.mp hx.2 _ he).1
  | value he => exact (Item.wellFormedEntries_iff.mp hx.2 _ he).2
  | content => exact hx.2
  | time => exact Item.wellFormed_of_isEpochNumber hx
  | embedded hd hy => exact decodeSequence_wellFormed hd _ hy

/-- An array or a map as it is printed. -/
structure Bracketed where
  opening : Char
  closing : Char
  indefinite : Bool
  /-- The items that are printed in it. -/
  parts : List Item
  /-- The texts of its elements. -/
  elements : List (List Char)

/-- An array or a map whose parts are printed by `p`. -/
def Bracketed.of? (p : Item → List Char) : Item → Option Bracketed
  | .array items indefinite => some ⟨'[', ']', indefinite, items, items.map p⟩
  | .map entries indefinite => some ⟨'\x7b', '\x7d', indefinite, entries.flatMap fun e => [e.1, e.2],
      entries.map fun (k, v) => p k ++ ':' :: ' ' :: p v⟩
  | _ => none

namespace Bracketed

variable {p : Item → List Char} {x : Item} {d : Bracketed}

theorem part_of_mem (h : of? p x = some d) {y : Item} (hy : y ∈ d.parts) : Part 1 y x := by
  cases x with
  | array items indefinite =>
    cases h
    exact .element hy
  | map entries indefinite =>
    cases h
    obtain ⟨e, he, hy⟩ := List.mem_flatMap.mp hy
    simp only [List.mem_cons, List.not_mem_nil, or_false] at hy
    obtain rfl | rfl := hy
    · exact .key he
    · exact .value he
  | _ => cases h

theorem mem_of_part (h : of? p x = some d) {s : Nat} {y : Item} (hy : Part s y x) : y ∈ d.parts := by
  cases hy with
  | element hy =>
    cases h
    exact hy
  | key he | value he =>
    cases h
    exact List.mem_flatMap.mpr ⟨_, he, by simp⟩
  | _ => cases h

/-- The text of an element is the text of an item, or the texts of a key and a value. -/
theorem text_of_mem (h : of? p x = some d) {text : List Char} (ht : text ∈ d.elements) :
    (∃ y ∈ d.parts, text = p y) ∨ ∃ k ∈ d.parts, ∃ v ∈ d.parts, text = p k ++ ':' :: ' ' :: p v := by
  cases x with
  | array items indefinite =>
    cases h
    obtain ⟨y, hy, rfl⟩ := List.mem_map.mp ht
    exact .inl ⟨y, hy, rfl⟩
  | map entries indefinite =>
    cases h
    obtain ⟨e, he, rfl⟩ := List.mem_map.mp ht
    exact .inr ⟨e.1, List.mem_flatMap.mpr ⟨e, he, by simp⟩, e.2, List.mem_flatMap.mpr ⟨e, he, by simp⟩, rfl⟩
  | _ => cases h

/-- The text of each part stands in the text of an element. -/
theorem exists_element (h : of? p x = some d) {y : Item} (hy : y ∈ d.parts) : ∃ text ∈ d.elements, p y <:+: text := by
  cases part_of_mem h hy with
  | element hy =>
    cases h
    exact ⟨_, List.mem_map_of_mem hy, List.infix_refl _⟩
  | key he =>
    cases h
    exact ⟨_, List.mem_map_of_mem he, (List.prefix_append _ _).isInfix⟩
  | value he =>
    cases h
    exact ⟨_, List.mem_map_of_mem he, (List.suffix_append_of_suffix (List.suffix_append [':', ' '] _)).isInfix⟩

theorem isCompound_eq (h : of? p x = some d) : x.isCompound = true := by
  cases x with
  | array | map => rfl
  | _ => cases h

theorem shown_eq (h : of? p x = some d) : x.shown = x := by
  cases x with
  | array | map => rfl
  | _ => cases h

theorem legible_brackets (h : of? p x = some d) :
    Text.isControl d.opening = false ∧ Text.isControl d.closing = false := by
  cases x with
  | array | map =>
    cases h
    exact ⟨rfl, rfl⟩
  | _ => cases h

theorem shape_eq {o : Options} {p : Printer} {indent : Nat} (h : of? (p (indent + 1)) x = some d) :
    shape o (some p) indent x = container d.opening d.closing d.indefinite
      (isInline o d.parts d.elements.length) indent d.elements := by
  cases x with
  | array items indefinite =>
    cases h
    show container _ _ _ (isInline o items items.length) _ _ = _
    rw [List.length_map]
  | map entries indefinite =>
    cases h
    show container _ _ _ (isInline o _ entries.length) _ _ = _
    rw [List.length_map]
  | _ => cases h

end Bracketed

/-! ## Text without controls -/

theorem legible_deeper {inner : Option Printer} {content : Printer → List Char}
    (h : ∀ p, inner = some p → Legible (content p)) : Legible (deeper inner content) := by
  cases inner with
  | none => exact legible_error .tooDeep
  | some p => exact h p rfl

theorem legible_commaSeparated {parts : List (List Char)} (h : ∀ part ∈ parts, Legible part) :
    Legible (commaSeparated parts) := legible_intercalate (by decide) h

theorem legible_chunks {pieces : List (List Char)} (h : ∀ piece ∈ pieces, Legible piece) : Legible (chunks pieces) := by
  rw [chunks, legible_append, legible_append]
  exact ⟨⟨by decide, legible_commaSeparated h⟩, by decide⟩

theorem legible_tagged (tag : UInt64) {content : List Char} (h : Legible content) : Legible (tagged tag content) := by
  rw [tagged, legible_append, legible_cons, legible_append]
  exact ⟨legible_number _, by decide, h, by decide⟩

/-- On one line, a container is as legible as its elements. -/
theorem legible_container {opening closing : Char} (ho : Text.isControl opening = false)
    (hc : Text.isControl closing = false) (indefinite : Bool) (indent : Nat) {elements : List (List Char)}
    (h : ∀ text ∈ elements, Legible text) : Legible (container opening closing indefinite true indent elements) := by
  have hm : Legible (if indefinite then ['_'] else []) := by split <;> decide
  have hb : Legible (if indefinite && !elements.isEmpty then [' '] else []) := by split <;> decide
  rw [container, if_pos rfl, onOneLine]
  simp only [legible_cons, legible_append]
  exact ⟨ho, ⟨hm, hb, legible_commaSeparated h⟩, hc, legible_nil⟩

/-- An item is as legible as its parts, if it is no container that takes several lines. -/
theorem legible_shape {o : Options} {inner : Option Printer} {indent : Nat} {x : Item}
    (hi : ∀ p d, Bracketed.of? p x = some d → isInline o d.parts d.elements.length = true)
    (hp : ∀ p, inner = some p → ∀ s y, Part s y x → Legible (p (indent + s) y)) :
    Legible (shape o inner indent x) := by
  have hb : ∀ p d, Bracketed.of? (p (indent + 1)) x = some d → inner = some p →
      Legible (shape o (some p) indent x) := by
    intro p d hd hs
    obtain ⟨ho, hc⟩ := Bracketed.legible_brackets hd
    have hy : ∀ y ∈ d.parts, Legible (p (indent + 1) y) := fun y hy => hp p hs 1 y (Bracketed.part_of_mem hd hy)
    rw [Bracketed.shape_eq hd, hi _ _ hd]
    refine legible_container ho hc _ _ fun text ht => ?_
    obtain ⟨y, hm, rfl⟩ | ⟨k, hk, v, hv, rfl⟩ := Bracketed.text_of_mem hd ht
    · exact hy y hm
    · simp only [legible_append, legible_cons]
      exact ⟨hy k hk, rfl, rfl, hy v hv⟩
  cases x with
  | unsigned v => exact legible_number _
  | negative m => exact legible_number _
  | bytes b => exact legible_bytes o b
  | byteChunks pieces => exact legible_chunks (List.forall_mem_map.mpr fun b _ => legible_bytes o b)
  | text s => exact legible_text s
  | textChunks pieces => exact legible_chunks (List.forall_mem_map.mpr fun s _ => legible_text s)
  | array | map =>
    cases inner with
    | none => exact legible_error .tooDeep
    | some p => exact hb p _ rfl rfl
  | tagged tag y => exact legible_tagged tag (legible_deeper fun p h => hp p h 0 y .content)
  | epochTime y => exact legible_tagged _ (legible_deeper fun p h => hp p h 0 y .time)
  | dateTime s | fullDate s => exact legible_tagged _ (legible_text s)
  | encodedCbor b =>
    have he : ∀ p, inner = some p → Legible (shape.embedded indent b p) := by
      intro p h
      unfold shape.embedded
      split
      · rename_i items hd
        exact legible_commaSeparated (List.forall_mem_map.mpr fun y hy => hp p h 0 y (.embedded hd hy))
      · exact legible_error _
    refine legible_tagged _ ?_
    simp only [legible_cons, legible_append]
    exact ⟨rfl, rfl, legible_deeper he, rfl, rfl, legible_nil⟩
  | bool b =>
    cases b with
    | false => exact (by decide : Legible "false".toList)
    | true => exact (by decide : Legible "true".toList)
  | null => exact (by decide : Legible "null".toList)
  | undefined => exact (by decide : Legible "undefined".toList)
  | simple s => exact legible_simple s
  | half | single | double => exact legible_float _ _
  | raw b => exact legible_bytes o b

end Diagnostic

end Cbor
