import Cbor.Proofs.Canonical
import Cbor.Proofs.Rendering
import Cbor.Proofs.Splice

/-!
# Budgets that suffice

- `Item.parts`, the items that are printed directly within an item (`mem_parts_iff`). The encoding of each is shorter
  (`length_lt_of_mem_parts`), so that all texts end.
- `Item.levels`: how deep arrays, maps, tags and embedded encodings nest where an item is printed. All budgets from
  there on give one text (`item_eq_item`).
- `unlimited`, the only printer that asks for no budget (`eq_unlimited_iff`). Its text is that of each item that does
  not nest too deep, and of each that is decoded and embeds no other (`diagnostic_eq_unlimited`).
-/

namespace Cbor

open Diagnostic

/-! ## Lengths -/

/-- What is decoded from a sequence takes no more bytes. -/
theorem shortest_of_decodeSequence {data : Bytes} {items : List Item} (h : decodeSequence data = .ok items) :
    Bytes.Shortest (Item.encodeItems items) data := by
  induction items generalizing data with
  | nil =>
    rw [decodeSequence_eq_nil_iff.mp h]
    exact .refl _
  | cons x xs ih =>
    obtain ⟨n, hx, hxs⟩ := decodeSequence_eq_cons_iff.mp h
    obtain ⟨b, rest, hb, rfl, he⟩ := decodeWithDepth_ok_iff.mp hx
    rw [List.drop_zero] at hb
    rw [hb, Nat.zero_add, List.drop_left] at hxs
    rw [hb]
    exact he.shortest.append (ih hxs)

namespace Item

theorem length_le_encodeItems {x : Item} {items : List Item} (h : x ∈ items) :
    x.encode.length ≤ (encodeItems items).length := by
  induction items with
  | nil => cases h
  | cons y ys ih =>
    rw [encodeItems, List.length_append]
    obtain rfl | h := List.mem_cons.mp h
    · exact Nat.le_add_right _ _
    · exact Nat.le_add_left_of_le (ih h)

theorem length_le_encodeEntries {e : Item × Item} {entries : List (Item × Item)} (h : e ∈ entries) :
    e.1.encode.length + e.2.encode.length ≤ (encodeEntries entries).length := by
  induction entries with
  | nil => cases h
  | cons e' es ih =>
    rw [encodeEntries, List.length_append, List.length_append]
    obtain rfl | h := List.mem_cons.mp h
    · exact Nat.le_add_right _ _
    · exact Nat.le_add_left_of_le (ih h)

end Item

/-! ## Parts -/

theorem Diagnostic.Part.length_lt {s : Nat} {x y : Item} (h : Part s y x) : y.encode.length < x.encode.length := by
  cases h with
  | element hy => exact Nat.lt_of_le_of_lt (Item.length_le_encodeItems hy) (Item.length_contents_lt ..)
  | key he | value he =>
    have hle := Item.length_le_encodeEntries he
    exact Nat.lt_of_le_of_lt (by omega) (Item.length_contents_lt ..)
  | content => exact Item.length_content_lt _ _
  | time => exact Item.length_content_lt _ _
  | @embedded b items y hd hy =>
    have hs := (shortest_of_decodeSequence hd).length_le
    have hb := Item.length_le_encodeString 2 b
    have ht := Item.length_content_lt encodedCborTag (.bytes b)
    exact Nat.lt_of_le_of_lt (Nat.le_trans (Item.length_le_encodeItems hy) (Nat.le_trans hs hb)) ht

namespace Item

/-- The items that are printed directly within an item as it is shown. -/
def parts : Item → List Item
  | .array items _ => items
  | .map entries _ => entries.flatMap fun e => [e.1, e.2]
  | .tagged _ content | .epochTime content => [content]
  | .encodedCbor b =>
    match decodeSequence b with
    | .ok items => items
    | .error _ => []
  | _ => []

/-- The item spends one of the budget, whatever it holds. -/
def nests : Item → Bool
  | .array .. | .map .. | .tagged .. | .epochTime _ | .encodedCbor _ => true
  | _ => false

theorem mem_parts_iff {x y : Item} : y ∈ x.parts ↔ ∃ s, Part s y x := by
  constructor
  · intro h
    cases x with
    | array => exact ⟨1, .element h⟩
    | map => exact ⟨1, Bracketed.part_of_mem (p := fun _ => []) rfl h⟩
    | tagged =>
      obtain rfl := List.mem_singleton.mp h
      exact ⟨0, .content⟩
    | epochTime =>
      obtain rfl := List.mem_singleton.mp h
      exact ⟨0, .time⟩
    | encodedCbor b =>
      rw [parts] at h
      split at h
      · rename_i items hd
        exact ⟨0, .embedded hd h⟩
      · cases h
    | _ => cases h
  · rintro ⟨s, h⟩
    cases h with
    | element hy => exact hy
    | key he | value he => exact List.mem_flatMap.mpr ⟨_, he, by simp⟩
    | content | time => exact List.mem_singleton.mpr rfl
    | embedded hd hy =>
      rw [parts, hd]
      exact hy

theorem length_lt_of_mem_parts {x y : Item} (h : y ∈ x.shown.parts) : y.encode.length < x.encode.length := by
  cases x with
  | raw b =>
    rw [shown] at h
    split at h
    · rename_i z hz
      obtain ⟨s, hp⟩ := mem_parts_iff.mp h
      have hs := shortest_of_decodeSequence (decode_eq_ok_iff_decodeSequence.mp hz)
      rw [encodeItems, encodeItems, List.append_nil] at hs
      exact Nat.lt_of_lt_of_le hp.length_lt hs.length_le
    · cases h
  | _ =>
    obtain ⟨s, hp⟩ := mem_parts_iff.mp h
    exact hp.length_lt

/-! ## Levels -/

/-- How deep arrays, maps, tags over items and embedded encodings nest where an item is printed. -/
def levels (x : Item) : Nat :=
  if x.shown.nests then (x.shown.parts.attach.map fun y => levels y.1).foldr max 0 + 1 else 0
termination_by x.encode.length
decreasing_by exact length_lt_of_mem_parts y.2

theorem foldr_max_le_iff {ns : List Nat} {n : Nat} : ns.foldr max 0 ≤ n ↔ ∀ m ∈ ns, m ≤ n := by
  induction ns with
  | nil => simp
  | cons m ns ih => rw [List.foldr_cons, Nat.max_le, ih, List.forall_mem_cons]

theorem levels_le_iff {x : Item} {n : Nat} :
    x.levels ≤ n ↔ (x.shown.nests = true → ∃ m, n = m + 1 ∧ ∀ y ∈ x.shown.parts, y.levels ≤ m) := by
  rw [levels]
  by_cases hn : x.shown.nests = true
  · rw [if_pos hn]
    cases n with
    | zero => simp [hn]
    | succ n => simp [hn, foldr_max_le_iff]
  · simp [hn]

end Item

/-! ## Texts -/

namespace Diagnostic

variable {o : Options} {inner inner' : Option Printer} {p q : Printer} {indent : Nat} {x : Item}

theorem Bracketed.of?_congr {p q : Item → List Char} (h : ∀ y, Part 1 y x → p y = q y) : of? p x = of? q x := by
  cases x with
  | array items indefinite =>
    rw [of?, of?, List.map_congr_left fun y hy => h y (.element hy)]
  | map entries indefinite =>
    refine congrArg (fun elements => some (Bracketed.mk _ _ _ _ elements)) (List.map_congr_left fun e he => ?_)
    show p e.1 ++ ':' :: ' ' :: p e.2 = _
    rw [h e.1 (.key he), h e.2 (.value he)]
  | _ => rfl

/-- The text of an item depends on the texts of its parts only. -/
theorem shape_congr (h : ∀ s y, Part s y x → p (indent + s) y = q (indent + s) y) :
    shape o (some p) indent x = shape o (some q) indent x := by
  have hb : ∀ d, Bracketed.of? (p (indent + 1)) x = some d → shape o (some p) indent x = shape o (some q) indent x := by
    intro d hd
    have hd' : Bracketed.of? (q (indent + 1)) x = some d := by
      rw [← hd, Bracketed.of?_congr (h 1)]
    rw [Bracketed.shape_eq hd, Bracketed.shape_eq hd']
  cases x with
  | array | map => exact hb _ rfl
  | tagged tag y =>
    have hy : p indent y = q indent y := h 0 y .content
    exact congrArg (tagged tag) hy
  | epochTime y =>
    have hy : p indent y = q indent y := h 0 y .time
    exact congrArg (tagged epochTimeTag) hy
  | encodedCbor b =>
    have he : shape.embedded indent b p = shape.embedded indent b q := by
      unfold shape.embedded
      split
      · rename_i items hd
        exact congrArg commaSeparated (List.map_congr_left fun y hy => h 0 y (.embedded hd hy))
      · rfl
    exact congrArg (fun text => tagged encodedCborTag ('<' :: '<' :: (text ++ ['>', '>']))) he
  | _ => rfl

theorem shape_of_not_nests (h : x.nests ≠ true) : shape o inner indent x = shape o inner' indent x := by
  cases x with
  | array | map | tagged | epochTime | encodedCbor => exact absurd rfl h
  | _ => rfl

/-- **Every budget that reaches all levels of an item gives the same text.** -/
theorem item_eq_item {budget budget' : Nat} (h : x.levels ≤ budget) (h' : x.levels ≤ budget') :
    item o budget indent x = item o budget' indent x := by
  induction budget using Nat.strongRecOn generalizing budget' indent x with
  | ind budget ih =>
    rw [item_eq, item_eq]
    by_cases hn : x.shown.nests = true
    · obtain ⟨b, rfl, hb⟩ := Item.levels_le_iff.mp h hn
      obtain ⟨b', rfl, hb'⟩ := Item.levels_le_iff.mp h' hn
      refine shape_congr fun s y hy => ?_
      have hm := Item.mem_parts_iff.mpr ⟨s, hy⟩
      exact ih b (Nat.lt_succ_self b) (hb y hm) (hb' y hm)
    · exact shape_of_not_nests hn

/-- A printer without a budget: it gives each item as many levels as it has. -/
def unlimited (o : Options) : Printer := fun indent x => item o x.levels indent x

theorem unlimited_eq (o : Options) (indent : Nat) (x : Item) :
    unlimited o indent x = itemWith o (some (unlimited o)) indent x := by
  rw [unlimited, item_eq, itemWith_eq]
  by_cases hn : x.shown.nests = true
  · obtain ⟨b, hb, hp⟩ := Item.levels_le_iff.mp (Nat.le_refl x.levels) hn
    rw [hb]
    exact shape_congr fun s y hy => item_eq_item (hp y (Item.mem_parts_iff.mpr ⟨s, hy⟩)) (Nat.le_refl _)
  · exact shape_of_not_nests hn

/-- It is the one printer that calls itself for all that is nested. -/
theorem eq_unlimited_iff : p = unlimited o ↔ ∀ indent x, p indent x = itemWith o (some p) indent x := by
  constructor
  · rintro rfl
    exact unlimited_eq o
  · intro h
    have hb : ∀ n indent (x : Item), x.encode.length < n → p indent x = unlimited o indent x := by
      intro n
      induction n with
      | zero => exact fun _ _ hx => absurd hx (Nat.not_lt_zero _)
      | succ n ih =>
        intro indent x hx
        rw [h, unlimited_eq, itemWith_eq, itemWith_eq]
        refine shape_congr fun s y hy => ih _ _ ?_
        have := Item.length_lt_of_mem_parts (Item.mem_parts_iff.mpr ⟨s, hy⟩)
        omega
    funext indent x
    exact hb _ indent x (Nat.lt_succ_self _)

/-! ## Decoded items -/

/-- An item that stands in another one, at any depth and also in embedded encodings. -/
inductive Occurs (z : Item) : Item → Prop
  | self : Occurs z z
  | part {s : Nat} {x y : Item} : Part s y x → Occurs z y → Occurs z x

theorem Part.nesting_lt {s : Nat} {x y : Item} (h : Part s y x) (hx : ∀ b, x ≠ .encodedCbor b) :
    y.nesting < x.nesting := by
  cases h with
  | element hy => exact Nat.lt_succ_of_le (Item.nestingItems_le_iff.mp (Nat.le_refl _) _ hy)
  | key he => exact Nat.lt_succ_of_le (Item.nestingEntries_le_iff.mp (Nat.le_refl _) _ he).1
  | value he => exact Nat.lt_succ_of_le (Item.nestingEntries_le_iff.mp (Nat.le_refl _) _ he).2
  | content | time => exact Nat.lt_succ_self _
  | embedded => exact absurd rfl (hx _)

theorem nesting_pos_of_nests {x : Item} (h : x.nests = true) : 0 < x.nesting := by
  cases x with
  | array | map | tagged | epochTime | encodedCbor => exact Nat.succ_pos _
  | _ => cases h

/-- Without embedded encodings, an item is printed on no more levels than it takes to decode it. -/
theorem levels_le_nesting {n : Nat} {x : Item} (hx : x.WellFormed) (ho : ∀ b, ¬Occurs (.encodedCbor b) x)
    (hn : x.nesting ≤ n) : x.levels ≤ n := by
  induction n generalizing x with
  | zero =>
    rw [Item.levels_le_iff, hx.shown_eq]
    intro h
    have := nesting_pos_of_nests h
    omega
  | succ n ih =>
    rw [Item.levels_le_iff, hx.shown_eq]
    intro _
    refine ⟨n, rfl, fun y hy => ?_⟩
    obtain ⟨s, hp⟩ := Item.mem_parts_iff.mp hy
    have hlt := hp.nesting_lt fun b hb => ho b (hb ▸ .self)
    exact ih (hp.wellFormed hx) (fun b h => ho b (.part hp h)) (by omega)

/-- **No text of a decoded item is cut off.** The printer without a budget, of which there is one, gives the same text
if the item holds no embedded encoding; and for any item that nests no deeper than the limit where it is printed. -/
theorem diagnostic_eq_unlimited (o : Options) :
    (∀ p : Printer, p = unlimited o ↔ ∀ indent x, p indent x = itemWith o (some p) indent x) ∧
    (∀ data x, decode data = .ok x → (∀ b, ¬Occurs (.encodedCbor b) x) →
      x.diagnostic o = String.ofList (unlimited o 0 x)) ∧
    ∀ x : Item, x.levels ≤ maxDepth → x.diagnostic o = String.ofList (unlimited o 0 x) := by
  have hl : ∀ x : Item, x.levels ≤ maxDepth → x.diagnostic o = String.ofList (unlimited o 0 x) := fun x h =>
    congrArg String.ofList (item_eq_item h (Nat.le_refl _))
  refine ⟨fun p => eq_unlimited_iff, fun data x hd ho => hl x ?_, hl⟩
  obtain ⟨b, rest, -, -, he⟩ := decodeWithDepth_ok_iff.mp (decode_eq_ok_iff.mp hd)
  exact levels_le_nesting (decode_wellFormed hd) ho he.nesting_le

/-- An array under a tag in an array, and arrays in an embedded encoding. -/
theorem diagnostic_eq_unlimited_arrays :
    let x : Item := .array [.tagged 2 (.array [] true)] false
    let y : Item := .array [.encodedCbor [0x81, 0x80]] false
    (decode x.encode = .ok x ∧ (∀ b, ¬Occurs (.encodedCbor b) x) ∧
      x.diagnostic .default = String.ofList (unlimited .default 0 x) ∧ x.diagnostic .default = "[\n  2([_])\n]") ∧
    (y.levels ≤ maxDepth ∧ y.diagnostic .default = String.ofList (unlimited .default 0 y) ∧
      y.diagnostic .default = "[24(<<[\n    []\n  ]>>)]") := by
  have hx : decode (Item.array [.tagged 2 (.array [] true)] false).encode =
      .ok (.array [.tagged 2 (.array [] true)] false) :=
    decode_encode ⟨⟨rfl, trivial⟩, trivial⟩ (by decide) (by decide)
  have ho : ∀ b, ¬Occurs (.encodedCbor b) (.array [.tagged 2 (.array [] true)] false) := by
    intro b h
    cases h with
    | part hp h =>
      cases hp with
      | element hy =>
        obtain rfl := List.mem_singleton.mp hy
        cases h with
        | part hp h =>
          cases hp
          cases h with
          | part hp h =>
            cases hp with
            | element hy => cases hy
  have hs : Item.encodeItems [.array [.array [] false] false] = [0x81, 0x80] := rfl
  have hd : decodeSequence [0x81, 0x80] = .ok [.array [.array [] false] false] := by
    rw [← hs]
    exact decodeSequence_encodeItems (List.forall_mem_singleton.mpr ⟨⟨trivial, trivial⟩, by decide⟩) (by decide)
  have hn : (Item.array [.array [] false] false).levels ≤ 254 :=
    Item.levels_le_iff.mpr fun _ => ⟨253, rfl, List.forall_mem_singleton.mpr <|
      Item.levels_le_iff.mpr fun _ => ⟨252, rfl, fun _ h => by cases h⟩⟩
  have he : (Item.encodedCbor [0x81, 0x80]).levels ≤ 255 := by
    refine Item.levels_le_iff.mpr fun _ => ⟨254, rfl, ?_⟩
    rw [Item.shown, Item.parts, hd]
    · exact List.forall_mem_singleton.mpr hn
    · exact fun _ h => by cases h
  have hy : (Item.array [.encodedCbor [0x81, 0x80]] false).levels ≤ maxDepth :=
    Item.levels_le_iff.mpr fun _ => ⟨255, rfl, List.forall_mem_singleton.mpr he⟩
  obtain ⟨-, hu, hl⟩ := diagnostic_eq_unlimited .default
  exact ⟨⟨hx, ho, hu _ _ hx ho, by decide +kernel⟩, hy, hl _ hy, by decide +kernel⟩

end Diagnostic

end Cbor
