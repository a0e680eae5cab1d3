import Cbor.Proofs.Rendering

/-!
# The lines of a container

- `Shows`: an item is printed in the course of printing another one, and its text stands in the text of that one
  (`Shows.isInfix`).
- `OnLines`, `Bracketed.Folds`: a container is printed on one line, or each of its elements begins a line and so does
  its closing bracket.
- An item that is no container and no encoded data, tags aside, takes one line (`legible_of_scalar`). Encoded data can
  take several, also in a container that stands on one line for its few elements; then, and only then, a container is
  neither on one line nor laid out element by element (`folds_iff_of_inline`, `folds_of_not_inline`,
  `Shows.folds_iff`).
-/

namespace Cbor

/-- Encoded data, in a byte string or as it is, under any number of tags. -/
def Item.isEncoded : Item → Bool
  | .encodedCbor _ | .raw _ => true
  | .tagged _ content | .epochTime content => content.isEncoded
  | _ => false

namespace Diagnostic

/-! ## Items within the text of an item -/

/-- To print an item under a budget at an indentation, another one is printed. Both are given as they are shown. -/
inductive Shows : (budget indent : Nat) → Item → (budget' indent' : Nat) → Item → Prop
  | self {budget indent : Nat} {x : Item} : Shows budget indent x budget indent x.shown
  | part {budget indent step budget' indent' : Nat} {x y z : Item} : Part step y x.shown →
      Shows budget (indent + step) y budget' indent' z → Shows (budget + 1) indent x budget' indent' z

theorem isInfix_intercalate {sep part : List Char} {parts : List (List Char)} (h : part ∈ parts) :
    part <:+: sep.intercalate parts := by
  cases parts with
  | nil => cases h
  | cons first parts =>
    rw [intercalate_cons]
    obtain rfl | h := List.mem_cons.mp h
    · exact (List.prefix_append _ _).isInfix
    · have hs : part <:+: sep ++ part := (List.suffix_append _ _).isInfix
      exact List.infix_append_of_infix_right (hs.trans (List.infix_of_mem_flatten (List.mem_map_of_mem h)))

theorem isInfix_container (opening closing : Char) (indefinite inline : Bool) (indent : Nat) {text : List Char}
    {elements : List (List Char)} (h : text ∈ elements) :
    text <:+: container opening closing indefinite inline indent elements := by
  have hl : text <:+: (if inline then onOneLine indefinite elements else onLines indent elements) := by
    cases inline with
    | true => exact List.infix_append_of_infix_right (isInfix_intercalate h)
    | false =>
      have hn : text <:+: newline (indent + 1) ++ text := (List.suffix_append _ _).isInfix
      exact List.infix_append_of_infix_left (hn.trans (isInfix_intercalate (List.mem_map_of_mem h)))
  exact List.infix_cons (List.infix_append_of_infix_left (List.infix_append_of_infix_right hl))

theorem isInfix_shape (o : Options) (p : Printer) (indent : Nat) {step : Nat} {x y : Item} (h : Part step y x) :
    p (indent + step) y <:+: shape o (some p) indent x := by
  have hb : ∀ d, Bracketed.of? (p (indent + 1)) x = some d → y ∈ d.parts →
      p (indent + 1) y <:+: shape o (some p) indent x := by
    intro d hd hy
    obtain ⟨text, ht, hs⟩ := Bracketed.exists_element hd hy
    rw [Bracketed.shape_eq hd]
    exact hs.trans (isInfix_container _ _ _ _ _ ht)
  have ht : ∀ (tag : UInt64) (content : List Char), content <:+: tagged tag content := fun tag content =>
    List.infix_append_of_infix_right (List.infix_cons (List.prefix_append _ _).isInfix)
  cases h with
  | element hy => exact hb _ rfl (Bracketed.mem_of_part rfl (.element hy))
  | key he => exact hb _ rfl (Bracketed.mem_of_part rfl (.key he))
  | value he => exact hb _ rfl (Bracketed.mem_of_part rfl (.value he))
  | content => exact ht _ _
  | time => exact ht _ _
  | @embedded b items y hd hy =>
    have he : p indent y <:+: shape.embedded indent b p := by
      rw [shape.embedded, hd]
      exact isInfix_intercalate (List.mem_map_of_mem hy)
    have hc : shape.embedded indent b p <:+: '<' :: '<' :: (shape.embedded indent b p ++ ['>', '>']) :=
      List.infix_cons (List.infix_cons (List.prefix_append _ _).isInfix)
    exact (he.trans hc).trans (ht _ _)

theorem Shows.isInfix (o : Options) {budget indent budget' indent' : Nat} {x z : Item}
    (h : Shows budget indent x budget' indent' z) : item o budget' indent' z <:+: item o budget indent x := by
  induction h with
  | self => simp only [item_shown, List.infix_refl]
  | part hp _ ih =>
    rw [item_eq o (_ + 1)]
    exact ih.trans (isInfix_shape o _ _ hp)

/-! ## Lines -/

/-- Behind the opening bracket and the mark, each element begins a line, perhaps with a comma at its end, and so does
the closing bracket. -/
inductive OnLines (closing : Char) : (elements : List (List Char)) → List Char → Prop
  | nil (blanks : Nat) : OnLines closing [] ('\n' :: (List.replicate blanks ' ' ++ [closing]))
  | cons (blanks : Nat) {text sep rest : List Char} {elements : List (List Char)} : sep = [] ∨ sep = [','] →
      OnLines closing elements rest →
      OnLines closing (text :: elements) ('\n' :: (List.replicate blanks ' ' ++ (text ++ (sep ++ rest))))

/-- A container with the text is on one line, or each of its elements begins a line and so does its closing bracket. -/
def Bracketed.Folds (d : Bracketed) (text : List Char) : Prop :=
  '\n' ∉ text ∨
    ∃ rest, text = d.opening :: ((if d.indefinite then ['_'] else []) ++ rest) ∧ OnLines d.closing d.elements rest

theorem onLines_onLines (closing : Char) (indent : Nat) {elements : List (List Char)} (h : elements ≠ []) :
    OnLines closing elements (onLines indent elements ++ [closing]) := by
  obtain ⟨text, elements, rfl⟩ := List.exists_cons_of_ne_nil h
  have he : ∀ texts : List (List Char), onLines indent (text :: texts) ++ [closing] =
      [','].intercalate ((text :: texts).map (newline (indent + 1) ++ ·)) ++ (newline indent ++ [closing]) :=
    fun texts => List.append_assoc _ _ _
  rw [he]
  clear he h
  induction elements generalizing text with
  | nil =>
    have h : OnLines closing [text] (newline (indent + 1) ++ (text ++ ([] ++ (newline indent ++ [closing])))) :=
      .cons _ (.inl rfl) (.nil _)
    simpa using h
  | cons text' elements ih =>
    have h : OnLines closing (text :: text' :: elements) (newline (indent + 1) ++ (text ++ ([','] ++
        ([','].intercalate ((text' :: elements).map (newline (indent + 1) ++ ·)) ++ (newline indent ++ [closing]))))) :=
      .cons _ (.inr rfl) (ih text')
    simpa [List.intercalate_cons_cons] using h

/-- Each element takes a line break of its own. -/
theorem OnLines.count_lt {closing : Char} {elements : List (List Char)} {rest : List Char}
    (h : OnLines closing elements rest) : elements.flatten.count '\n' < rest.count '\n' := by
  induction h with
  | nil => simp
  | cons _ _ _ ih =>
    simp only [List.flatten_cons, List.count_append, List.count_cons_self]
    omega

theorem count_intercalate {c : Char} {sep : List Char} (h : c ∉ sep) (parts : List (List Char)) :
    (sep.intercalate parts).count c = parts.flatten.count c := by
  cases parts with
  | nil => rfl
  | cons part parts =>
    rw [intercalate_cons, List.flatten_cons, List.count_append, List.count_append]
    congr 1
    induction parts with
    | nil => rfl
    | cons part parts ih =>
      rw [List.flatMap_cons, List.count_append, List.count_append, List.count_eq_zero_of_not_mem h, Nat.zero_add, ih,
        List.flatten_cons, List.count_append]

theorem count_onOneLine (indefinite : Bool) (elements : List (List Char)) :
    (onOneLine indefinite elements).count '\n' = elements.flatten.count '\n' := by
  have hm : (if indefinite && !elements.isEmpty then [' '] else []).count '\n' = 0 := by split <;> rfl
  rw [onOneLine, commaSeparated, List.count_append, hm, count_intercalate (by decide), Nat.zero_add]

/-! ## Containers -/

theorem part_of_scalar {step : Nat} {x y : Item} (h : Part step y x) (hc : x.isCompound = false)
    (he : x.isEncoded = false) : y.isCompound = false ∧ y.isEncoded = false := by
  cases h with
  | element | key | value => cases hc
  | content | time => exact ⟨hc, he⟩
  | embedded => cases he

/-- What is no container and no encoded data takes one line. -/
theorem legible_of_scalar (o : Options) (budget indent : Nat) {x : Item} (hc : x.isCompound = false)
    (he : x.isEncoded = false) : Legible (item o budget indent x) := by
  induction budget using Nat.strongRecOn generalizing indent x with
  | ind budget ih =>
    have hs : x.shown = x := by
      cases x with
      | raw => cases he
      | _ => rfl
    rw [item_eq, hs]
    refine legible_shape (fun p d hd => ?_) fun p h step y hy => ?_
    · rw [Bracketed.isCompound_eq hd] at hc
      cases hc
    · obtain ⟨hc', he'⟩ := part_of_scalar hy hc he
      cases budget with
      | zero => cases h
      | succ budget =>
        cases h
        exact ih budget (Nat.lt_succ_self budget) _ hc' he'

section Container

variable {o : Options} {budget indent : Nat} {x : Item} {d : Bracketed}

theorem item_of_bracketed (hd : Bracketed.of? (item o budget (indent + 1)) x = some d) :
    item o (budget + 1) indent x = container d.opening d.closing d.indefinite
      (isInline o d.parts d.elements.length) indent d.elements := by
  rw [item_eq, Bracketed.shown_eq hd]
  exact Bracketed.shape_eq hd

/-- A container that takes several lines gives one to each of its elements. -/
theorem folds_of_not_inline (hd : Bracketed.of? (item o budget (indent + 1)) x = some d)
    (hi : isInline o d.parts d.elements.length = false) : d.Folds (item o (budget + 1) indent x) := by
  have hn : d.elements ≠ [] := by
    intro he
    -- without elements there are no parts, so the container would be on one line
    have hp : d.parts = [] := List.eq_nil_iff_forall_not_mem.mpr fun y hy => by
      obtain ⟨text, ht, -⟩ := Bracketed.exists_element hd hy
      rw [he] at ht
      cases ht
    rw [he, hp, isInline] at hi
    revert hi
    cases o.pretty <;> decide
  refine .inr ⟨onLines indent d.elements ++ [d.closing], ?_, onLines_onLines d.closing indent hn⟩
  rw [item_of_bracketed hd, hi, container, if_neg Bool.false_ne_true, List.append_assoc]

theorem newline_mem_elements_iff (hd : Bracketed.of? (item o budget (indent + 1)) x = some d) :
    '\n' ∈ d.elements.flatten ↔ ∃ y ∈ d.parts, '\n' ∈ item o budget (indent + 1) y := by
  constructor
  · intro h
    obtain ⟨text, ht, hm⟩ := List.mem_flatten.mp h
    obtain ⟨y, hy, rfl⟩ | ⟨k, hk, v, hv, rfl⟩ := Bracketed.text_of_mem hd ht
    · exact ⟨y, hy, hm⟩
    · obtain hm | hm := List.mem_append.mp hm
      · exact ⟨k, hk, hm⟩
      · simp only [List.mem_cons, (by decide : '\n' ≠ ':'), (by decide : '\n' ≠ ' '), false_or] at hm
        exact ⟨v, hv, hm⟩
  · rintro ⟨y, hy, hm⟩
    obtain ⟨text, ht, hs⟩ := Bracketed.exists_element hd hy
    exact List.mem_flatten.mpr ⟨text, ht, hs.mem hm⟩

/-- A container on one line is on one line indeed unless the text of a part is not. -/
theorem folds_iff_of_inline (hd : Bracketed.of? (item o budget (indent + 1)) x = some d)
    (hi : isInline o d.parts d.elements.length = true) :
    d.Folds (item o (budget + 1) indent x) ↔ ¬∃ y ∈ d.parts, '\n' ∈ item o budget (indent + 1) y := by
  have hb : ∀ c, Text.isControl c = false → [c].count '\n' = 0 := fun c hc =>
    List.count_eq_zero_of_not_mem (legible_cons.mpr ⟨hc, legible_nil⟩).newline_not_mem
  have hm : (if d.indefinite then ['_'] else []).count '\n' = 0 := by split <;> rfl
  obtain ⟨ho, hc⟩ := Bracketed.legible_brackets hd
  have hr : (onOneLine d.indefinite d.elements ++ [d.closing]).count '\n' = d.elements.flatten.count '\n' := by
    rw [List.count_append, count_onOneLine, hb _ hc, Nat.add_zero]
  have ht : item o (budget + 1) indent x = [d.opening] ++ ((if d.indefinite then ['_'] else []) ++
      (onOneLine d.indefinite d.elements ++ [d.closing])) := by
    rw [item_of_bracketed hd, hi, container, if_pos rfl, List.append_assoc, List.singleton_append]
  have hn : '\n' ∉ item o (budget + 1) indent x ↔ '\n' ∉ d.elements.flatten := by
    rw [← List.count_eq_zero, ← List.count_eq_zero, ht, List.count_append, List.count_append, hb _ ho, hm, hr,
      Nat.zero_add, Nat.zero_add]
  rw [← newline_mem_elements_iff hd, ← hn]
  refine ⟨fun hf => hf.resolve_right ?_, .inl⟩
  -- a line break for each element would be one more than there are
  rintro ⟨rest, he, hl⟩
  rw [ht, List.singleton_append, List.cons.injEq, List.append_cancel_left_eq] at he
  have hlt := hl.count_lt
  rw [← he.2, hr] at hlt
  exact Nat.lt_irrefl _ hlt

end Container

theorem isInline_pretty {l : Bool} {parts : List Item} {count : Nat} :
    isInline ⟨true, l⟩ parts count = true ↔ count < inlineLimit ∧ ∀ z ∈ parts, z.isCompound = false := by
  simp [isInline, and_comm]

end Diagnostic

/-- **Where several lines are allowed, a container that is printed within an item folds, on one line or with a line for
each element, unless it is short, holds no container, and holds encoded data whose own text takes several lines.** In
that case it does not fold. -/
theorem Diagnostic.Shows.folds_iff {x y : Item} {l : Bool} {budget indent : Nat} {d : Bracketed}
    (hs : Shows maxDepth 0 x (budget + 1) indent y)
    (hd : Bracketed.of? (item ⟨true, l⟩ budget (indent + 1)) y = some d) :
    item ⟨true, l⟩ (budget + 1) indent y <:+: (x.diagnostic ⟨true, l⟩).toList ∧
    (d.Folds (item ⟨true, l⟩ (budget + 1) indent y) ↔
      ¬(d.elements.length < inlineLimit ∧ (∀ z ∈ d.parts, z.isCompound = false) ∧
        ∃ z ∈ d.parts, z.isEncoded = true ∧ '\n' ∈ item ⟨true, l⟩ budget (indent + 1) z)) := by
  constructor
  · rw [Item.diagnostic, String.toList_ofList]
    exact hs.isInfix _
  by_cases hi : isInline ⟨true, l⟩ d.parts d.elements.length = true
  · obtain ⟨hl, hc⟩ := isInline_pretty.mp hi
    rw [folds_iff_of_inline hd hi, not_iff_not]
    constructor
    · rintro ⟨z, hz, hm⟩
      refine ⟨hl, hc, z, hz, Bool.of_not_eq_false fun he => ?_, hm⟩
      exact (legible_of_scalar _ budget (indent + 1) (hc z hz) he).newline_not_mem hm
    · rintro ⟨-, -, z, hz, -, hm⟩
      exact ⟨z, hz, hm⟩
  · refine iff_of_true (folds_of_not_inline hd (Bool.of_not_eq_true hi)) ?_
    rintro ⟨hl, hc, -⟩
    exact hi (isInline_pretty.mpr ⟨hl, hc⟩)

/-- The array in the data that is an element of another array: it takes three lines and folds. -/
theorem Diagnostic.Shows.folds_payload :
    ∃ d, Bracketed.of? (item .default 253 2) (.array [.array [.unsigned 0] false] false) = some d ∧
      "[\n    [0]\n  ]".toList <:+:
        ((Item.array [.encodedCbor [0x81, 0x81, 0x00]] false).diagnostic .default).toList ∧
      d.Folds "[\n    [0]\n  ]".toList := by
  have hs : Shows maxDepth 0 (.array [.encodedCbor [0x81, 0x81, 0x00]] false) (253 + 1) 1
      (.array [.array [.unsigned 0] false] false) :=
    .part (.element List.mem_cons_self) (.part (.embedded rfl List.mem_cons_self) .self)
  have ht : item .default (253 + 1) 1 (.array [.array [.unsigned 0] false] false) = "[\n    [0]\n  ]".toList := by
    decide +kernel
  obtain ⟨hi, hf⟩ := folds_iff hs rfl
  refine ⟨_, rfl, ht ▸ hi, ht ▸ hf.mpr ?_⟩
  -- the array holds a container
  exact fun hn => Bool.noConfusion (hn.2.1 _ List.mem_cons_self)

/-- The array around that data does not fold. -/
theorem Diagnostic.Shows.not_folds_embedded :
    ∃ (x : Item) (d : Bracketed), x = .array [.encodedCbor [0x81, 0x81, 0x00]] false ∧
      Shows maxDepth 0 x (255 + 1) 0 x ∧ Bracketed.of? (item .default 255 1) x = some d ∧
      x.diagnostic .default = "[24(<<[\n    [0]\n  ]>>)]" ∧ ¬d.Folds (x.diagnostic .default).toList := by
  have ht : '\n' ∈ item .default 255 1 (.encodedCbor [0x81, 0x81, 0x00]) := by decide +kernel
  refine ⟨_, _, rfl, .self, rfl, by decide +kernel, fun hf => ?_⟩
  rw [Item.diagnostic, String.toList_ofList] at hf
  exact (folds_iff_of_inline rfl rfl).mp hf ⟨_, List.mem_cons_self, ht⟩

end Cbor
