import Cbor.Json.Token
import Cbor.Proofs.Alike
import Cbor.Proofs.Folding

/-!
# Quoted text

- The text that is printed for a string is a string of JSON text: scanning it gives the characters that were quoted and
  leaves what follows the closing quote (`scanString_escapes`). So it can be cancelled in front of anything
  (`text_append_inj`).
- `Framed f`: what `f` is given stands between two texts that do not depend on it. The text of an item with an open
  place frames the text that is quoted there (`framed_fill`), so strings are told apart wherever they are printed, as
  keys, as values, in arrays and under tags (`text_unambiguous`).
-/

namespace Cbor

namespace Json.Token

/-! ## Codes of hexadecimal digits -/

theorem code?_concat (digits : List Char) (c : Char) :
    code? (digits ++ [c]) = (code? digits).bind fun n => (Bytes.hexValue? c).map (16 * n + ·) := by
  simp [code?, List.foldlM_append]

theorem hexValue?_digitChar {d : Nat} (h : d < 16) : Bytes.hexValue? d.digitChar = some d := by
  have hd : ∀ d < 16, Bytes.hexValue? d.digitChar = some d := by decide
  exact hd d h

theorem code?_toDigits (n : Nat) : code? (Nat.toDigits 16 n) = some n := by
  induction n using Nat.strongRecOn with
  | ind n ih =>
    rw [Nat.toDigits_eq_if (by decide)]
    split
    · rename_i h
      show code? ([] ++ [n.digitChar]) = _
      rw [code?_concat, hexValue?_digitChar h]
      exact congrArg some (Nat.zero_add n)
    · rw [code?_concat, ih _ (by omega), hexValue?_digitChar (by omega)]
      exact congrArg some (Nat.div_add_mod n 16)

theorem code?_zeros (count : Nat) (digits : List Char) :
    code? (List.replicate count '0' ++ digits) = code? digits := by
  induction count with
  | zero => rfl
  | succ count ih => exact ih

theorem code?_hexDigits (width n : Nat) : code? (Text.hexDigits width n) = some n := by
  rw [Text.hexDigits, code?_zeros, code?_toDigits]

theorem length_hexDigits {width n : Nat} (hw : 0 < width) (h : n < 16 ^ width) :
    (Text.hexDigits width n).length = width := by
  have hl := (Nat.length_toDigits_le_iff (by decide) hw).mpr h
  rw [Text.hexDigits, List.length_append, List.length_replicate, Nat.sub_add_cancel hl]

/-! ## Units at the front of a string -/

section Units

variable {s rest : List Char} {units : List StringUnit}

theorem scanString_letter {letter c : Char} (hc : escaped? letter = some c) (h : scanString s = .ok (units, rest)) :
    scanString ('\\' :: letter :: s) = .ok (.char c :: units, rest) := by
  have hu : letter ≠ 'u' := by
    rintro rfl
    cases hc
  rw [scanString, hc, h]
  · rfl
  · intro _ _ _ _ _ he _
    exact hu he

theorem scanString_code {n : Nat} (hn : n < 0xD800) (h : scanString s = .ok (units, rest)) :
    scanString ('\\' :: 'u' :: (Text.hexDigits 4 n ++ s)) = .ok (.char (.ofNat n) :: units, rest) := by
  have hl : (Text.hexDigits 4 n).length = 4 := length_hexDigits (by decide) (by omega)
  have hc := code?_hexDigits 4 n
  have hu : unitOf n = .char (.ofNat n) := if_neg (by omega)
  generalize Text.hexDigits 4 n = digits at hl hc
  obtain ⟨a, digits, rfl⟩ := List.exists_cons_of_length_eq_add_one hl
  obtain ⟨b, digits, rfl⟩ := List.exists_cons_of_length_eq_add_one (Nat.succ.inj hl)
  obtain ⟨c, digits, rfl⟩ := List.exists_cons_of_length_eq_add_one (Nat.succ.inj (Nat.succ.inj hl))
  obtain ⟨d, rfl⟩ := List.length_eq_one_iff.mp (Nat.succ.inj (Nat.succ.inj (Nat.succ.inj hl)))
  show scanString ('\\' :: 'u' :: a :: b :: c :: d :: s) = _
  rw [scanString, hc, h, ← hu]
  rfl

theorem scanString_plain {c : Char} (hq : c ≠ '"') (hb : c ≠ '\\') (hc : 32 ≤ c.toNat)
    (h : scanString s = .ok (units, rest)) : scanString (c :: s) = .ok (.char c :: units, rest) := by
  have hn : ¬(decide (c.toNat < 32) || decide (c = '\\')) = true := by
    simp only [hb, decide_false, Bool.or_false, decide_eq_true_eq]
    omega
  rw [scanString, if_neg hn, h]
  · rfl
  · exact hq
  · intro _ _ _ _ _ he _
    exact hb he
  · intro _ _ he _
    exact hb he

end Units

end Json.Token

namespace Diagnostic

open Json (StringUnit)
open Json.Token

/-! ## Reading back -/

/-- Each character of quoted text is read back as itself, whatever follows. -/
theorem scanString_escape {s rest : List Char} {units : List StringUnit} (c : Char)
    (h : scanString s = .ok (units, rest)) : scanString (escape c ++ s) = .ok (.char c :: units, rest) := by
  by_cases hl : c = '"' ∨ c = '\\' ∨ c = '\n' ∨ c = '\r' ∨ c = '\t'
  · obtain rfl | rfl | rfl | rfl | rfl := hl <;> exact scanString_letter rfl h
  obtain ⟨hq, hb, hn, hr, ht⟩ := by simpa only [not_or] using hl
  rw [escape, if_neg hq, if_neg hb, if_neg hn, if_neg hr, if_neg ht]
  split
  · rename_i hc
    have hlt : c.toNat < 0xD800 := by
      simp only [Text.isControl, Bool.or_eq_true, Bool.and_eq_true, decide_eq_true_eq] at hc
      omega
    have hs := scanString_code hlt h
    rwa [Char.ofNat_toNat] at hs
  · rename_i hc
    simp only [Text.isControl, Bool.or_eq_true, decide_eq_true_eq, not_or] at hc
    exact scanString_plain hq hb (by omega) h

/-- Escaped characters are those of a string of JSON text, which ends at the quote behind them. -/
theorem scanString_escapes (s rest : List Char) :
    scanString (s.flatMap escape ++ '"' :: rest) = .ok (s.map .char, rest) := by
  induction s with
  | nil => rfl
  | cons c s ih =>
    rw [List.flatMap_cons, List.append_assoc]
    exact scanString_escape c ih

theorem text_append (s : String) (u : List Char) : text s ++ u = '"' :: (s.toList.flatMap escape ++ '"' :: u) := by
  rw [text, Text.quote, List.cons_append, List.append_assoc]
  rfl

/-- Quoted text says itself where it ends, so it can be cancelled in front of something else. -/
theorem text_append_inj {s t : String} {u v : List Char} (h : text s ++ u = text t ++ v) : s = t ∧ u = v := by
  rw [text_append, text_append] at h
  have hs := congrArg scanString (List.cons.inj h).2
  rw [scanString_escapes, scanString_escapes, Except.ok.injEq, Prod.mk.injEq] at hs
  have hc : s.toList = t.toList := (List.map_inj_right fun _ _ => StringUnit.char.inj).mp hs.1
  exact ⟨String.toList_inj.mp hc, hs.2⟩

/-! ## Frames -/

/-- What is given stands between two texts that do not depend on it. -/
def Framed (f : List Char → List Char) : Prop := ∃ before after, ∀ s, f s = before ++ (s ++ after)

theorem framed_id : Framed fun s => s := ⟨[], [], fun s => (List.append_nil s).symm⟩

namespace Framed

variable {f : List Char → List Char}

theorem between (h : Framed f) (before after : List Char) : Framed fun s => before ++ (f s ++ after) := by
  obtain ⟨b, a, h⟩ := h
  exact ⟨before ++ b, a ++ after, fun s => by simp only [h, List.append_assoc]⟩

theorem behind (h : Framed f) (before : List Char) : Framed fun s => before ++ f s := by
  simpa only [List.append_nil] using h.between before []

theorem intercalate (h : Framed f) (sep : List Char) (before after : List (List Char)) :
    Framed fun s => sep.intercalate (before ++ f s :: after) := by
  cases before with
  | nil =>
    simp only [List.nil_append, intercalate_cons]
    exact h.between [] _
  | cons first before =>
    have hs := h.between (first ++ (before.flatMap (sep ++ ·) ++ sep)) (after.flatMap (sep ++ ·))
    simpa only [List.cons_append, intercalate_cons, List.flatMap_append, List.flatMap_cons, List.append_assoc] using hs

theorem onOneLine (h : Framed f) (indefinite : Bool) (before after : List (List Char)) :
    Framed fun s => onOneLine indefinite (before ++ f s :: after) := by
  have hs := (h.intercalate [',', ' '] before after).behind (if indefinite then [' '] else [])
  simpa [Diagnostic.onOneLine, commaSeparated] using hs

theorem onLines (h : Framed f) (indent : Nat) (before after : List (List Char)) :
    Framed fun s => onLines indent (before ++ f s :: after) := by
  have hs := ((h.behind (newline (indent + 1))).intercalate [','] (before.map (newline (indent + 1) ++ ·))
    (after.map (newline (indent + 1) ++ ·))).between [] (newline indent)
  simpa [Diagnostic.onLines] using hs

theorem container (h : Framed f) (opening closing : Char) (indefinite inline : Bool) (indent : Nat)
    (before after : List (List Char)) :
    Framed fun s => container opening closing indefinite inline indent (before ++ f s :: after) := by
  have hb : ∀ {g : List Char → List Char}, Framed g →
      Framed fun s => opening :: ((if indefinite then ['_'] else []) ++ g s ++ [closing]) := fun hg => by
    simpa using hg.between (opening :: if indefinite then ['_'] else []) [closing]
  cases inline with
  | true => exact hb (h.onOneLine indefinite before after)
  | false => exact hb (h.onLines indent before after)

theorem tagged (h : Framed f) (tag : UInt64) : Framed fun s => tagged tag (f s) := by
  simpa [Diagnostic.tagged] using h.between (number tag.toNat ++ ['(']) [')']

section Containers

variable {o : Options} {p : Printer} {indent : Nat}

/-- An array or a map with a string in one of its elements; how it is laid out does not depend on the string. -/
theorem bracketed {α : Type} {x : String → Item} {opening closing : Char} {indefinite : Bool}
    {parts : String → List Item} {element : String → α} {write : α → List Char} {before after : List α}
    (hf : Framed f) (hx : ∀ s, Bracketed.of? (p (indent + 1)) (x s) =
      some ⟨opening, closing, indefinite, parts s, (before ++ element s :: after).map write⟩)
    (hw : ∀ s, write (element s) = f (text s))
    (hc : ∀ s t, (parts s).map Item.isCompound = (parts t).map Item.isCompound) :
    ∃ g, Framed g ∧ ∀ s, shape o (some p) indent (x s) = g (text s) := by
  refine ⟨_, hf.container opening closing indefinite (isInline o (parts "") (before.length + (after.length + 1)))
    indent (before.map write) (after.map write), fun s => ?_⟩
  rw [Bracketed.shape_eq (hx s)]
  simp only [List.map_append, List.map_cons, hw, List.length_append, List.length_cons, List.length_map,
    isInline_congr o (hc s "")]

theorem array {x : String → Item} (hf : Framed f) (hx : ∀ s, p (indent + 1) (x s) = f (text s))
    (hc : ∀ s t, (x s).isCompound = (x t).isCompound) (before after : List Item) (indefinite : Bool) :
    ∃ g, Framed g ∧ ∀ s, shape o (some p) indent (.array (before ++ x s :: after) indefinite) = g (text s) :=
  hf.bracketed (fun _ => rfl) hx fun s t => by simp [hc s t]

theorem map {key value : String → Item} (hf : Framed f)
    (hx : ∀ s, p (indent + 1) (key s) ++ ':' :: ' ' :: p (indent + 1) (value s) = f (text s))
    (hk : ∀ s t, (key s).isCompound = (key t).isCompound) (hv : ∀ s t, (value s).isCompound = (value t).isCompound)
    (before after : List (Item × Item)) (indefinite : Bool) :
    ∃ g, Framed g ∧ ∀ s, shape o (some p) indent (.map (before ++ (key s, value s) :: after) indefinite) = g (text s) :=
  hf.bracketed (fun _ => rfl) hx fun s t => by simp [hk s t, hv s t]

end Containers

end Framed

end Diagnostic

/-! ## Places -/

namespace Item.Context

/-- The number of arrays, maps and tags around the open place. -/
def depth : Context → Nat
  | .hole => 0
  | .element _ inner _ _ | .key _ inner _ _ _ | .value _ _ inner _ _ | .content _ inner | .time inner => inner.depth + 1

theorem isCompound_fill_text (c : Context) (s t : String) :
    (c.fill (.text s)).isCompound = (c.fill (.text t)).isCompound :=
  Diagnostic.Alike.isCompound_eq (R := fun x y => x.isCompound = y.isCompound) id (c.alike_fill rfl)

end Item.Context

namespace Diagnostic

/-- Wherever the budget reaches, a string is printed between quotes, and what is around it does not depend on it. -/
theorem framed_fill (o : Options) (budget : Nat) (c : Item.Context) (indent : Nat) :
    ∃ f, Framed f ∧ ∀ s, item o (budget + c.depth) indent (c.fill (.text s)) = f (text s) := by
  induction c generalizing indent with
  | hole => exact ⟨_, framed_id, fun s => item_eq o budget indent (.text s)⟩
  | element before inner after indefinite ih =>
    obtain ⟨f, hf, hx⟩ := ih (indent + 1)
    exact hf.array hx inner.isCompound_fill_text before after indefinite
  | key before inner value after indefinite ih =>
    obtain ⟨f, hf, hx⟩ := ih (indent + 1)
    have he := hf.between [] (':' :: ' ' :: item o (budget + inner.depth) (indent + 1) value)
    exact he.map (fun s => congrArg (· ++ _) (hx s)) inner.isCompound_fill_text (fun _ _ => rfl) before after indefinite
  | value before key inner after indefinite ih =>
    obtain ⟨f, hf, hx⟩ := ih (indent + 1)
    have he := (hf.behind [':', ' ']).behind (item o (budget + inner.depth) (indent + 1) key)
    exact he.map (fun s => congrArg (_ ++ ':' :: ' ' :: ·) (hx s)) (fun _ _ => rfl) inner.isCompound_fill_text before
      after indefinite
  | content tag inner ih =>
    obtain ⟨f, hf, hx⟩ := ih indent
    exact ⟨_, hf.tagged tag, fun s => congrArg (tagged tag) (hx s)⟩
  | time inner ih =>
    obtain ⟨f, hf, hx⟩ := ih indent
    exact ⟨_, hf.tagged epochTimeTag, fun s => congrArg (tagged epochTimeTag) (hx s)⟩

/-- **Quoted text is unambiguous.** A text string is printed between quotes; it says itself where it ends, whatever
follows, and holds no control character. So strings that are printed in the same place, as keys or as values, are never
printed alike. -/
theorem text_unambiguous :
    (∀ o budget indent s, item o budget indent (.text s) = text s) ∧
    (∀ s t u v, text s ++ u = text t ++ v ↔ s = t ∧ u = v) ∧
    (∀ s, Legible (text s)) ∧
    ∀ (o : Options) (c : Item.Context), c.depth ≤ maxDepth →
      ∀ s t, (c.fill (.text s)).diagnostic o = (c.fill (.text t)).diagnostic o ↔ s = t := by
  refine ⟨fun o budget indent s => item_eq o budget indent (.text s), fun s t u v => ⟨text_append_inj, ?_⟩,
    legible_text, fun o c hc s t => ⟨fun h => ?_, ?_⟩⟩
  · rintro ⟨rfl, rfl⟩
    rfl
  · obtain ⟨f, ⟨before, after, hf⟩, hx⟩ := framed_fill o (maxDepth - c.depth) c 0
    rw [Nat.sub_add_cancel hc] at hx
    have hi : item o maxDepth 0 (c.fill (.text s)) = item o maxDepth 0 (c.fill (.text t)) := String.ofList_inj.mp h
    rw [hx, hx, hf, hf] at hi
    exact (text_append_inj (List.append_cancel_left hi)).1
  · rintro rfl
    rfl

/-- A key with a quote and a control character, and one with the characters that the control is escaped by. -/
theorem text_unambiguous_keys :
    let c : Item.Context := .element [.null] (.key [(.text "k", .bool true)] .hole (.unsigned 1) [] true) [] false
    c.depth ≤ maxDepth ∧
      (c.fill (.text "\"\u0085")).diagnostic .compact = "[null, \x7b_ \"k\": true, \"\\\"\\u0085\": 1\x7d]" ∧
      (c.fill (.text "\"\\u0085")).diagnostic .compact = "[null, \x7b_ \"k\": true, \"\\\"\\\\u0085\": 1\x7d]" ∧
      (c.fill (.text "\"\u0085")).diagnostic .default ≠ (c.fill (.text "\"\\u0085")).diagnostic .default := by
  intro c
  have hc : c.depth ≤ maxDepth := by decide
  have hn : "\"\u0085" ≠ "\"\\u0085" := by decide
  obtain ⟨-, -, -, hp⟩ := text_unambiguous
  exact ⟨hc, by decide +kernel, by decide +kernel, fun h => hn ((hp .default c hc _ _).mp h)⟩

end Diagnostic

end Cbor
