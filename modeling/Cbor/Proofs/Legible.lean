import Cbor.Diagnostic

/-!
# Legible text

Text is legible if no control character is in it; then it stands on one line (`Legible.newline_not_mem`).

- Numbers, byte strings, quoted text, floats and the texts of errors are legible (`legible_number`, `legible_bytes`,
  `legible_text`, `legible_float`, `legible_message`), whatever the characters of the text that is quoted.
- Legible parts between legible separators are legible (`legible_intercalate`).
-/

namespace Cbor.Diagnostic

/-- No control character is in the text. -/
def Legible (s : List Char) : Prop := ∀ c ∈ s, Text.isControl c = false

instance (s : List Char) : Decidable (Legible s) := List.decidableBAll (fun c => Text.isControl c = false) s

theorem Legible.newline_not_mem {s : List Char} (h : Legible s) : '\n' ∉ s := fun hm => by
  have hc := h '\n' hm
  revert hc
  decide

/-! ## Lists of characters -/

@[simp] theorem legible_nil : Legible [] := fun _ h => nomatch h

@[simp] theorem legible_cons {c : Char} {s : List Char} :
    Legible (c :: s) ↔ Text.isControl c = false ∧ Legible s := List.forall_mem_cons

@[simp] theorem legible_append {s t : List Char} : Legible (s ++ t) ↔ Legible s ∧ Legible t :=
  List.forall_mem_append

theorem legible_concat {s t : String} (hs : Legible s.toList) (ht : Legible t.toList) : Legible (s ++ t).toList := by
  rw [String.toList_append]
  exact legible_append.mpr ⟨hs, ht⟩

theorem legible_replicate (n : Nat) {c : Char} (h : Text.isControl c = false) : Legible (List.replicate n c) :=
  fun _ hm => (List.eq_of_mem_replicate hm).symm ▸ h

theorem legible_flatMap {α : Type} {f : α → List Char} {xs : List α} (h : ∀ x ∈ xs, Legible (f x)) :
    Legible (xs.flatMap f) := fun c hm => by
  obtain ⟨x, hx, hc⟩ := List.mem_flatMap.mp hm
  exact h x hx c hc

/-- Each part but the first is behind a separator. -/
theorem intercalate_cons (sep part : List Char) (parts : List (List Char)) :
    sep.intercalate (part :: parts) = part ++ parts.flatMap (sep ++ ·) := by
  induction parts generalizing part with
  | nil => simp
  | cons part' parts ih => rw [List.intercalate_cons_cons, ih, List.flatMap_cons, List.append_assoc, List.append_assoc]

theorem legible_intercalate {sep : List Char} (hs : Legible sep) {parts : List (List Char)}
    (h : ∀ part ∈ parts, Legible part) : Legible (sep.intercalate parts) := by
  cases parts with
  | nil => simp
  | cons part parts =>
    obtain ⟨hp, hps⟩ := List.forall_mem_cons.mp h
    rw [intercalate_cons, legible_append]
    exact ⟨hp, legible_flatMap fun p hm => legible_append.mpr ⟨hs, hps p hm⟩⟩

/-! ## Digits -/

theorem isControl_digitChar {n : Nat} (h : n < 16) : Text.isControl n.digitChar = false := by
  have hd : ∀ n < 16, Text.isControl n.digitChar = false := by decide
  exact hd n h

theorem legible_toDigits {base : Nat} (hb : 1 < base) (hb' : base ≤ 16) (n : Nat) :
    Legible (Nat.toDigits base n) := by
  induction n using Nat.strongRecOn with
  | ind n ih =>
    rw [Nat.toDigits_eq_if hb]
    split
    · exact legible_cons.mpr ⟨isControl_digitChar (by omega), legible_nil⟩
    · have hm : n % base < base := Nat.mod_lt n (by omega)
      have hd : n / base < n := Nat.div_lt_self (by omega) hb
      exact legible_append.mpr ⟨ih _ hd, legible_cons.mpr ⟨isControl_digitChar (by omega), legible_nil⟩⟩

theorem legible_decimal (n : Nat) : Legible (Nat.toDigits 10 n) := legible_toDigits (by decide) (by decide) n

theorem legible_natural (n : Nat) : Legible (toString n).toList := by
  have h : (toString n).toList = Nat.toDigits 10 n := String.toList_ofList
  rw [h]
  exact legible_decimal n

theorem legible_number (i : Int) : Legible (number i) := by
  cases i with
  | ofNat n => exact legible_natural n
  | negSucc n =>
    exact legible_concat (by decide) (legible_natural (n + 1))

/-! ## Leaves -/

theorem isControl_hexDigit {n : Nat} (h : n < 16) : Text.isControl (Bytes.hexDigit n) = false := by
  have hd : ∀ n < 16, Text.isControl (Bytes.hexDigit n) = false := by decide
  exact hd n h

theorem legible_hexChars (b : Bytes) : Legible b.hexChars := by
  refine legible_flatMap fun x _ => ?_
  have hx := x.toNat_lt
  simp only [legible_cons, legible_nil, and_true]
  exact ⟨isControl_hexDigit (by omega), isControl_hexDigit (by omega)⟩

theorem legible_bytes (o : Options) (b : Bytes) : Legible (bytes o b) := by
  have hn := legible_number b.length
  have hs : Legible " bytes>".toList := by decide
  have hb := legible_hexChars b
  unfold bytes
  repeat' split
  · decide
  · rw [legible_cons, legible_append]
    exact ⟨by decide, hn, hs⟩
  · simp only [legible_cons, legible_append, legible_nil, and_true]
    exact ⟨by decide, by decide, hb, by decide⟩

theorem legible_hexDigits (width n : Nat) : Legible (Text.hexDigits width n) := by
  rw [Text.hexDigits, legible_append]
  exact ⟨legible_replicate _ (by decide), legible_toDigits (by decide) (by decide) n⟩

/-- A control is written by an escape. -/
theorem legible_escape (c : Char) : Legible (escape c) := by
  unfold escape
  repeat' split
  · decide
  · decide
  · decide
  · decide
  · decide
  · simp only [legible_cons]
    exact ⟨by decide, by decide, legible_hexDigits 4 _⟩
  · rename_i hc
    simpa using hc

theorem legible_text (s : String) : Legible (text s) := by
  rw [text, Text.quote, legible_cons, legible_append]
  exact ⟨by decide, legible_flatMap fun c _ => legible_escape c, by decide⟩

theorem legible_simple (s : Simple) : Legible s.text.toList :=
  legible_concat (legible_concat (by decide) (legible_natural _)) (by decide)

/-! ## Floats -/

theorem legible_plain {digits : List Char} (h : Legible digits) (e : Int) : Legible (Decimal.plain digits e) := by
  have hz : ∀ n, Legible (List.replicate n '0') := fun n => legible_replicate n (by decide)
  have ht : ∀ n, Legible (digits.take n) := fun n c hc => h c (List.mem_of_mem_take hc)
  have hd : ∀ n, Legible (digits.drop n) := fun n c hc => h c (List.mem_of_mem_drop hc)
  unfold Decimal.plain
  split
  · simp only [legible_cons, legible_append]
    exact ⟨by decide, by decide, hz _, h⟩
  · simp only [legible_cons, legible_append]
    refine ⟨⟨ht _, hz _⟩, by decide, ?_⟩
    split
    · decide
    · exact hd _

theorem legible_scientific (plus : Bool) {digits : List Char} (h : Legible digits) (e : Int) :
    Legible (Decimal.scientific plus digits e) := by
  have hs : Legible (if e < 0 then ['-'] else if plus then ['+'] else []) := by
    repeat' split
    all_goals decide
  have he : Legible ('e' :: ((if e < 0 then ['-'] else if plus then ['+'] else []) ++ Nat.toDigits 10 e.natAbs)) :=
    legible_cons.mpr ⟨by decide, legible_append.mpr ⟨hs, legible_decimal _⟩⟩
  refine legible_append.mpr ⟨?_, he⟩
  split
  · simp only [legible_cons] at h ⊢
    exact ⟨h.1, by decide, h.2⟩
  · exact h

theorem legible_writeDecimal (style : Decimal.Style) (d : Decimal) : Legible (style.writeDecimal d) := by
  simp only [Decimal.Style.writeDecimal]
  split
  · exact legible_plain (legible_decimal _) _
  · exact legible_scientific _ (legible_decimal _) _

theorem legible_write (style : Decimal.Style) (f : Binary.Format) (bits : Nat) : Legible (style.write f bits) := by
  have hm : ∀ m, Legible (if m = 0 then ['0', '.', '0'] else style.writeDecimal (Decimal.shortest f style.tie m)) :=
    fun m => by
      split
      · decide
      · exact legible_writeDecimal _ _
  unfold Decimal.Style.write
  split
  · exact legible_cons.mpr ⟨by decide, hm _⟩
  · exact hm _

theorem legible_float (f : Binary.Format) (bits : Nat) : Legible (float f bits) := by
  unfold float
  repeat' split
  · decide
  · decide
  · decide
  · exact legible_write _ _ _

/-! ## Errors -/

theorem legible_message (e : DecodeError) : Legible e.message.toList := by
  cases e with
  | outOfData _ | strayBreak _ | invalidChunk _ | reservedSimple _ | invalidUtf8 _ | stalled _ =>
    exact legible_concat (by decide +kernel) (legible_natural _)
  | reservedInfo info offset =>
    have hi := legible_concat (by decide +kernel : Legible "Invalid additional-info value ".toList)
      (legible_natural info)
    exact legible_concat (legible_concat hi (by decide)) (legible_natural offset)
  | tooDeep => decide
  | trailing _ => exact legible_concat (legible_natural _) (by decide +kernel)

theorem legible_error (e : DecodeError) : Legible (error e.message) :=
  legible_concat (by decide) (legible_message e)

end Cbor.Diagnostic
