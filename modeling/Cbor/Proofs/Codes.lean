import Mathlib.Data.List.TakeWhile
import Cbor.Proofs.Creation

/-!
# Codes and names of kinds

What texts name a kind is said without the functions that read them.

- A numeral is the digits of a number below 256, behind zeros and perhaps a plus sign (`numeral?_eq_some_iff`). As there
  is no point in one, a code is split at its only point (`readCode?_eq_some_iff`).
- `Spells` says which numbers a code is made of, and `Denotes` which kind they stand for. An additional info under major
  type 7 stands for the kind that is found below `special`; no other kind is bound to it (`resolve_some_eq_ok_iff`,
  `additionalInfo?_inj`).
- `parse_decided`: the codes and the names are the texts that name a kind, and any other text is refused with itself.
-/

namespace Cbor.Kind

open Outcome (eq_error_iff mapError_eq_ok_iff eq_of_mapError_eq_error)

/-! ## Numerals -/

/-- The decimal digits of a number, behind any number of zeros. -/
def IsDigits (w : List Char) (n : Nat) : Prop := ∃ zeros, w = List.replicate zeros '0' ++ Nat.toDigits 10 n

/-- A numeral of a number below 256, with a plus sign or without one. -/
inductive Numeral : List Char → Nat → Prop
  | unsigned {w : List Char} {n : Nat} : IsDigits w n → n < 256 → Numeral w n
  | signed {w : List Char} {n : Nat} : IsDigits w n → n < 256 → Numeral ('+' :: w) n

theorem exists_digitChar {c : Char} (h : c.isDigit = true) : ∃ d < 10, c = d.digitChar := by
  obtain ⟨hl, hu⟩ : 48 ≤ c.toNat ∧ c.toNat ≤ 57 := Char.isDigit_iff_toNat.mp h
  refine ⟨c.toNat - 48, by omega, Char.toNat_inj.mp ?_⟩
  rw [Nat.toNat_digitChar_of_lt_ten (by omega)]
  omega

namespace IsDigits

variable {w : List Char} {n : Nat}

theorem digit {d : Nat} (h : d < 10) : IsDigits [d.digitChar] d := ⟨0, (Nat.toDigits_of_lt_base h).symm⟩

theorem concat (h : IsDigits w n) {d : Nat} (hd : d < 10) : IsDigits (w ++ [d.digitChar]) (10 * n + d) := by
  obtain ⟨zeros, rfl⟩ := h
  have hq : (10 * n + d) / 10 = n := by omega
  have hr : (10 * n + d) % 10 = d := by omega
  rw [IsDigits, Nat.toDigits_eq_if (n := 10 * n + d) (by decide), hq, hr]
  split
  · -- the digit zero in front of the new one is one more zero
    obtain rfl : n = 0 := by omega
    refine ⟨zeros + 1, ?_⟩
    rw [Nat.mul_zero, Nat.zero_add, List.replicate_succ']
    rfl
  · exact ⟨zeros, List.append_assoc _ _ _⟩

theorem append (h : IsDigits w n) {digits : List Char} (hd : ∀ c ∈ digits, c.isDigit = true) :
    IsDigits (w ++ digits) (Nat.ofDigitChars 10 digits n) := by
  induction digits generalizing w n with
  | nil => rwa [List.append_nil]
  | cons c digits ih =>
    obtain ⟨hc, hds⟩ := List.forall_mem_cons.mp hd
    obtain ⟨d, hl, rfl⟩ := exists_digitChar hc
    rw [List.append_cons, Nat.ofDigitChars_cons_digitChar_of_lt_ten hl]
    exact ih (h.concat hl) hds

theorem isDigit_of_mem (h : IsDigits w n) {c : Char} (hc : c ∈ w) : c.isDigit = true := by
  obtain ⟨zeros, rfl⟩ := h
  rcases List.mem_append.mp hc with hz | hd
  · rw [List.eq_of_mem_replicate hz]
    rfl
  · exact Nat.isDigit_of_mem_toDigits (by decide) (by decide) hd

end IsDigits

theorem isDigits_iff {w : List Char} {n : Nat} :
    IsDigits w n ↔ w ≠ [] ∧ (∀ c ∈ w, c.isDigit = true) ∧ Nat.ofDigitChars 10 w 0 = n := by
  constructor
  · intro h
    refine ⟨?_, fun c hc => h.isDigit_of_mem hc, ?_⟩
    · obtain ⟨zeros, rfl⟩ := h
      exact fun he => Nat.toDigits_ne_nil (List.append_eq_nil_iff.mp he).2
    · obtain ⟨zeros, rfl⟩ := h
      rw [Nat.ofDigitChars_append, Nat.ofDigitChars_replicate_zero, Nat.mul_zero, Nat.ofDigitChars_ten_toDigits]
  · rintro ⟨hn, hd, rfl⟩
    obtain ⟨c, digits, rfl⟩ := List.exists_cons_of_ne_nil hn
    obtain ⟨hc, hds⟩ := List.forall_mem_cons.mp hd
    obtain ⟨d, hl, rfl⟩ := exists_digitChar hc
    rw [Nat.ofDigitChars_cons_digitChar_of_lt_ten hl, Nat.mul_zero, Nat.zero_add]
    exact (IsDigits.digit hl).append hds

/-- What is read of the digits of a numeral. -/
theorem value?_eq_some_iff {w : List Char} {n : Nat} : (if w.isEmpty || !w.all Char.isDigit then none
    else if Nat.ofDigitChars 10 w 0 < 256 then some (Nat.ofDigitChars 10 w 0) else none) = some n ↔
      IsDigits w n ∧ n < 256 := by
  have hb : ¬(w.isEmpty || !w.all Char.isDigit) = true ↔ w ≠ [] ∧ ∀ c ∈ w, c.isDigit = true := by simp
  rw [Option.ite_none_left_eq_some, Option.ite_none_right_eq_some, isDigits_iff, hb, Option.some_inj]
  constructor
  · rintro ⟨⟨hn, hd⟩, hl, rfl⟩
    exact ⟨⟨hn, hd, rfl⟩, hl⟩
  · rintro ⟨⟨hn, hd, rfl⟩, hl⟩
    exact ⟨⟨hn, hd⟩, hl, rfl⟩

theorem numeral?_eq_some_iff {s : List Char} {n : Nat} : numeral? s = some n ↔ Numeral s n := by
  by_cases hs : ∃ w, s = '+' :: w
  · obtain ⟨w, rfl⟩ := hs
    refine value?_eq_some_iff.trans ⟨fun h => .signed h.1 h.2, fun h => ?_⟩
    cases h with
    | unsigned hd _ => exact absurd (hd.isDigit_of_mem List.mem_cons_self) (by decide)
    | signed hd hl => exact ⟨hd, hl⟩
  · have hu : numeral? s = some n ↔ IsDigits s n ∧ n < 256 := by
      rw [← value?_eq_some_iff, numeral?]
      · rfl
      · exact fun w he => hs ⟨w, he⟩
    refine hu.trans ⟨fun h => .unsigned h.1 h.2, fun h => ?_⟩
    cases h with
    | unsigned hd hl => exact ⟨hd, hl⟩
    | signed _ _ => exact absurd ⟨_, rfl⟩ hs

theorem Numeral.point_not_mem {s : List Char} {n : Nat} (h : Numeral s n) : '.' ∉ s := by
  have hd : ∀ {w : List Char} {n : Nat}, IsDigits w n → '.' ∉ w := fun hw hc =>
    absurd (hw.isDigit_of_mem hc) (by decide)
  cases h with
  | unsigned hw _ => exact hd hw
  | signed hw _ => exact List.not_mem_cons_of_ne_of_not_mem (by decide) (hd hw)

/-! ## Codes -/

/-- A hash sign and a numeral, and perhaps a point and another numeral. -/
inductive Spells : List Char → Nat → Option Nat → Prop
  | major {w : List Char} {major : Nat} : Numeral w major → Spells ('#' :: w) major none
  | info {w v : List Char} {major info : Nat} : Numeral w major → Numeral v info →
      Spells ('#' :: (w ++ '.' :: v)) major (some info)

/-- What a major type stands for, with an additional info or without: for the kind of the major type, and for the
concrete kind that is bound to the info under major type 7. -/
inductive Denotes : Nat → Option Nat → Kind → Prop
  | major {major : Nat} : major ≤ 7 → Denotes major none (ofMajorType major)
  | info {major info : Nat} : major < 7 → info ≤ 31 → Denotes major (some info) (ofMajorType major)
  | special {info : UInt8} {k : Kind} : k.additionalInfo? = some info → Denotes 7 (some info.toNat) k

/-- A text is a code of a kind. -/
def HasCode (k : Kind) (s : String) : Prop := ∃ major info, Spells s.toList major info ∧ Denotes major info k

section Points

variable {w : List Char} (h : '.' ∉ w)
include h

theorem ne_point_of_mem {c : Char} (hc : c ∈ w) : decide (c ≠ '.') = true :=
  decide_eq_true fun he => h (he ▸ hc)

theorem readCode?_major : readCode? ('#' :: w) = (numeral? w).map (·, none) := by
  have ht : w.takeWhile (· ≠ '.') = w := List.takeWhile_eq_self_iff.mpr fun _ => ne_point_of_mem h
  have hd : w.dropWhile (· ≠ '.') = [] := List.dropWhile_eq_nil_iff.mpr fun _ => ne_point_of_mem h
  rw [readCode?, ht, hd]
  cases numeral? w <;> rfl

theorem readCode?_info (v : List Char) : readCode? ('#' :: (w ++ '.' :: v)) =
    (numeral? w).bind fun major => (numeral? v).map fun info => (major, some info) := by
  have ht : (w ++ '.' :: v).takeWhile (· ≠ '.') = w := by
    rw [List.takeWhile_append_of_pos fun _ => ne_point_of_mem h]
    exact List.append_nil w
  have hd : (w ++ '.' :: v).dropWhile (· ≠ '.') = '.' :: v := by
    rw [List.dropWhile_append_of_pos fun _ => ne_point_of_mem h]
    rfl
  rw [readCode?, ht, hd]
  cases numeral? w with
  | none => rfl
  | some major =>
    show ((numeral? v).bind fun info => some (major, some info)) = (numeral? v).map fun info => (major, some info)
    cases numeral? v <;> rfl

end Points

/-- A code is split at its first point. -/
theorem readCode?_eq_some_iff {s : List Char} {major : Nat} {info : Option Nat} :
    readCode? s = some (major, info) ↔ Spells s major info := by
  constructor
  · intro h
    obtain ⟨body, rfl⟩ : ∃ body, s = '#' :: body := by
      by_contra hs
      rw [readCode?] at h
      · cases h
      · exact fun body he => hs ⟨body, he⟩
    by_cases hp : '.' ∈ body
    · obtain ⟨w, v, rfl, hw⟩ := List.eq_append_cons_of_mem hp
      rw [readCode?_info hw, Option.bind_eq_some_iff] at h
      obtain ⟨m, hm, h⟩ := h
      obtain ⟨i, hi, he⟩ := Option.map_eq_some_iff.mp h
      cases he
      exact .info (numeral?_eq_some_iff.mp hm) (numeral?_eq_some_iff.mp hi)
    · rw [readCode?_major hp] at h
      obtain ⟨m, hm, he⟩ := Option.map_eq_some_iff.mp h
      cases he
      exact .major (numeral?_eq_some_iff.mp hm)
  · intro h
    cases h with
    | major hw => rw [readCode?_major hw.point_not_mem, numeral?_eq_some_iff.mpr hw, Option.map_some]
    | info hw hv =>
      rw [readCode?_info hw.point_not_mem, numeral?_eq_some_iff.mpr hw, numeral?_eq_some_iff.mpr hv]
      rfl

/-! ## Resolution -/

theorem mem_all (k : Kind) : k ∈ all := by
  cases k <;> decide

theorem additionalInfo?_inj {k k' : Kind} {info : UInt8} (h : k.additionalInfo? = some info)
    (h' : k'.additionalInfo? = some info) : k = k' := by
  have hi : ∀ k ∈ all, ∀ k' ∈ all, k.additionalInfo?.isSome → k.additionalInfo? = k'.additionalInfo? → k = k' := by
    decide
  exact hi k (mem_all k) k' (mem_all k') (h ▸ rfl) (h.trans h'.symm)

/-- If no two satisfy the condition, it does not matter which of them is found first. -/
theorem find?_eq_some_iff_of_unique {α : Type} {p : α → Bool} {xs : List α}
    (hu : ∀ {x y : α}, p x = true → p y = true → x = y) {x : α} : xs.find? p = some x ↔ x ∈ xs ∧ p x = true := by
  constructor
  · intro h
    exact ⟨List.mem_of_find?_eq_some h, List.find?_some h⟩
  · rintro ⟨hm, hx⟩
    obtain ⟨y, hy⟩ := Option.isSome_iff_exists.mp (List.find?_isSome.mpr ⟨x, hm, hx⟩)
    rw [hy, hu (List.find?_some hy) hx]

/-- A kind that stands for others is resolved to the one of those it covers that is bound to the additional info. -/
theorem resolve_some_eq_ok_iff {k l : Kind} {info : UInt8} (hk : k.aliases ≠ []) :
    k.resolve (some info) = .ok l ↔ k.Covers l ∧ l.additionalInfo? = some info := by
  have hl : ∀ k ∈ all, k.aliases ≠ [] → ∀ l ∈ all, l.additionalInfo?.isSome →
      (l ∈ k.leaves ↔ l = k ∨ l ∈ k.aliases ∨ ∃ a ∈ k.aliases, l ∈ a.aliases) := by
    decide
  have hu : ∀ {l l' : Kind}, decide (l.additionalInfo? = some info) = true →
      decide (l'.additionalInfo? = some info) = true → l = l' := fun h h' =>
    additionalInfo?_inj (of_decide_eq_true h) (of_decide_eq_true h')
  have hf : k.resolve (some info) = .ok l ↔ k.leaves.find? (·.additionalInfo? = some info) = some l := by
    rw [resolve, if_neg (by simpa using hk)]
    cases k.leaves.find? (·.additionalInfo? = some info) with
    | none => exact iff_of_false (fun h => by cases h) fun h => by cases h
    | some l' => simp only [Except.ok.injEq, Option.some_inj]
  rw [hf, find?_eq_some_iff_of_unique hu, covers_iff, decide_eq_true_iff]
  exact and_congr_left fun hi => hl k (mem_all k) hk l (mem_all l) (hi ▸ rfl)

/-- The kind of a major type covers the kinds of that type. -/
theorem covers_ofMajorType {major : Nat} (h : major ≤ 7) {k : Kind} :
    (ofMajorType major).Covers k ↔ k.majorType? = some (.ofNat major) := by
  have hc : ∀ major < 8, ∀ k ∈ all, (k = ofMajorType major ∨ k ∈ (ofMajorType major).aliases ∨
      ∃ a ∈ (ofMajorType major).aliases, k ∈ a.aliases) ↔ k.majorType? = some (.ofNat major) := by
    decide
  rw [covers_iff, hc major (Nat.lt_succ_of_le h) k (mem_all k)]

/-- Kinds that are bound to an additional info are concrete and of major type 7. -/
theorem bound_of_additionalInfo? {k : Kind} {info : UInt8} (h : k.additionalInfo? = some info) :
    k.aliases = [] ∧ k.majorType? = some 7 ∧ info.toNat ≤ 31 := by
  cases k <;> cases h <;> decide

theorem exists_additionalInfo?_iff {info : UInt8} :
    (∃ k : Kind, k.additionalInfo? = some info) ↔ info ∈ [20, 21, 22, 23, 25, 26, 27] := by
  have hl : all.filterMap additionalInfo? = [20, 21, 22, 23, 25, 26, 27] := rfl
  rw [← hl, List.mem_filterMap]
  constructor
  · rintro ⟨k, hk⟩
    exact ⟨k, mem_all k, hk⟩
  · rintro ⟨k, -, hk⟩
    exact ⟨k, hk⟩

theorem special_resolve_eq_ok_iff {k : Kind} {info : UInt8} :
    special.resolve (some info) = .ok k ↔ k.additionalInfo? = some info := by
  rw [resolve_some_eq_ok_iff (by decide)]
  exact and_iff_right_of_imp fun h => (covers_ofMajorType (by decide)).mpr (bound_of_additionalInfo? h).2.1

theorem Denotes.bounds {major : Nat} {info : Option Nat} {k : Kind} (h : Denotes major info k) :
    major ≤ 7 ∧ ∀ i ∈ info, i ≤ 31 := by
  cases h with
  | major hm => exact ⟨hm, fun _ hi => by cases hi⟩
  | info hm hi => exact ⟨Nat.le_of_lt hm, fun _ he => Option.some.inj he ▸ hi⟩
  | special hk => exact ⟨Nat.le_refl 7, fun _ he => Option.some.inj he ▸ (bound_of_additionalInfo? hk).2.2⟩

theorem denotes_special_iff {info : Nat} (h : info ≤ 31) {k : Kind} :
    Denotes 7 (some info) k ↔ k.additionalInfo? = some (.ofNat info) := by
  have ht : (UInt8.ofNat info).toNat = info := UInt8.toNat_ofNat_of_lt' (Nat.lt_of_le_of_lt h (by decide))
  constructor
  · intro hd
    cases hd with
    | info hm _ => exact absurd hm (by decide)
    | special hk => rwa [UInt8.ofNat_toNat]
  · intro hk
    exact ht ▸ .special hk

theorem denotes_major_iff {major : Nat} {info : Option Nat} (hm : major ≤ 7) (hi : ∀ i ∈ info, i ≤ 31)
    (hs : major = 7 → info = none) {k : Kind} : Denotes major info k ↔ ofMajorType major = k := by
  constructor
  · intro hd
    cases hd with
    | major | info => rfl
    | special => cases hs rfl
  · rintro rfl
    cases info with
    | none => exact .major hm
    | some i => exact .info (Nat.lt_of_le_of_ne hm fun h => by cases hs h) (hi i rfl)

theorem ofCode_of_spells {s : String} {k : Kind} {major : Nat} {info : Option Nat} (h : Spells s.toList major info) :
    ofCode s = .ok k ↔ Denotes major info k := by
  have hb : (decide (7 < major) || info.any (31 < ·)) = true ↔ ¬(major ≤ 7 ∧ ∀ i ∈ info, i ≤ 31) := by
    cases info with
    | none => simp
    | some i =>
      simp only [Option.any_some, Bool.or_eq_true, decide_eq_true_eq, Option.mem_some_iff, forall_eq']
      omega
  rw [ofCode, readCode?_eq_some_iff.mpr h]
  simp only [hb]
  split
  · rename_i hn
    exact iff_of_false (fun h => by cases h) fun hd => hn hd.bounds
  · rename_i hn
    obtain ⟨hm, hi⟩ := Decidable.not_not.mp hn
    split
    · rename_i i
      rw [denotes_special_iff (hi i rfl), ← special_resolve_eq_ok_iff, mapError_eq_ok_iff]
    · rename_i hs
      rw [denotes_major_iff hm hi fun h7 => ?_, Except.ok.injEq]
      cases info with
      | none => rfl
      | some i => exact (hs i h7 rfl).elim

theorem ofCode_eq_ok_iff {s : String} {k : Kind} : ofCode s = .ok k ↔ k.HasCode s := by
  constructor
  · intro h
    cases hr : readCode? s.toList with
    | none =>
      rw [ofCode, hr] at h
      cases h
    | some r =>
      have hs : Spells s.toList r.1 r.2 := readCode?_eq_some_iff.mp hr
      exact ⟨r.1, r.2, hs, (ofCode_of_spells hs).mp h⟩
  · rintro ⟨major, info, hs, hd⟩
    exact (ofCode_of_spells hs).mpr hd

theorem eq_badCode_of_error {s : String} {e : KindError} (h : ofCode s = .error e) : e = .badCode s := by
  unfold ofCode at h
  repeat' split at h
  · cases h
    rfl
  · cases h
    rfl
  · exact eq_of_mapError_eq_error h
  · cases h

/-! ## Names -/

theorem name_inj {k k' : Kind} (h : k.name = k'.name) : k = k' := by
  have hi : ∀ k ∈ all, ∀ k' ∈ all, k.name = k'.name → k = k' := by decide
  exact hi k (mem_all k) k' (mem_all k') h

theorem ofName_eq_ok_iff {s : String} {k : Kind} : ofName s = .ok k ↔ s = k.name := by
  have hu : ∀ {l l' : Kind}, decide (l.name = s) = true → decide (l'.name = s) = true → l = l' := fun h h' =>
    name_inj ((of_decide_eq_true h).trans (of_decide_eq_true h').symm)
  have hf : ofName s = .ok k ↔ all.find? (·.name = s) = some k := by
    rw [ofName]
    cases all.find? (·.name = s) with
    | none => exact iff_of_false (fun h => by cases h) fun h => by cases h
    | some l => simp only [Except.ok.injEq, Option.some_inj]
  rw [hf, find?_eq_some_iff_of_unique hu, and_iff_right (mem_all k), decide_eq_true_iff, eq_comm]

theorem eq_unknownName_of_error {s : String} {e : KindError} (h : ofName s = .error e) : e = .unknownName s := by
  unfold ofName at h
  split at h
  · cases h
  · cases h
    rfl

/-- **The texts that name a kind.** A text is the code of a kind exactly if it spells a major type, and perhaps an
additional info, that stand for the kind; any other is refused with itself. The kind of a major type covers the kinds of
that type, and each info that narrows major type 7 is bound to one concrete kind. Texts that do not begin with a hash
sign are read as names. -/
theorem parse_decided :
    (∀ s k, ofCode s = .ok k ↔ k.HasCode s) ∧
    (∀ s e, ofCode s = .error e ↔ (∀ k, ¬HasCode k s) ∧ e = .badCode s) ∧
    (∀ major ≤ 7, ∀ k, (ofMajorType major).Covers k ↔ k.majorType? = some (.ofNat major)) ∧
    (∀ info : UInt8, info ∈ [20, 21, 22, 23, 25, 26, 27] ↔ ∃ k : Kind, k.additionalInfo? = some info ∧
      k.aliases = [] ∧ k.majorType? = some 7 ∧ ∀ k' : Kind, k'.additionalInfo? = some info → k' = k) ∧
    (∀ s, s.toList.head? = some '#' → parse s = ofCode s) ∧
    ∀ s, s.toList.head? ≠ some '#' → (∀ k, parse s = .ok k ↔ s = k.name) ∧
      ∀ e, parse s = .error e ↔ (∀ k, s ≠ name k) ∧ e = .unknownName s := by
  have hn : ∀ {s}, s.toList.head? ≠ some '#' → parse s = ofName s := fun hs => if_neg hs
  refine ⟨fun s k => ofCode_eq_ok_iff, fun s => eq_error_iff (fun k => ofCode_eq_ok_iff) fun e => eq_badCode_of_error,
    fun major hm k => covers_ofMajorType hm, fun info => ?_, fun s hs => if_pos hs, fun s hs => ?_⟩
  · rw [← exists_additionalInfo?_iff]
    constructor
    · rintro ⟨k, hk⟩
      obtain ⟨ha, hm, -⟩ := bound_of_additionalInfo? hk
      exact ⟨k, hk, ha, hm, fun k' hk' => additionalInfo?_inj hk' hk⟩
    · rintro ⟨k, hk, -⟩
      exact ⟨k, hk⟩
  · rw [hn hs]
    exact ⟨fun k => ofName_eq_ok_iff, eq_error_iff (fun k => ofName_eq_ok_iff) fun e => eq_unknownName_of_error⟩

/-- A code with a sign and zeros, a name, and a text that is a code but for its hash sign. -/
theorem parse_decided_zeros :
    "#+07.0021".toList.head? = some '#' ∧ "float16".toList.head? ≠ some '#' ∧ "7.21".toList.head? ≠ some '#' ∧
      parse "#+07.0021" = .ok .trueValue ∧ parse "float16" = .ok .half ∧
      parse "7.21" = .error (.unknownName "7.21") ∧ (ofMajorType 7).Covers .half := by
  obtain ⟨hc, -, hm, -, hs, hn⟩ := parse_decided
  have hh : "#+07.0021".toList.head? = some '#' := rfl
  have hf : "float16".toList.head? ≠ some '#' := by decide
  have hd : "7.21".toList.head? ≠ some '#' := by decide
  have hp : Spells "#+07.0021".toList 7 (some 21) :=
    show Spells ('#' :: (['+', '0', '7'] ++ '.' :: ['0', '0', '2', '1'])) 7 (some 21) from
      .info (.signed ⟨1, rfl⟩ (by decide)) (.unsigned ⟨2, rfl⟩ (by decide))
  have ht : Denotes 7 (some 21) .trueValue := show Denotes 7 (some (21 : UInt8).toNat) .trueValue from .special rfl
  have hu : ∀ k : Kind, "7.21" ≠ k.name := fun k => by cases k <;> decide
  exact ⟨hh, hf, hd, (hs _ hh).trans ((hc _ _).mpr ⟨7, some 21, hp, ht⟩), ((hn _ hf).1 .half).mpr rfl,
    ((hn _ hd).2 _).mpr ⟨hu, rfl⟩, (hm 7 (by decide) .half).mpr rfl⟩

end Cbor.Kind
