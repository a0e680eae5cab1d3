import Cbor.Proofs.Rounding

/-!
# Bit patterns

- `Format.number`, what a bit pattern stands for. Each is a magnitude with a sign (`exists_pattern`), and a conversion
  keeps the sign (`convert_pattern`).
- A conversion rounds to the nearest magnitude (`nearestEven_convertMagnitude`), and gives the pattern of the other
  format that stands for the same number, if there is one (`convert_eq_of_number_eq`).
- In a format that has room for all significands and exponents of another one there is such a pattern for each number
  of that (`Embeds.number_convert`).
-/

namespace Cbor.Binary.Format

variable {f g : Format}

/-! ## Numbers -/

/-- What a bit pattern stands for. -/
inductive Number where
  | finite (negative : Bool) (magnitude : ℚ)
  | infinite (negative : Bool)
  | nan

/-- The rational number, with its sign; there is none for infinities and for what is not a number. -/
def Number.toRat? : Number → Option ℚ
  | .finite negative magnitude => some (if negative then -magnitude else magnitude)
  | _ => none

/-- What a bit pattern of the format stands for. -/
def number (f : Format) (bits : Nat) : Number :=
  if f.isNaN bits then .nan
  else if f.isInfinite bits then .infinite (f.isNegative bits)
  else .finite (f.isNegative bits) (f.value (bits % f.signBit))

/-- The bit pattern of a magnitude with a sign. -/
def pattern (f : Format) (negative : Bool) (m : Nat) : Nat := (if negative then f.signBit else 0) + m

section Patterns

variable {negative : Bool} {m bits : Nat}

theorem signBit_eq (f : Format) : f.signBit = f.infinity + 2 ^ f.fractionBits := by
  have h := Nat.two_pow_pos f.exponentBits
  rw [signBit, infinity, Nat.one_shiftLeft, Nat.one_shiftLeft, Nat.shiftLeft_eq, Nat.pow_add, Nat.sub_mul, Nat.one_mul,
    Nat.sub_add_cancel]
  exact Nat.le_mul_of_pos_left _ h

theorem infinity_lt (f : Format) : f.infinity < f.signBit := by
  rw [signBit_eq]
  exact Nat.lt_add_of_pos_right (Nat.two_pow_pos _)

theorem exists_pattern (h : bits < 2 * f.signBit) : ∃ negative m, m < f.signBit ∧ bits = f.pattern negative m := by
  rcases Nat.lt_or_ge bits f.signBit with hs | hs
  · exact ⟨false, bits, hs, (Nat.zero_add _).symm⟩
  · exact ⟨true, bits - f.signBit, by omega, (Nat.add_sub_of_le hs).symm⟩

theorem pattern_lt (h : m < f.signBit) (negative : Bool) : f.pattern negative m < 2 * f.signBit := by
  unfold pattern
  split <;> omega

theorem pattern_mod (h : m < f.signBit) (negative : Bool) : f.pattern negative m % f.signBit = m := by
  unfold pattern
  cases negative with
  | false => simpa using Nat.mod_eq_of_lt h
  | true => simpa using Nat.mod_eq_of_lt h

theorem isNegative_pattern (h : m < f.signBit) (negative : Bool) :
    f.isNegative (f.pattern negative m) = negative := by
  unfold isNegative pattern
  cases negative <;> simp [h]

theorem number_pattern (h : m < f.signBit) (negative : Bool) : f.number (f.pattern negative m) =
    if f.infinity < m then .nan else if m = f.infinity then .infinite negative else .finite negative (f.value m) := by
  simp only [number, isNaN, isInfinite, pattern_mod h, isNegative_pattern h, decide_eq_true_eq]

theorem number_pattern_eq_finite_iff (h : m < f.signBit) {negative negative' : Bool} {x : ℚ} :
    f.number (f.pattern negative m) = .finite negative' x ↔
      m < f.infinity ∧ negative = negative' ∧ f.value m = x := by
  rw [number_pattern h]
  rcases Nat.lt_trichotomy m f.infinity with hm | hm | hm
  · simp [hm, hm.ne, Nat.lt_asymm hm]
  · simp [hm]
  · simp [hm, Nat.lt_asymm hm]

theorem number_pattern_eq_infinite_iff (h : m < f.signBit) {negative negative' : Bool} :
    f.number (f.pattern negative m) = .infinite negative' ↔ m = f.infinity ∧ negative = negative' := by
  rw [number_pattern h]
  rcases Nat.lt_trichotomy m f.infinity with hm | hm | hm
  · simp [hm.ne, Nat.lt_asymm hm]
  · simp [hm]
  · simp [hm, hm.ne']

theorem isNaN_pattern (h : m < f.signBit) (negative : Bool) :
    f.isNaN (f.pattern negative m) = decide (f.infinity < m) := by
  rw [isNaN, pattern_mod h]

theorem convert_pattern (h : m < f.signBit) (negative : Bool) :
    convert f g (f.pattern negative m) = g.pattern negative (convertMagnitude f g m) := by
  have hd : f.pattern negative m / f.signBit = if negative then 1 else 0 := by
    unfold pattern
    have hs := Nat.zero_lt_of_lt h
    cases negative with
    | false => simp [Nat.div_eq_of_lt h]
    | true => simp [hs, Nat.div_eq_of_lt h]
  rw [convert, pattern_mod h, hd, pattern]
  cases negative <;> simp

end Patterns

/-! ## Conversions -/

/-- What is not a number stays so. -/
theorem convertNaN_bounds (hg : 0 < g.fractionBits) {m : Nat} (hm : m < f.signBit) :
    g.infinity < convertNaN f g m ∧ convertNaN f g m < g.signBit := by
  have hq : 1 <<< (g.fractionBits - 1) < 2 ^ g.fractionBits := by
    rw [Nat.one_shiftLeft]
    exact Nat.pow_lt_pow_right (by decide) (by omega)
  have hq' : 0 < 1 <<< (g.fractionBits - 1) := by
    rw [Nat.one_shiftLeft]
    exact Nat.two_pow_pos _
  have hpay : (m - f.infinity) <<< g.fractionBits >>> f.fractionBits < 2 ^ g.fractionBits := by
    have hf := f.signBit_eq
    have hp := Nat.two_pow_pos f.fractionBits
    rw [Nat.shiftLeft_eq, Nat.shiftRight_eq_div_pow]
    apply Nat.div_lt_of_lt_mul
    exact Nat.mul_lt_mul_of_pos_right (by omega) (Nat.two_pow_pos _)
  have hor := Nat.or_lt_two_pow hpay hq
  have hle : 1 <<< (g.fractionBits - 1) ≤ (m - f.infinity) <<< g.fractionBits >>> f.fractionBits |||
      1 <<< (g.fractionBits - 1) := Nat.right_le_or
  have hg := g.signBit_eq
  unfold convertNaN
  simp only
  omega

theorem convertMagnitude_lt (hg : 0 < g.fractionBits) {m : Nat} (hm : m < f.signBit) :
    convertMagnitude f g m < g.signBit := by
  unfold convertMagnitude
  split
  · exact (convertNaN_bounds hg hm).2
  · split
    · exact g.infinity_lt
    · exact Nat.lt_of_le_of_lt (nearest_le _ _ _) g.infinity_lt

theorem convert_lt (hg : 0 < g.fractionBits) {bits : Nat} (h : bits < 2 * f.signBit) :
    convert f g bits < 2 * g.signBit := by
  obtain ⟨negative, m, hm, rfl⟩ := exists_pattern h
  rw [convert_pattern hm]
  exact pattern_lt (convertMagnitude_lt hg hm) negative

theorem isNegative_convert (hg : 0 < g.fractionBits) {bits : Nat} (h : bits < 2 * f.signBit) :
    g.isNegative (convert f g bits) = f.isNegative bits := by
  obtain ⟨negative, m, hm, rfl⟩ := exists_pattern h
  rw [convert_pattern hm, isNegative_pattern (convertMagnitude_lt hg hm), isNegative_pattern hm]

/-- The magnitude of a number is rounded to the nearest one, of two equally near ones the even one. -/
theorem nearestEven_convertMagnitude (hg : 0 < g.fractionBits) {m : Nat} (hm : m < f.infinity) :
    NearestEven g.value (Set.Iic g.infinity) (f.value m) (convertMagnitude f g m) := by
  rw [convertMagnitude, if_neg (Nat.lt_asymm hm), if_neg hm.ne, ← fraction_div]
  exact nearestEven_nearest hg (f.fraction_pos m)

/-- **A bit pattern is converted to the one that stands for the same number**, if the other format has one. -/
theorem convert_eq_of_number_eq (hg : 0 < g.fractionBits) {a b : Nat} (ha : a < 2 * f.signBit) (hb : b < 2 * g.signBit)
    (hn : f.isNaN a = false) (h : g.number b = f.number a) : convert f g a = b := by
  obtain ⟨s, m, hm, rfl⟩ := exists_pattern ha
  obtain ⟨t, n, hm', rfl⟩ := exists_pattern hb
  rw [isNaN_pattern hm, decide_eq_false_iff_not] at hn
  rw [convert_pattern hm, convertMagnitude, if_neg hn]
  rcases Nat.lt_or_eq_of_le (Nat.le_of_not_lt hn) with hlt | rfl
  · rw [(number_pattern_eq_finite_iff hm).mpr ⟨hlt, rfl, rfl⟩, number_pattern_eq_finite_iff hm'] at h
    obtain ⟨hlt', rfl, hv⟩ := h
    rw [if_neg hlt.ne, nearest_eq_of_value_eq hg (f.fraction_pos m) hlt'.le (hv.trans (f.fraction_div m).symm)]
  · rw [(number_pattern_eq_infinite_iff hm).mpr ⟨rfl, rfl⟩, number_pattern_eq_infinite_iff hm'] at h
    obtain ⟨rfl, rfl⟩ := h
    rw [if_pos rfl]

/-! ## Integers -/

theorem value_nonneg (f : Format) (m : Nat) : 0 ≤ f.value m := by
  unfold value
  positivity

/-- An integer that the format has is rounded to the bit pattern that stands for it; zero is rounded to the one without
a sign. -/
theorem ofInt_of_toRat?_eq (hf : 0 < f.fractionBits) {i : Int} {bits : Nat} (hb : bits < 2 * f.signBit)
    (h : (f.number bits).toRat? = some (i : ℚ)) :
    f.ofInt i < 2 * f.signBit ∧ f.number (f.ofInt i) = .finite (decide (i < 0)) i.natAbs ∧
      (i ≠ 0 → f.ofInt i = bits) := by
  obtain ⟨s, m, hm, rfl⟩ := exists_pattern hb
  rw [number_pattern hm] at h
  split at h
  · cases h
  rename_i hn
  split at h
  · cases h
  rename_i hi
  simp only [Number.toRat?, Option.some.injEq] at h
  have h0 := f.value_nonneg m
  have hs : i ≠ 0 → decide (i < 0) = s := by
    intro hne
    cases s with
    | false =>
      have : (0 : ℚ) ≤ i := by simpa [← h] using h0
      exact decide_eq_false (not_lt.mpr (by exact_mod_cast this))
    | true =>
      have : (i : ℚ) ≤ 0 := by simpa [← h] using h0
      exact decide_eq_true (lt_of_le_of_ne (by exact_mod_cast this) hne)
  have hv : f.value m = i.natAbs := by
    rw [Nat.cast_natAbs, Int.cast_abs, ← h]
    cases s with
    | false => simp [abs_of_nonneg h0]
    | true => simp [abs_of_nonneg h0]
  have hr : f.nearest i.natAbs 1 = m :=
    nearest_eq_of_value_eq hf one_pos (Nat.le_of_not_lt hn) (by rw [hv, Nat.cast_one, div_one])
  have ho : f.ofInt i = f.pattern (decide (i < 0)) m := by simp [ofInt, pattern, hr]
  rw [ho]
  refine ⟨pattern_lt hm _, (number_pattern_eq_finite_iff hm).mpr ⟨?_, rfl, hv⟩, fun hne => by rw [hs hne]⟩
  exact lt_of_le_of_ne (Nat.le_of_not_lt hn) hi

/-! ## Wider formats -/

/-- A format has room for the significands and for the exponents of another one. -/
structure Embeds (f g : Format) : Prop where
  exponentBits_pos : 0 < f.exponentBits ∧ 0 < g.exponentBits
  fractionBits_pos : 0 < f.fractionBits
  fractionBits_le : f.fractionBits ≤ g.fractionBits
  minExponent_le : g.minExponent ≤ f.minExponent
  maxExponent_le : f.exponent f.infinity + f.fractionBits ≤ g.exponent g.infinity + g.fractionBits

theorem value_infinity (h : 0 < f.exponentBits) :
    f.value f.infinity = 2 ^ (f.exponent f.infinity + f.fractionBits) := by
  have he : 0 < 2 ^ f.exponentBits - 1 := by
    have := Nat.one_lt_two_pow h.ne'
    omega
  obtain ⟨k, hk⟩ := Nat.exists_eq_add_of_lt he
  have hi : f.infinity = k * 2 ^ f.fractionBits + 2 ^ f.fractionBits := by
    rw [infinity, Nat.one_shiftLeft, Nat.shiftLeft_eq, hk]
    ring
  have hf := fields_of_lt (f := f) (k := k) (n := 2 ^ f.fractionBits)
    (by have := Nat.two_pow_pos f.fractionBits; omega) (.inr le_rfl)
  rw [← hi] at hf
  rw [value, hf.1, zpow_add₀ two_ne_zero, zpow_natCast, mul_comm]
  push_cast
  rfl

theorem Embeds.fractionBits_pos_right (h : Embeds f g) : 0 < g.fractionBits :=
  Nat.lt_of_lt_of_le h.fractionBits_pos h.fractionBits_le

theorem Embeds.exists_value_eq (h : Embeds f g) {m : Nat} (hm : m < f.infinity) :
    ∃ n < g.infinity, g.value n = f.value m := by
  obtain ⟨k, s, rfl, hs, hk⟩ := f.exists_fields m
  have hp := Nat.pow_le_pow_right (n := 2) (by decide) h.fractionBits_le
  obtain ⟨d, hd⟩ := Int.le.dest h.minExponent_le
  obtain ⟨n, hn⟩ := Format.exists_value_eq (f := g) (n := s) (by omega) (d + k)
  have hv : g.value n = f.value (k * 2 ^ f.fractionBits + s) := by
    rw [hn, value_of_le hs.le hk, ← hd]
    push_cast
    rw [add_assoc]
  refine ⟨n, g.value_strictMono.lt_iff_lt.mp ?_, hv⟩
  calc g.value n = f.value _ := hv
    _ < f.value f.infinity := f.value_strictMono hm
    _ ≤ g.value g.infinity := by
      rw [value_infinity h.exponentBits_pos.1, value_infinity h.exponentBits_pos.2]
      exact zpow_le_zpow_right₀ one_le_two h.maxExponent_le

/-- **A format has all the numbers of one that it has room for**, so that converting to it changes no number. -/
theorem Embeds.number_convert (h : Embeds f g) {bits : Nat} (hb : bits < 2 * f.signBit) :
    g.number (convert f g bits) = f.number bits := by
  obtain ⟨s, m, hm, rfl⟩ := exists_pattern hb
  have hc := convertMagnitude_lt h.fractionBits_pos_right hm
  by_cases hn : f.infinity < m
  · rw [convert_pattern hm, number_pattern hc, number_pattern hm, convertMagnitude, if_pos hn,
      if_pos (convertNaN_bounds h.fractionBits_pos_right hm).1, if_pos hn]
  · obtain ⟨n, hn', hv⟩ : ∃ n < g.signBit, g.number (g.pattern s n) = f.number (f.pattern s m) := by
      rcases Nat.lt_or_eq_of_le (Nat.le_of_not_lt hn) with hlt | rfl
      · obtain ⟨n, hlt', hv⟩ := h.exists_value_eq hlt
        refine ⟨n, hlt'.trans g.infinity_lt, ?_⟩
        rw [(number_pattern_eq_finite_iff hm).mpr ⟨hlt, rfl, rfl⟩]
        exact (number_pattern_eq_finite_iff (hlt'.trans g.infinity_lt)).mpr ⟨hlt', rfl, hv⟩
      · refine ⟨g.infinity, g.infinity_lt, ?_⟩
        rw [(number_pattern_eq_infinite_iff hm).mpr ⟨rfl, rfl⟩]
        exact (number_pattern_eq_infinite_iff g.infinity_lt).mpr ⟨rfl, rfl⟩
    have hnan : f.isNaN (f.pattern s m) = false := by
      rw [isNaN_pattern hm]
      exact decide_eq_false hn
    rw [convert_eq_of_number_eq h.fractionBits_pos_right hb (pattern_lt hn' s) hnan hv, hv]

/-- Converting to a format with room and back changes nothing. -/
theorem Embeds.convert_convert (h : Embeds f g) {bits : Nat} (hb : bits < 2 * f.signBit)
    (hn : g.isNaN (convert f g bits) = false) : convert g f (convert f g bits) = bits :=
  convert_eq_of_number_eq h.fractionBits_pos (convert_lt h.fractionBits_pos_right hb) hb hn (h.number_convert hb).symm

end Cbor.Binary.Format
