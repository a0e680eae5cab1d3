import Cbor.Binary.Basic
import Mathlib.Algebra.Order.Field.Power
import Mathlib.Data.Int.Log
import Mathlib.Data.Rat.Floor
import Mathlib.Tactic.FieldSimp
import Mathlib.Tactic.Linarith
import Mathlib.Tactic.Positivity
import Mathlib.Tactic.Ring

/-!
# Rounding to a format

- `NearestEven`: of all candidates one is nearest to a number, and it is an even one if another is as near. So
  `roundHalfEven` chooses among the integers (`nearestEven_roundHalfEven`).
- `Format.value`: the rational number of a magnitude. Each magnitude is greater than the one before by a unit of its own
  binade (`value_succ`), also at infinity and beyond, and of those up to infinity `Format.nearest` chooses the nearest
  (`nearestEven_nearest`).
-/

namespace Cbor.Binary

/-! ## The nearest of several values -/

/-- Among the candidates `r` has the value nearest to `x`, and is even if another candidate is as near. -/
structure NearestEven (value : Nat → ℚ) (candidates : Set Nat) (x : ℚ) (r : Nat) : Prop where
  mem : r ∈ candidates
  dist_le : ∀ m ∈ candidates, |x - value r| ≤ |x - value m|
  even : ∀ m ∈ candidates, m ≠ r → |x - value m| = |x - value r| → r % 2 = 0

/-- A candidate that has the value itself is chosen. -/
theorem NearestEven.eq_of_value_eq {value : Nat → ℚ} {candidates : Set Nat} {x : ℚ} {r m : Nat}
    (h : NearestEven value candidates x r) (hv : Function.Injective value) (hm : m ∈ candidates)
    (hx : value m = x) : r = m := by
  have hd := h.dist_le m hm
  rw [hx, sub_self, abs_zero, abs_nonpos_iff, sub_eq_zero] at hd
  exact hv (hd.symm.trans hx.symm)

theorem NearestEven.le_of_value_le {value : Nat → ℚ} {candidates : Set Nat} {x : ℚ} {r m : Nat}
    (h : NearestEven value candidates x r) (hv : StrictMono value) (hm : m ∈ candidates) (hx : value m ≤ x) :
    m ≤ r := by
  by_contra hr
  have hlt := hv (Nat.lt_of_not_le hr)
  have hd := h.dist_le m hm
  rw [abs_of_nonneg (by linarith), abs_of_nonneg (by linarith)] at hd
  linarith

theorem NearestEven.le_of_le_value {value : Nat → ℚ} {candidates : Set Nat} {x : ℚ} {r m : Nat}
    (h : NearestEven value candidates x r) (hv : StrictMono value) (hm : m ∈ candidates) (hx : x ≤ value m) :
    r ≤ m := by
  by_contra hr
  have hlt := hv (Nat.lt_of_not_le hr)
  have hd := h.dist_le m hm
  rw [abs_of_nonpos (by linarith), abs_of_nonpos (by linarith)] at hd
  linarith

/-- Where all candidates beyond an even one are left out, that one takes their place. -/
theorem NearestEven.min {value : Nat → ℚ} {x : ℚ} {r b : Nat} (h : NearestEven value Set.univ x r)
    (hv : StrictMono value) (hb : b % 2 = 0) : NearestEven value (Set.Iic b) x (min b r) := by
  rcases Nat.le_total r b with hr | hr
  · rw [Nat.min_eq_right hr]
    exact ⟨hr, fun m _ => h.dist_le m (Set.mem_univ m), fun m _ => h.even m (Set.mem_univ m)⟩
  · rw [Nat.min_eq_left hr]
    refine ⟨Set.mem_Iic.mpr le_rfl, fun m hm => ?_, fun _ _ _ _ => hb⟩
    rcases le_total x (value b) with hx | hx
    · rw [Nat.le_antisymm hr (h.le_of_le_value hv (Set.mem_univ b) hx)]
      exact h.dist_le m (Set.mem_univ m)
    · have hvm := hv.monotone (Set.mem_Iic.mp hm)
      rw [abs_of_nonneg (by linarith), abs_of_nonneg (by linarith)]
      linarith

/-! ## Integers -/

/-- The fraction is at most one half away from what it is rounded to, and from an even number if it is that far. -/
theorem roundHalfEven_dist (num : Nat) {den : Nat} (hd : 0 < den) :
    |(num / den : ℚ) - roundHalfEven num den| ≤ 1 / 2 ∧
      (|(num / den : ℚ) - roundHalfEven num den| = 1 / 2 → roundHalfEven num den % 2 = 0) := by
  have hd' : (0 : ℚ) < den := Nat.cast_pos.mpr hd
  have hn : (num : ℚ) = den * (num / den : Nat) + (num % den : Nat) := by
    exact_mod_cast (Nat.div_add_mod num den).symm
  have hx : (num / den : ℚ) = (num / den : Nat) + (num % den : Nat) / den := by
    rw [hn]
    field_simp
  have hr := Nat.mod_lt num hd
  have h0 : 0 ≤ ((num % den : Nat) / den : ℚ) := by positivity
  rw [hx]
  unfold roundHalfEven
  simp only
  generalize num / den = q at *
  generalize num % den = r at *
  rcases Nat.lt_trichotomy (2 * r) den with h | h | h
  · have ht : (r / den : ℚ) < 1 / 2 := by
      rw [div_lt_div_iff₀ hd' two_pos]
      exact_mod_cast (by omega : r * 2 < 1 * den)
    rw [if_pos h, add_sub_cancel_left, abs_of_nonneg h0]
    exact ⟨ht.le, fun h => absurd h ht.ne⟩
  · have ht : (r / den : ℚ) = 1 / 2 := by
      rw [div_eq_div_iff hd'.ne' two_ne_zero]
      exact_mod_cast (by omega : r * 2 = 1 * den)
    rw [if_neg (by omega), if_neg (by omega), ht]
    refine ⟨?_, fun _ => by omega⟩
    rcases Nat.mod_two_eq_zero_or_one q with hq | hq <;> rw [hq] <;> push_cast <;> norm_num
  · have ht : (1 / 2 : ℚ) < r / den := by
      rw [div_lt_div_iff₀ two_pos hd']
      exact_mod_cast (by omega : 1 * den < r * 2)
    have ht' : (r / den : ℚ) < 1 := by
      rw [div_lt_one hd']
      exact_mod_cast hr
    rw [if_neg (by omega), if_pos h, Nat.cast_add, Nat.cast_one, add_sub_add_left_eq_sub, abs_of_neg (by linarith)]
    exact ⟨by linarith, fun he => by linarith⟩

theorem nearestEven_roundHalfEven (num : Nat) {den : Nat} (hd : 0 < den) :
    NearestEven Nat.cast Set.univ (num / den) (roundHalfEven num den) := by
  obtain ⟨hle, heven⟩ := roundHalfEven_dist num hd
  -- any other integer is at least one away from that one
  have far : ∀ m, m ≠ roundHalfEven num den →
      1 ≤ |(num / den : ℚ) - roundHalfEven num den| + |(num / den : ℚ) - m| := by
    intro m hm
    have h1 : (1 : ℚ) ≤ |(roundHalfEven num den : ℚ) - m| := by
      have hz : (1 : Int) ≤ |(roundHalfEven num den : Int) - m| := Int.one_le_abs (by omega)
      exact_mod_cast hz
    have h2 := abs_sub_le (roundHalfEven num den : ℚ) (num / den) m
    rw [abs_sub_comm _ (num / den : ℚ)] at h2
    linarith
  refine ⟨Set.mem_univ _, fun m _ => ?_, fun m _ hm he => heven ?_⟩
  · by_cases hm : m = roundHalfEven num den
    · rw [hm]
    · have := far m hm
      linarith
  · have := far m hm
    linarith

/-! ## Scaling -/

theorem two_pow_toNat (e : Int) : (2 : ℚ) ^ e.toNat = 2 ^ e * 2 ^ (-e).toNat := by
  rcases le_total 0 e with h | h
  · obtain ⟨k, rfl⟩ := Int.eq_ofNat_of_zero_le h
    simp
  · obtain ⟨k, hk⟩ := Int.eq_ofNat_of_zero_le (neg_nonneg.mpr h)
    obtain rfl : e = -k := by omega
    simp

theorem cast_shiftLeft (n k : Nat) : ((n <<< k : Nat) : ℚ) = n * 2 ^ k := by
  rw [Nat.shiftLeft_eq]
  push_cast
  rfl

theorem scale_div (n : Nat) (e : Int) : ((scale n e).1 / (scale n e).2 : ℚ) = n * 2 ^ e := by
  rw [scale, cast_shiftLeft, cast_shiftLeft, two_pow_toNat]
  field_simp
  simp

/-- A fraction in units of `2 ^ e`. -/
theorem shiftLeft_div_shiftLeft (num den : Nat) (e : Int) :
    ((num <<< (-e).toNat : Nat) / (den <<< e.toNat : Nat) : ℚ) = num / den / 2 ^ e := by
  rw [cast_shiftLeft, cast_shiftLeft, two_pow_toNat e]
  field_simp

theorem floorLog2_eq {num den : Nat} (hn : 0 < num) (hd : 0 < den) :
    floorLog2 num den = Int.log 2 (num / den : ℚ) := by
  have hd' : (0 : ℚ) < den := Nat.cast_pos.mpr hd
  have hx : (0 : ℚ) < num / den := div_pos (Nat.cast_pos.mpr hn) hd'
  have hle : ∀ e : Int, den <<< e.toNat ≤ num <<< (-e).toNat ↔ e ≤ Int.log 2 (num / den : ℚ) := by
    intro e
    rw [← Int.zpow_le_iff_le_log one_lt_two hx, Nat.cast_two, le_div_iff₀ hd', ← Nat.cast_le (α := ℚ),
      cast_shiftLeft, cast_shiftLeft, two_pow_toNat, ← mul_assoc, mul_comm (den : ℚ)]
    exact mul_le_mul_iff_left₀ (by positivity)
  -- the logarithms leave two exponents to choose from
  have hlog : Int.log 2 (num / den : ℚ) < Nat.log2 num - Nat.log2 den + 1 ∧
      (Nat.log2 num - Nat.log2 den : Int) ≤ Int.log 2 (num / den : ℚ) + 1 := by
    have hnl : (2 : ℚ) ^ Nat.log2 num ≤ num := by exact_mod_cast Nat.log2_self_le hn.ne'
    have hnu : (num : ℚ) < 2 ^ (Nat.log2 num + 1) := by exact_mod_cast Nat.lt_log2_self
    have hdl : (2 : ℚ) ^ Nat.log2 den ≤ den := by exact_mod_cast Nat.log2_self_le hd.ne'
    have hdu : (den : ℚ) < 2 ^ (Nat.log2 den + 1) := by exact_mod_cast Nat.lt_log2_self
    have hpow : ∀ {i : Int} {j k : Nat}, i + j = k → (2 : ℚ) ^ i * 2 ^ j = 2 ^ k := fun {i j k} h => by
      rw [← zpow_natCast, ← zpow_natCast, ← zpow_add₀ two_ne_zero, h]
    constructor
    · rw [← Int.lt_zpow_iff_log_lt one_lt_two hx, Nat.cast_two, div_lt_iff₀ hd']
      calc (num : ℚ) < 2 ^ (Nat.log2 num + 1) := hnu
        _ = 2 ^ (Nat.log2 num - Nat.log2 den + 1 : Int) * 2 ^ Nat.log2 den := (hpow (by omega)).symm
        _ ≤ 2 ^ (Nat.log2 num - Nat.log2 den + 1 : Int) * den := by gcongr
    · rw [← sub_le_iff_le_add, ← Int.zpow_le_iff_le_log one_lt_two hx, Nat.cast_two, le_div_iff₀ hd']
      calc (2 : ℚ) ^ (Nat.log2 num - Nat.log2 den - 1 : Int) * den
          ≤ 2 ^ (Nat.log2 num - Nat.log2 den - 1 : Int) * 2 ^ (Nat.log2 den + 1) := by gcongr
        _ = 2 ^ Nat.log2 num := hpow (by omega)
        _ ≤ num := hnl
  unfold floorLog2
  simp only [hle]
  split <;> omega

namespace Format

variable {f g : Format}

/-! ## The values of magnitudes -/

/-- The number of a magnitude. That of infinity is the one that would follow the greatest finite number. -/
def value (f : Format) (m : Nat) : ℚ := f.significand m * 2 ^ f.exponent m

theorem fraction_pos (f : Format) (m : Nat) : 0 < (f.fraction m).2 := by
  rw [fraction, scale, Nat.one_shiftLeft]
  exact Nat.two_pow_pos _

theorem fraction_div (f : Format) (m : Nat) : ((f.fraction m).1 / (f.fraction m).2 : ℚ) = f.value m := scale_div _ _

/-- A magnitude is a count of binades above a significand, which is of full length in all binades but the lowest. -/
theorem fields_of_lt {k n : Nat} (hn : n < 2 * 2 ^ f.fractionBits) (hk : k = 0 ∨ 2 ^ f.fractionBits ≤ n) :
    f.significand (k * 2 ^ f.fractionBits + n) = n ∧
      f.exponent (k * 2 ^ f.fractionBits + n) = f.minExponent + k := by
  unfold significand exponent
  simp only [Nat.one_shiftLeft, Nat.shiftRight_eq_div_pow]
  generalize 2 ^ f.fractionBits = p at *
  rcases Nat.lt_or_ge n p with h | h
  · obtain rfl : k = 0 := by omega
    simp [h, Nat.div_eq_of_lt h]
  · obtain ⟨j, rfl⟩ := Nat.exists_eq_add_of_le h
    have hj : j < p := by omega
    have hm : k * p + (p + j) = p * (k + 1) + j := by ring
    have hd : (p * (k + 1) + j) / p = k + 1 := by
      rw [Nat.mul_add_div (by omega), Nat.div_eq_of_lt hj, Nat.add_zero]
    have hl : ¬p * (k + 1) + j < p := by
      rw [Nat.mul_add, Nat.mul_one]
      omega
    rw [hm, if_neg hl, Nat.mul_add_mod, Nat.mod_eq_of_lt hj, hd]
    simp

theorem exists_fields (f : Format) (m : Nat) : ∃ k n, m = k * 2 ^ f.fractionBits + n ∧
    n < 2 * 2 ^ f.fractionBits ∧ (k = 0 ∨ 2 ^ f.fractionBits ≤ n) := by
  rcases Nat.lt_or_ge m (2 ^ f.fractionBits) with h | h
  · exact ⟨0, m, by simp, by omega, .inl rfl⟩
  · obtain ⟨j, rfl⟩ := Nat.exists_eq_add_of_le' h
    have hp := Nat.two_pow_pos f.fractionBits
    have hj := Nat.div_add_mod' j (2 ^ f.fractionBits)
    have hl := Nat.mod_lt j hp
    exact ⟨j / 2 ^ f.fractionBits, j % 2 ^ f.fractionBits + 2 ^ f.fractionBits, by omega, by omega, .inr (by omega)⟩

/-- A significand that is too long by one is the first one of the next binade. -/
theorem value_of_le {k n : Nat} (hn : n ≤ 2 * 2 ^ f.fractionBits) (hk : k = 0 ∨ 2 ^ f.fractionBits ≤ n) :
    f.value (k * 2 ^ f.fractionBits + n) = n * 2 ^ (f.minExponent + k) := by
  unfold value
  rcases Nat.lt_or_eq_of_le hn with h | rfl
  · obtain ⟨hs, he⟩ := fields_of_lt h hk
    rw [hs, he]
  · have hp := Nat.two_pow_pos f.fractionBits
    obtain ⟨hs, he⟩ := fields_of_lt (f := f) (k := k + 1) (n := 2 ^ f.fractionBits) (by omega) (.inr le_rfl)
    have hm : k * 2 ^ f.fractionBits + 2 * 2 ^ f.fractionBits = (k + 1) * 2 ^ f.fractionBits + 2 ^ f.fractionBits := by
      ring
    rw [hm, hs, he, Nat.cast_succ, ← add_assoc, zpow_add_one₀ two_ne_zero]
    push_cast
    ring

/-- Each magnitude is greater than the one before by one unit of that. -/
theorem value_succ (f : Format) (m : Nat) : f.value (m + 1) = f.value m + 2 ^ f.exponent m := by
  obtain ⟨k, n, rfl, hn, hk⟩ := f.exists_fields m
  rw [add_assoc, value_of_le (by omega) (by omega), value_of_le hn.le hk, (fields_of_lt hn hk).2]
  push_cast
  ring

theorem value_strictMono (f : Format) : StrictMono f.value := by
  refine strictMono_nat_of_lt_succ fun m => ?_
  rw [value_succ]
  exact lt_add_of_pos_right _ (by positivity)

@[simp] theorem value_zero (f : Format) : f.value 0 = 0 := by
  simp [value, significand]

/-- Every number that a significand of full length can hold in the range of exponents has a magnitude. -/
theorem exists_value_eq {n : Nat} (hn : n < 2 * 2 ^ f.fractionBits) (k : Nat) :
    ∃ m, f.value m = n * 2 ^ (f.minExponent + k) := by
  induction k generalizing n with
  | zero => exact ⟨_, value_of_le hn.le (.inl rfl)⟩
  | succ k ih =>
    rcases Nat.lt_or_ge n (2 ^ f.fractionBits) with h | h
    · -- there is room for one bit more in the binade below
      obtain ⟨m, hm⟩ := ih (n := 2 * n) (by omega)
      refine ⟨m, ?_⟩
      rw [hm, Nat.cast_succ, ← add_assoc, zpow_add_one₀ two_ne_zero]
      push_cast
      ring
    · exact ⟨_, value_of_le hn.le (.inr h)⟩

/-! ## Rounding of fractions -/

/-- In a lower binade all numbers are below the least significand of full length. -/
theorem lt_of_lower_binade {k k' n : Nat} (hn : n < 2 * 2 ^ f.fractionBits) (hk : k' < k) :
    (n * 2 ^ (f.minExponent + k') : ℚ) < 2 ^ f.fractionBits * 2 ^ (f.minExponent + k) := by
  have hn' : (n : ℚ) < 2 * 2 ^ f.fractionBits := by exact_mod_cast hn
  calc (n * 2 ^ (f.minExponent + k') : ℚ) < 2 * 2 ^ f.fractionBits * 2 ^ (f.minExponent + k') := by gcongr
    _ = 2 ^ f.fractionBits * 2 ^ (f.minExponent + k' + 1) := by
      rw [zpow_add_one₀ two_ne_zero]
      ring
    _ ≤ 2 ^ f.fractionBits * 2 ^ (f.minExponent + k) := by
      have he : (2 : ℚ) ^ (f.minExponent + k' + 1) ≤ 2 ^ (f.minExponent + k) :=
        zpow_le_zpow_right₀ one_le_two (by omega)
      gcongr

/-- A magnitude is a number of whole units of a binade, or it lies below the numbers of the binade. -/
theorem value_units_or_lt (f : Format) (k m : Nat) : (∃ c : Nat, f.value m = c * 2 ^ (f.minExponent + k)) ∨
    k ≠ 0 ∧ f.value m < 2 ^ f.fractionBits * 2 ^ (f.minExponent + k) := by
  obtain ⟨k', n, rfl, hn, hk'⟩ := f.exists_fields m
  rw [value_of_le hn.le hk']
  rcases Nat.lt_or_ge k' k with hlt | hge
  · exact .inr ⟨by omega, lt_of_lower_binade hn hlt⟩
  · left
    obtain ⟨d, rfl⟩ := Nat.exists_eq_add_of_le hge
    refine ⟨n * 2 ^ d, ?_⟩
    rw [Nat.cast_add, ← add_assoc, zpow_add₀ two_ne_zero, zpow_natCast]
    push_cast
    ring

/-- Distances in units of `2 ^ e`. -/
theorem abs_sub_mul_two_zpow (x c : ℚ) (e : Int) : |x - c * 2 ^ e| = |x / 2 ^ e - c| * 2 ^ e := by
  have hq : (0 : ℚ) < 2 ^ e := by positivity
  rw [← abs_of_pos hq, ← abs_mul, abs_of_pos hq, sub_mul, div_mul_cancel₀ _ hq.ne']

/-- Whole binades keep the parity. -/
theorem binades_add_mod_two (hp : 0 < f.fractionBits) (k n : Nat) : (k * 2 ^ f.fractionBits + n) % 2 = n % 2 := by
  obtain ⟨p, hp⟩ := Nat.exists_eq_add_of_lt hp
  rw [hp, Nat.zero_add, Nat.pow_succ, ← Nat.mul_assoc, Nat.mul_comm, Nat.mul_add_mod]

/-- Rounding to whole units is rounding to magnitudes, if the unit is that of the number's own binade. -/
theorem nearestEven_of_units (hp : 0 < f.fractionBits) {x : ℚ} {k n : Nat}
    (hn : NearestEven Nat.cast Set.univ (x / 2 ^ (f.minExponent + k)) n)
    (hlow : k = 0 ∨ 2 ^ f.fractionBits ≤ x / 2 ^ (f.minExponent + k))
    (hup : x / 2 ^ (f.minExponent + k) < 2 * 2 ^ f.fractionBits) :
    NearestEven f.value Set.univ x (k * 2 ^ f.fractionBits + n) := by
  have hq : (0 : ℚ) < 2 ^ (f.minExponent + k) := by positivity
  have hnu : n ≤ 2 * 2 ^ f.fractionBits :=
    hn.le_of_le_value Nat.strictMono_cast (Set.mem_univ _) (by push_cast; exact hup.le)
  have hnl : k = 0 ∨ 2 ^ f.fractionBits ≤ n := hlow.imp_right fun h =>
    hn.le_of_value_le Nat.strictMono_cast (Set.mem_univ _) (by push_cast; exact h)
  have hv : f.value (k * 2 ^ f.fractionBits + n) = n * 2 ^ (f.minExponent + k) := value_of_le hnu hnl
  have hle : ∀ c : Nat, |x - n * 2 ^ (f.minExponent + k)| ≤ |x - c * 2 ^ (f.minExponent + k)| := by
    intro c
    rw [abs_sub_mul_two_zpow, abs_sub_mul_two_zpow]
    exact mul_le_mul_of_nonneg_right (hn.dist_le c (Set.mem_univ c)) hq.le
  -- what lies below the binade is farther away than the least number in it
  have hm : ∀ m, (∃ c : Nat, f.value m = c * 2 ^ (f.minExponent + k)) ∨
      |x - n * 2 ^ (f.minExponent + k)| < |x - f.value m| := by
    intro m
    refine (f.value_units_or_lt k m).imp_right fun ⟨hk, hb⟩ => ?_
    have hx := (le_div_iff₀ hq).mp (hlow.resolve_left hk)
    have hd := hle (2 ^ f.fractionBits)
    push_cast at hd
    rw [abs_of_nonneg (sub_nonneg.mpr hx)] at hd
    rw [abs_of_nonneg (sub_nonneg.mpr (hb.le.trans hx))]
    linarith
  refine ⟨Set.mem_univ _, fun m _ => ?_, fun m _ hne he => ?_⟩
  · rw [hv]
    rcases hm m with ⟨c, hc⟩ | hlt
    · rw [hc]
      exact hle c
    · exact hlt.le
  · rw [hv] at he
    rcases hm m with ⟨c, hc⟩ | hlt
    · have hcn : c ≠ n := fun h => hne (f.value_strictMono.injective (by rw [hc, hv, h]))
      rw [hc, abs_sub_mul_two_zpow, abs_sub_mul_two_zpow, mul_left_inj' hq.ne'] at he
      rw [binades_add_mod_two hp]
      exact hn.even c (Set.mem_univ c) hcn he
    · exact absurd he hlt.ne'

/-- **Of the magnitudes up to infinity, `nearest` is the one that is nearest to the fraction**, and an even one if two
are. -/
theorem nearestEven_nearest (hp : 0 < f.fractionBits) {num den : Nat} (hd : 0 < den) :
    NearestEven f.value (Set.Iic f.infinity) (num / den) (f.nearest num den) := by
  have hinf : f.infinity % 2 = 0 := by
    rw [infinity, Nat.shiftLeft_eq]
    exact binades_add_mod_two hp _ 0
  unfold nearest
  split
  · rename_i h
    subst h
    refine ⟨Set.mem_Iic.mpr (Nat.zero_le _), fun m _ => ?_, fun _ _ _ _ => rfl⟩
    simp
  · rename_i h
    have hx : (0 : ℚ) < num / den := div_pos (Nat.cast_pos.mpr (Nat.pos_of_ne_zero h)) (Nat.cast_pos.mpr hd)
    have hl := Int.zpow_log_le_self one_lt_two hx
    have hu := Int.lt_zpow_succ_log_self one_lt_two (num / den : ℚ)
    rw [floorLog2_eq (Nat.pos_of_ne_zero h) hd]
    generalize Int.log 2 (num / den : ℚ) = l at *
    push_cast at hl hu
    obtain ⟨k, hk⟩ := Int.le.dest (le_max_left f.minExponent (l - f.fractionBits))
    have hn : 0 < den <<< (f.minExponent + k).toNat := by
      rw [Nat.shiftLeft_eq]
      positivity
    have hr := nearestEven_roundHalfEven (num <<< (-(f.minExponent + k)).toNat) hn
    rw [shiftLeft_div_shiftLeft] at hr
    simp only [← hk, add_sub_cancel_left, Int.toNat_natCast, Nat.shiftLeft_eq (k : Nat)]
    refine (nearestEven_of_units hp hr ?_ ?_).min f.value_strictMono hinf
    · rcases le_total (l - f.fractionBits) f.minExponent with hle | hle
      · left
        omega
      · right
        have he : (f.fractionBits : Int) + (f.minExponent + k) = l := by omega
        rw [le_div_iff₀ (by positivity), ← zpow_natCast, ← zpow_add₀ two_ne_zero, he]
        exact hl
    · rw [div_lt_iff₀ (by positivity)]
      calc (num / den : ℚ) < 2 ^ (l + 1) := hu
        _ ≤ 2 ^ (f.fractionBits + (f.minExponent + k) + 1) := zpow_le_zpow_right₀ one_le_two (by omega)
        _ = 2 * 2 ^ f.fractionBits * 2 ^ (f.minExponent + k) := by
          rw [zpow_add_one₀ two_ne_zero, zpow_add₀ two_ne_zero, zpow_natCast]
          ring

/-- A fraction that is the number of a magnitude is rounded to that. -/
theorem nearest_eq_of_value_eq (hp : 0 < f.fractionBits) {num den m : Nat} (hd : 0 < den) (hm : m ≤ f.infinity)
    (hv : f.value m = num / den) : f.nearest num den = m :=
  (nearestEven_nearest hp hd).eq_of_value_eq f.value_strictMono.injective (Set.mem_Iic.mpr hm) hv

theorem nearest_le (f : Format) (num den : Nat) : f.nearest num den ≤ f.infinity := by
  unfold nearest
  split
  · exact Nat.zero_le _
  · exact Nat.min_le_left _ _

end Format

end Cbor.Binary
