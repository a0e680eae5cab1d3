import Cbor.Factory
import Cbor.Item.Access
import Cbor.Proofs.Patterns

/-!
# Floats of the shortest width

- The numbers of the three widths; widening changes none of them (`Binary16.number_toBinary64`,
  `Binary32.number_toBinary64`).
- Narrowing keeps a number if and only if a narrower float has it (`Binary64.same_toBinary16_iff`,
  `Binary64.same_toBinary32_iff`).
- `HoldsNarrowly`, an item that holds a float and is of the shortest width that can; under the kind of all floats such
  an item is made of each float that is a number (`create_float_narrowest`).
-/

namespace Cbor

open Binary (Format)
open Binary.Format (Number Embeds convert)

/-! ## Numbers of the three widths -/

/-- What a 16-bit float stands for. -/
def Binary16.number (x : Binary16) : Number := Format.binary16.number x.bits.toNat

/-- What a 32-bit float stands for. -/
def Binary32.number (x : Binary32) : Number := Format.binary32.number x.bits.toNat

/-- What a 64-bit float stands for. -/
def Binary64.number (x : Binary64) : Number := Format.binary64.number x.bits.toNat

theorem embeds_binary16 : Embeds .binary16 .binary64 :=
  ⟨by decide, by decide, by decide, by decide, by decide⟩

theorem embeds_binary32 : Embeds .binary32 .binary64 :=
  ⟨by decide, by decide, by decide, by decide, by decide⟩

theorem Binary16.toNat_lt (x : Binary16) : x.bits.toNat < 2 * Format.binary16.signBit := x.bits.toNat_lt

theorem Binary32.toNat_lt (x : Binary32) : x.bits.toNat < 2 * Format.binary32.signBit := x.bits.toNat_lt

theorem Binary64.toNat_lt (x : Binary64) : x.bits.toNat < 2 * Format.binary64.signBit := x.bits.toNat_lt

theorem Binary16.toNat_toBinary64 (x : Binary16) :
    x.toBinary64.bits.toNat = convert .binary16 .binary64 x.bits.toNat :=
  UInt64.toNat_ofNat_of_lt' (Format.convert_lt (by decide) x.toNat_lt)

theorem Binary32.toNat_toBinary64 (x : Binary32) :
    x.toBinary64.bits.toNat = convert .binary32 .binary64 x.bits.toNat :=
  UInt64.toNat_ofNat_of_lt' (Format.convert_lt (by decide) x.toNat_lt)

theorem Binary64.toNat_toBinary16 (x : Binary64) :
    x.toBinary16.bits.toNat = convert .binary64 .binary16 x.bits.toNat :=
  UInt16.toNat_ofNat_of_lt' (Format.convert_lt (by decide) x.toNat_lt)

theorem Binary64.toNat_toBinary32 (x : Binary64) :
    x.toBinary32.bits.toNat = convert .binary64 .binary32 x.bits.toNat :=
  UInt32.toNat_ofNat_of_lt' (Format.convert_lt (by decide) x.toNat_lt)

/-- Widening is exact. -/
theorem Binary16.number_toBinary64 (x : Binary16) : x.toBinary64.number = x.number := by
  rw [Binary64.number, toNat_toBinary64, embeds_binary16.number_convert x.toNat_lt, number]

/-- Widening is exact. -/
theorem Binary32.number_toBinary64 (x : Binary32) : x.toBinary64.number = x.number := by
  rw [Binary64.number, toNat_toBinary64, embeds_binary32.number_convert x.toNat_lt, number]

/-- A float comes back from a wider format. -/
theorem Binary16.toBinary16_toBinary64 (x : Binary16) (hx : x.toBinary64.isNaN = false) :
    x.toBinary64.toBinary16 = x := by
  have h := embeds_binary16.convert_convert x.toNat_lt (by rwa [← x.toNat_toBinary64])
  rw [← x.toNat_toBinary64, ← Binary64.toNat_toBinary16] at h
  cases x
  exact congrArg mk (UInt16.toNat_inj.mp h)

/-- A float comes back from a wider format. -/
theorem Binary32.toBinary32_toBinary64 (x : Binary32) (hx : x.toBinary64.isNaN = false) :
    x.toBinary64.toBinary32 = x := by
  have h := embeds_binary32.convert_convert x.toNat_lt (by rwa [← x.toNat_toBinary64])
  rw [← x.toNat_toBinary64, ← Binary64.toNat_toBinary32] at h
  cases x
  exact congrArg mk (UInt32.toNat_inj.mp h)

namespace Binary64

theorem ext_toNat {x y : Binary64} (h : x.bits.toNat = y.bits.toNat) : x = y := by
  cases x
  cases y
  rw [mk.injEq]
  exact UInt64.toNat_inj.mp h

/-! ## Narrowing -/

variable {x y : Binary64}

theorem same_of_isNaN (hx : x.isNaN = true) : y.same x = false := by
  have hz : x.isZero = false := by
    have hx : Format.binary64.infinity < x.bits.toNat % Format.binary64.signBit := of_decide_eq_true hx
    exact decide_eq_false (Nat.ne_zero_of_lt hx)
  by_cases h : y = x
  · simp [same, h, hx]
  · simp [same, h, hz]

/-- With the same sign, equal numbers are the same bits. -/
theorem same_iff (hx : x.isNaN = false) (hs : y.isNegative = x.isNegative) : y.same x = true ↔ y = x := by
  have hz : y.isZero = true → x.isZero = true → y = x := by
    intro hy hx
    obtain ⟨s, m, hm, he⟩ := Format.exists_pattern x.toNat_lt
    obtain ⟨t, n, hn, he'⟩ := Format.exists_pattern y.toNat_lt
    simp only [isZero, isNegative, he, he', Format.pattern_mod hm, Format.pattern_mod hn, Format.isNegative_pattern hm,
      Format.isNegative_pattern hn, decide_eq_true_eq] at hx hy hs
    exact ext_toNat (by rw [he, he', hx, hy, hs])
  constructor
  · intro h
    simp only [same, Bool.and_eq_true, Bool.or_eq_true, decide_eq_true_eq] at h
    exact h.2.elim id fun h => hz h.1 h.2
  · rintro rfl
    simp [same, hx]

theorem isNegative_toBinary16 (x : Binary64) : x.toBinary16.toBinary64.isNegative = x.isNegative := by
  rw [isNegative, Binary16.toNat_toBinary64, Format.isNegative_convert (by decide) x.toBinary16.toNat_lt,
    toNat_toBinary16, Format.isNegative_convert (by decide) x.toNat_lt, isNegative]

theorem isNegative_toBinary32 (x : Binary64) : x.toBinary32.toBinary64.isNegative = x.isNegative := by
  rw [isNegative, Binary32.toNat_toBinary64, Format.isNegative_convert (by decide) x.toBinary32.toNat_lt,
    toNat_toBinary32, Format.isNegative_convert (by decide) x.toNat_lt, isNegative]

/-- Narrowing keeps a number if and only if some narrower float has it: that one is narrowed to itself. -/
theorem same_widen_iff {α : Type} {narrow : Binary64 → α} {widen : α → Binary64}
    (hs : (widen (narrow x)).isNegative = x.isNegative)
    (hw : ∀ a, (widen a).isNaN = false → narrow (widen a) = a) (hx : x.isNaN = false) :
    (widen (narrow x)).same x = true ↔ ∃ a, widen a = x := by
  rw [same_iff hx hs]
  constructor
  · intro h
    exact ⟨_, h⟩
  · rintro ⟨a, rfl⟩
    rw [hw a hx]

theorem same_toBinary16_iff (hx : x.isNaN = false) :
    x.toBinary16.toBinary64.same x = true ↔ ∃ h : Binary16, h.toBinary64 = x :=
  same_widen_iff x.isNegative_toBinary16 Binary16.toBinary16_toBinary64 hx

theorem same_toBinary32_iff (hx : x.isNaN = false) :
    x.toBinary32.toBinary64.same x = true ↔ ∃ s : Binary32, s.toBinary64 = x :=
  same_widen_iff x.isNegative_toBinary32 Binary32.toBinary32_toBinary64 hx

end Binary64

/-! ## The narrowest width -/

/-- The item holds the float, and no shorter item does. -/
structure HoldsNarrowly (i : Item) (x : Binary64) : Prop where
  asFloat_eq : i.asFloat = .ok x
  kind_half : i.kind = .half ↔ ∃ h : Binary16, h.toBinary64 = x
  kind_single : i.kind = .single ↔ (¬∃ h : Binary16, h.toBinary64 = x) ∧ ∃ s : Binary32, s.toBinary64 = x
  kind_double : i.kind = .double ↔ (¬∃ h : Binary16, h.toBinary64 = x) ∧ ¬∃ s : Binary32, s.toBinary64 = x

variable {x : Binary64}

theorem holdsNarrowly_narrowest (hx : x.isNaN = false) : HoldsNarrowly (narrowest x) x := by
  unfold narrowest
  by_cases hh : ∃ h : Binary16, h.toBinary64 = x
  · have hs := (Binary64.same_toBinary16_iff hx).mpr hh
    have he := (Binary64.same_iff hx x.isNegative_toBinary16).mp hs
    rw [if_pos hs]
    constructor <;> simp [Item.asFloat, Item.kind, he, hh]
  rw [if_neg (mt (Binary64.same_toBinary16_iff hx).mp hh)]
  by_cases hs : ∃ s : Binary32, s.toBinary64 = x
  · have hs' := (Binary64.same_toBinary32_iff hx).mpr hs
    have he := (Binary64.same_iff hx x.isNegative_toBinary32).mp hs'
    rw [if_pos hs']
    constructor <;> simp [Item.asFloat, Item.kind, he, hh, hs]
  · rw [if_neg (mt (Binary64.same_toBinary32_iff hx).mp hs)]
    constructor <;> simp [Item.asFloat, Item.kind, hh, hs]

theorem narrowest_of_isNaN (hx : x.isNaN = true) : narrowest x = .double x := by
  simp [narrowest, Binary64.same_of_isNaN hx]

/-- An integer that is a float is rounded to that one. -/
theorem Binary64.ofInt_of_toRat?_eq {n : Int} (h : x.number.toRat? = some (n : ℚ)) :
    (ofInt n).number = .finite (decide (n < 0)) n.natAbs ∧ (n ≠ 0 → ofInt n = x) := by
  obtain ⟨hlt, hn, hx⟩ := Format.ofInt_of_toRat?_eq (by decide) x.toNat_lt h
  have ht : (ofInt n).bits.toNat = Format.binary64.ofInt n := UInt64.toNat_ofNat_of_lt' hlt
  exact ⟨by rw [number, ht, hn], fun hne => ext_toNat (ht.trans (hx hne))⟩

theorem Binary64.isNaN_of_number_eq {negative : Bool} {magnitude : ℚ} (h : x.number = .finite negative magnitude) :
    x.isNaN = false := by
  rw [number, Format.number] at h
  split at h
  · cases h
  · rename_i hx
    exact Bool.eq_false_iff.mpr hx

/-- **A float becomes the shortest item that holds it**, with every bit kept, where widening changes no number. What is
not a number stays as it is, and an integer that is a float becomes the item of that float. -/
theorem create_float_narrowest :
    ((∀ h : Binary16, h.toBinary64.number = h.number) ∧ ∀ s : Binary32, s.toBinary64.number = s.number) ∧
    (∀ x : Binary64, x.isNaN = false → ∃ i, create .float (.float x) = .ok i ∧ HoldsNarrowly i x) ∧
    (∀ x : Binary64, x.isNaN = true → create .float (.float x) = .ok (.double x)) ∧
    ∀ (n : Int) (x : Binary64), x.number.toRat? = some (n : ℚ) →
      ∃ i y, create .float (.int n) = .ok i ∧ create .float (.float y) = .ok i ∧ HoldsNarrowly i y ∧
        y.number = .finite (decide (n < 0)) n.natAbs ∧ (n ≠ 0 → y = x) := by
  refine ⟨⟨Binary16.number_toBinary64, Binary32.number_toBinary64⟩, fun x hx => ⟨_, rfl, holdsNarrowly_narrowest hx⟩,
    fun x hx => congrArg Except.ok (narrowest_of_isNaN hx), fun n x h => ?_⟩
  obtain ⟨hn, hx⟩ := Binary64.ofInt_of_toRat?_eq h
  exact ⟨_, _, rfl, rfl, holdsNarrowly_narrowest (Binary64.isNaN_of_number_eq hn), hn, hx⟩

/-- Negative zero, a value that is not a number, and minus two, as a float and as an integer. -/
theorem create_float_narrowest_examples :
    let zero : Binary64 := ⟨0x8000000000000000⟩
    let nan : Binary64 := ⟨0x7FF0000000000001⟩
    let two : Binary64 := ⟨0xC000000000000000⟩
    (zero.isNaN = false ∧ ∃ i, create .float (.float zero) = .ok i ∧ HoldsNarrowly i zero) ∧
    (nan.isNaN = true ∧ create .float (.float nan) = .ok (.double nan)) ∧
    (two.number.toRat? = some ((-2 : Int) : ℚ) ∧
      ∃ i y, create .float (.int (-2)) = .ok i ∧ create .float (.float y) = .ok i ∧ HoldsNarrowly i y ∧
        y.number = .finite true 2 ∧ ((-2 : Int) ≠ 0 → y = two)) := by
  have hz : (⟨0x8000000000000000⟩ : Binary64).isNaN = false := by decide
  have hn : (⟨0x7FF0000000000001⟩ : Binary64).isNaN = true := by decide
  have ht : (⟨0xC000000000000000⟩ : Binary64).number.toRat? = some ((-2 : Int) : ℚ) := by
    have hs : Format.binary64.significand 0x4000000000000000 = 2 ^ 52 := by decide
    have he : Format.binary64.exponent 0x4000000000000000 = -51 := by decide
    have h : (⟨0xC000000000000000⟩ : Binary64).number = .finite true (Format.binary64.value 0x4000000000000000) := by
      rfl
    rw [h, Format.value, hs, he, Number.toRat?]
    norm_num
  exact ⟨⟨hz, create_float_narrowest.2.1 _ hz⟩, ⟨hn, create_float_narrowest.2.2.1 _ hn⟩, ht,
    create_float_narrowest.2.2.2 _ _ ht⟩

end Cbor
