import Cbor.Proofs.Bytes
import Cbor.Head

/-!
# Heads: every spelling of an argument

- An initial byte is its major type and its additional info, by division (`initialByte_div`, `initialByte_mod`,
  `initialByte_eta`) and by shifts and masks (`shiftRight_initialByte`, `and_initialByte`).
- `Argument info v b`: the additional info `info` and the bytes `b` after the initial byte spell the argument `v`, in
  any of the five widths that can hold it.
- `encode` writes one of the spellings (`argument_infoFor`), and of all of them the shortest (`Argument.shortest`);
  a greater argument never takes fewer bytes (`length_encode_mono`).
-/

namespace Cbor.Head

/-! ## Initial bytes -/

theorem toNat_initialByte {major info : UInt8} (hm : major.toNat < 8) (hi : info.toNat < 32) :
    (initialByte major info).toNat = 32 * major.toNat + info.toNat := by
  have ho := Nat.two_pow_add_eq_or_of_lt (show info.toNat < 2 ^ 5 from hi) major.toNat
  have hs : (major <<< 5).toNat = 2 ^ 5 * major.toNat := by
    rw [UInt8.toNat_shiftLeft, Nat.shiftLeft_eq]
    simp only [UInt8.reduceToNat, Nat.reduceMod, Nat.reducePow]
    omega
  rw [initialByte, UInt8.toNat_or, hs, ← ho]

theorem initialByte_div {major info : UInt8} (hm : major.toNat < 8) (hi : info.toNat < 32) :
    (initialByte major info).toNat / 32 = major.toNat := by
  rw [toNat_initialByte hm hi]
  omega

theorem initialByte_mod {major info : UInt8} (hm : major.toNat < 8) (hi : info.toNat < 32) :
    (initialByte major info).toNat % 32 = info.toNat := by
  rw [toNat_initialByte hm hi]
  omega

/-- A byte is the initial byte of its upper three and lower five bits. -/
theorem initialByte_eta (x : UInt8) : initialByte (.ofNat (x.toNat / 32)) (.ofNat (x.toNat % 32)) = x := by
  have hx := x.toNat_lt
  have hm : (UInt8.ofNat (x.toNat / 32)).toNat = x.toNat / 32 := Bytes.toNat_byte (by omega)
  have hi : (UInt8.ofNat (x.toNat % 32)).toNat = x.toNat % 32 := Bytes.toNat_byte (by omega)
  apply UInt8.toNat_inj.mp
  rw [toNat_initialByte (by omega) (by omega), hm, hi]
  omega

theorem initialByte_of_div {x major : UInt8} (h : x.toNat / 32 = major.toNat) :
    initialByte major (.ofNat (x.toNat % 32)) = x := by
  have he := initialByte_eta x
  rwa [h, UInt8.ofNat_toNat] at he

theorem shiftRight_eq (b : UInt8) : b >>> 5 = .ofNat (b.toNat / 32) := by
  have hb := b.toNat_lt
  apply UInt8.toNat_inj.mp
  rw [UInt8.toNat_shiftRight, Nat.shiftRight_eq_div_pow, Bytes.toNat_byte (by omega)]
  rfl

theorem and_eq (b : UInt8) : b &&& 31 = .ofNat (b.toNat % 32) := by
  have hb := b.toNat_lt
  apply UInt8.toNat_inj.mp
  rw [UInt8.toNat_and, Bytes.toNat_byte (by omega)]
  exact Nat.and_two_pow_sub_one_eq_mod b.toNat 5

/-- A byte is made of its upper three and its lower five bits. -/
theorem initialByte_shiftRight_and (b : UInt8) : initialByte (b >>> 5) (b &&& 31) = b := by
  rw [shiftRight_eq, and_eq, initialByte_eta]

theorem shiftRight_initialByte {major info : UInt8} (hm : major.toNat < 8) (hi : info.toNat < 32) :
    initialByte major info >>> 5 = major := by
  rw [shiftRight_eq, initialByte_div hm hi, UInt8.ofNat_toNat]

theorem and_initialByte {major info : UInt8} (hm : major.toNat < 8) (hi : info.toNat < 32) :
    initialByte major info &&& 31 = info := by
  rw [and_eq, initialByte_mod hm hi, UInt8.ofNat_toNat]

/-- Of the major type only the low three bits count. -/
theorem initialByte_mod_eight (major info : UInt8) : initialByte (major % 8) info = initialByte major info := by
  have hs : (major % 8) <<< 5 = major <<< 5 := by
    apply UInt8.toNat_inj.mp
    simp only [UInt8.toNat_shiftLeft, UInt8.toNat_mod, UInt8.reduceToNat, Nat.reduceMod, Nat.shiftLeft_eq]
    omega
  rw [initialByte, initialByte, hs]

theorem initialByte_ne_breakByte {major info : UInt8} (hm : major.toNat < 8) (hi : info.toNat < 32)
    (h : major.toNat < 7 ∨ info.toNat < 31) : initialByte major info ≠ breakByte := by
  intro he
  have ht := congrArg UInt8.toNat he
  rw [toNat_initialByte hm hi] at ht
  simp only [breakByte, UInt8.reduceToNat] at ht
  omega

/-! ## Arguments -/

/-- The additional info and the bytes after the initial byte that spell an argument. -/
inductive Argument : UInt8 → UInt64 → Bytes → Prop
  | inline {v : UInt64} : v.toNat < 24 → Argument v.toUInt8 v []
  | following {v : UInt64} {k : Nat} : k < 4 → v.toNat < 256 ^ 2 ^ k →
      Argument (.ofNat (24 + k)) v (Bytes.ofNat (2 ^ k) v.toNat)

theorem Argument.info_lt {info : UInt8} {v : UInt64} {b : Bytes} (h : Argument info v b) : info.toNat < 28 := by
  cases h with
  | inline hv =>
    rw [UInt64.toNat_toUInt8]
    omega
  | following hk _ =>
    rw [Bytes.toNat_byte (by omega)]
    omega

theorem Argument.info_lt_32 {info : UInt8} {v : UInt64} {b : Bytes} (h : Argument info v b) : info.toNat < 32 :=
  Nat.lt_trans h.info_lt (by decide)

theorem Argument.ofNat_toNat {info : UInt8} {v : UInt64} {b : Bytes} (h : Argument info v b) :
    Argument (.ofNat info.toNat) v b := by rwa [UInt8.ofNat_toNat]

/-- The additional info of something of indefinite length spells no argument. -/
theorem Argument.info_ne {info : Nat} {v : UInt64} {b : Bytes} (h : Argument (.ofNat info) v b) (hi : info < 32) :
    info ≠ 31 := by
  have := h.info_lt
  rw [Bytes.toNat_byte (by omega)] at this
  omega

theorem argument_inline_iff {info : Nat} {v : UInt64} {b : Bytes} (hi : info < 24) :
    Argument (.ofNat info) v b ↔ b = [] ∧ v = .ofNat info := by
  have hb : (UInt8.ofNat info).toNat = info := Bytes.toNat_byte (by omega)
  have hv : (UInt64.ofNat info).toNat = info := UInt64.toNat_ofNat_of_lt' (Nat.lt_trans hi (by decide))
  constructor
  · intro h
    generalize hx : UInt8.ofNat info = x at h
    cases h with
    | inline hv' =>
      refine ⟨rfl, UInt64.toNat_inj.mp ?_⟩
      rw [hx, UInt64.toNat_toUInt8] at hb
      omega
    | following hk _ =>
      rw [hx, Bytes.toNat_byte (by omega)] at hb
      omega
  · rintro ⟨rfl, rfl⟩
    have hx : (UInt64.ofNat info).toUInt8 = .ofNat info := by
      apply UInt8.toNat_inj.mp
      rw [UInt64.toNat_toUInt8, hv, hb]
      omega
    exact hx ▸ .inline (by omega)

theorem argument_following_iff {k : Nat} {v : UInt64} {b : Bytes} (hk : k < 4) :
    Argument (.ofNat (24 + k)) v b ↔ b.length = 2 ^ k ∧ v = .ofNat (Bytes.toNat b) := by
  have hb : (UInt8.ofNat (24 + k)).toNat = 24 + k := Bytes.toNat_byte (by omega)
  constructor
  · intro h
    generalize hx : UInt8.ofNat (24 + k) = x at h
    cases h with
    | inline hv =>
      rw [hx, UInt64.toNat_toUInt8] at hb
      omega
    | @following _ j hj hv =>
      rw [hx, Bytes.toNat_byte (by omega)] at hb
      obtain rfl : j = k := by omega
      exact ⟨Bytes.length_ofNat _ _, by rw [Bytes.toNat_ofNat hv, UInt64.ofNat_toNat]⟩
  · rintro ⟨hl, rfl⟩
    have hp : 2 ^ k ≤ 2 ^ 3 := Nat.pow_le_pow_right (by decide) (by omega)
    have hn : (UInt64.ofNat (Bytes.toNat b)).toNat = Bytes.toNat b := Bytes.toNat_uint64 (by omega)
    have h := Argument.following (v := .ofNat (Bytes.toNat b)) hk (by rw [hn, ← hl]; exact Bytes.toNat_lt b)
    rwa [hn, ← hl, Bytes.ofNat_toNat] at h

/-! ## The shortest spelling -/

theorem width_of_lt {info : UInt8} (h : info.toNat < 24) : width info = 0 := by
  unfold width
  split <;> omega

/-- The shortest head is inline below 24, and otherwise takes the first of the four widths that holds the argument. -/
theorem infoFor_cases (v : UInt64) :
    (v.toNat < 24 ∧ infoFor v = v.toUInt8 ∧ width (infoFor v) = 0) ∨
    ∃ k < 4, 24 ≤ v.toNat ∧ v.toNat < 256 ^ 2 ^ k ∧ (0 < k → 256 ^ 2 ^ (k - 1) ≤ v.toNat) ∧
      infoFor v = .ofNat (24 + k) ∧ width (infoFor v) = 2 ^ k := by
  have hv := v.toNat_lt
  by_cases h0 : v.toNat < 24
  · have he : infoFor v = v.toUInt8 := if_pos (UInt64.lt_iff_toNat_lt.mpr h0)
    have hi : v.toUInt8.toNat < 24 := by
      rw [UInt64.toNat_toUInt8]
      omega
    exact .inl ⟨h0, he, he ▸ width_of_lt hi⟩
  right
  have hf : infoFor v = if v ≤ 0xFF then 24 else if v ≤ 0xFFFF then 25 else if v ≤ 0xFFFFFFFF then 26 else 27 :=
    if_neg fun h => h0 (UInt64.lt_iff_toNat_lt.mp h)
  simp only [UInt64.le_iff_toNat_le, UInt64.reduceToNat] at hf
  by_cases h1 : v.toNat ≤ 0xFF
  · rw [if_pos h1] at hf
    exact ⟨0, by omega, by omega, by omega, by omega, hf, hf ▸ rfl⟩
  rw [if_neg h1] at hf
  by_cases h2 : v.toNat ≤ 0xFFFF
  · rw [if_pos h2] at hf
    exact ⟨1, by omega, by omega, by omega, by omega, hf, hf ▸ rfl⟩
  rw [if_neg h2] at hf
  by_cases h3 : v.toNat ≤ 0xFFFFFFFF
  · rw [if_pos h3] at hf
    exact ⟨2, by omega, by omega, by omega, by omega, hf, hf ▸ rfl⟩
  rw [if_neg h3] at hf
  exact ⟨3, by omega, by omega, by omega, by omega, hf, hf ▸ rfl⟩

/-- The head that `encode` writes is one of the spellings. -/
theorem argument_infoFor (v : UInt64) : Argument (infoFor v) v (Bytes.ofNat (width (infoFor v)) v.toNat) := by
  rcases infoFor_cases v with ⟨hv, hi, hw⟩ | ⟨k, hk, -, hv, -, hi, hw⟩
  · rw [hw, hi]
    exact .inline hv
  · rw [hw, hi]
    exact .following hk hv

/-- No spelling of an argument is shorter than that of `encode`, and no other is as short. -/
theorem Argument.shortest (major : UInt8) {info : UInt8} {v : UInt64} {b : Bytes} (h : Argument info v b) :
    Bytes.Shortest (encode major v) (initialByte major info :: b) := by
  unfold encode
  rcases infoFor_cases v with ⟨hv, hi, hw⟩ | ⟨k, hk, hv, hlt, hle, hi, hw⟩ <;> rw [hw, hi]
  · cases h with
    | inline _ => exact .refl _
    | @following _ j _ _ =>
      right
      have := Nat.two_pow_pos j
      simp [this]
  · cases h with
    | inline hv' => omega
    | @following _ j _ hj =>
      rcases Nat.lt_trichotomy j k with hjk | rfl | hkj
      · have hp : 256 ^ 2 ^ j ≤ 256 ^ 2 ^ (k - 1) :=
          Nat.pow_le_pow_right (by decide) (Nat.pow_le_pow_right (by decide) (by omega))
        have := hle (by omega)
        omega
      · exact .refl _
      · right
        have := Nat.pow_lt_pow_right (show 1 < 2 by decide) hkj
        simpa using this

theorem length_encode_pos (major : UInt8) (v : UInt64) : 0 < (encode major v).length := Nat.succ_pos _

/-- A greater argument never takes fewer bytes. -/
theorem length_encode_mono (major : UInt8) {v w : UInt64} (h : v.toNat ≤ w.toNat) :
    (encode major v).length ≤ (encode major w).length := by
  rcases infoFor_cases w with ⟨hw, -, -⟩ | ⟨k, hk, -, hw, -, -, hl⟩
  · have hs := (Argument.inline (show v.toNat < 24 by omega)).shortest major
    exact Nat.le_trans hs.length_le (length_encode_pos major w)
  · have hs := (Argument.following hk (show v.toNat < 256 ^ 2 ^ k by omega)).shortest major
    have he : (encode major w).length = 2 ^ k + 1 := by rw [encode, List.length_cons, Bytes.length_ofNat, hl]
    have := hs.length_le
    rw [List.length_cons, Bytes.length_ofNat] at this
    omega

theorem encode_of_lt (major : UInt8) {v : UInt64} (h : v.toNat < 24) :
    encode major v = [initialByte major v.toUInt8] := by
  rcases infoFor_cases v with ⟨-, hi, hw⟩ | ⟨k, -, hv, -⟩
  · rw [encode, hw, hi]
    rfl
  · omega

theorem encode_of_byte (major : UInt8) {v : UInt64} (h : 24 ≤ v.toNat) (h' : v.toNat < 256) :
    encode major v = [initialByte major 24, v.toUInt8] := by
  rcases infoFor_cases v with ⟨hv, -⟩ | ⟨k, -, -, -, hle, hi, hw⟩
  · omega
  · obtain rfl : k = 0 := Nat.eq_zero_of_not_pos fun hk => by
      have hp : 256 ^ 1 ≤ 256 ^ 2 ^ (k - 1) := Nat.pow_le_pow_right (by decide) (Nat.two_pow_pos _)
      have := hle hk
      omega
    have hb : Bytes.ofNat (2 ^ 0) v.toNat = [v.toUInt8] := by
      rw [show 2 ^ 0 = 0 + 1 from rfl, Bytes.ofNat_succ, Nat.pow_zero, Nat.div_one]
      rfl
    rw [encode, hw, hi, hb]
    rfl

end Cbor.Head
