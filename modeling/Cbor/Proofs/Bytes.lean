import Cbor.Bytes
import Mathlib.Algebra.Group.Nat.Defs

/-!
# Byte strings: the two ways back

- Big-endian numbers: `toNat` and `ofNat` are inverse to each other at every width (`toNat_ofNat`, `ofNat_toNat`).
- Text: `toString?` accepts exactly the UTF-8 bytes of strings (`toString?_eq_some_iff`).
- A word that the data holds at an offset is the data between two offsets (`extract_of_drop_eq`).
- `Shortest a b`: `a` is `b` itself or strictly shorter. This is how a canonical form stands to any other form of the
  same thing, and it passes to concatenations (`Shortest.append`).
-/

namespace Cbor.Bytes

/-! ## Big-endian numbers -/

theorem foldl_toNat (b : Bytes) (n : Nat) :
    b.foldl (fun n x => n * 256 + x.toNat) n = n * 256 ^ b.length + toNat b := by
  induction b generalizing n with
  | nil => simp [toNat]
  | cons x b ih =>
    have h0 : toNat (x :: b) = (0 * 256 + x.toNat) * 256 ^ b.length + toNat b := ih _
    rw [List.foldl_cons, ih, h0, List.length_cons, Nat.pow_succ']
    simp only [Nat.add_mul, Nat.mul_assoc, Nat.zero_mul, Nat.zero_add]
    omega

theorem toNat_cons (x : UInt8) (b : Bytes) : toNat (x :: b) = x.toNat * 256 ^ b.length + toNat b := by
  have h := foldl_toNat b (0 * 256 + x.toNat)
  simpa [toNat] using h

theorem toNat_lt (b : Bytes) : toNat b < 256 ^ b.length := by
  induction b with
  | nil => simp [toNat]
  | cons x b ih =>
    have hx : x.toNat ≤ 255 := by have := x.toNat_lt; omega
    have hm : x.toNat * 256 ^ b.length ≤ 255 * 256 ^ b.length := Nat.mul_le_mul_right _ hx
    rw [toNat_cons, List.length_cons, Nat.pow_succ']
    omega

theorem ofNat_succ (width n : Nat) : ofNat (width + 1) n = UInt8.ofNat (n / 256 ^ width) :: ofNat width n := by
  rw [ofNat, Nat.shiftRight_eq_div_pow, Nat.pow_mul]

/-- Only the low `width` bytes of a number count. -/
theorem ofNat_congr {width m n : Nat} (h : m % 256 ^ width = n % 256 ^ width) : ofNat width m = ofNat width n := by
  induction width with
  | zero => rfl
  | succ w ih =>
    rw [Nat.pow_succ] at h
    have hd : m / 256 ^ w % 256 = n / 256 ^ w % 256 := by
      rw [← Nat.mod_mul_right_div_self, h, Nat.mod_mul_right_div_self]
    have hl : m % 256 ^ w = n % 256 ^ w := by
      rw [← Nat.mod_mul_right_mod m (256 ^ w) 256, h, Nat.mod_mul_right_mod]
    have hb : UInt8.ofNat (m / 256 ^ w) = UInt8.ofNat (n / 256 ^ w) := by
      apply UInt8.toNat_inj.mp
      rw [UInt8.toNat_ofNat', UInt8.toNat_ofNat']
      exact hd
    rw [ofNat_succ, ofNat_succ, hb, ih hl]

theorem toNat_ofNat_mod (width n : Nat) : toNat (ofNat width n) = n % 256 ^ width := by
  induction width with
  | zero => simp [ofNat, toNat, Nat.mod_one]
  | succ w ih =>
    have hx : (UInt8.ofNat (n / 256 ^ w)).toNat = n / 256 ^ w % 256 := UInt8.toNat_ofNat'
    rw [ofNat_succ, toNat_cons, length_ofNat, ih, hx, Nat.pow_succ, Nat.mod_mul, Nat.mul_comm, Nat.add_comm]

theorem toNat_ofNat {width n : Nat} (h : n < 256 ^ width) : toNat (ofNat width n) = n := by
  rw [toNat_ofNat_mod, Nat.mod_eq_of_lt h]

theorem ofNat_toNat (b : Bytes) : ofNat b.length (toNat b) = b := by
  induction b with
  | nil => rfl
  | cons x b ih =>
    have hx : UInt8.ofNat ((x.toNat * 256 ^ b.length + toNat b) / 256 ^ b.length) = x := by
      rw [Nat.mul_comm, Nat.mul_add_div (Nat.pow_pos (by decide)), Nat.div_eq_of_lt (toNat_lt b), Nat.add_zero,
        UInt8.ofNat_toNat]
    have hb : ofNat b.length (x.toNat * 256 ^ b.length + toNat b) = ofNat b.length (toNat b) :=
      ofNat_congr (by rw [Nat.mul_comm, Nat.mul_add_mod])
    rw [toNat_cons, List.length_cons, ofNat_succ, hx, hb, ih]

/-- A number below 256 is the number of its byte. -/
theorem toNat_byte {n : Nat} (h : n < 256) : (UInt8.ofNat n).toNat = n := UInt8.toNat_ofNat_of_lt' h

/-- A number below `2 ^ 64` in eight bytes or fewer is the number of those bytes. -/
theorem toNat_uint64 {b : Bytes} (h : b.length ≤ 8) : (UInt64.ofNat (toNat b)).toNat = toNat b := by
  have hb := toNat_lt b
  have hp : 256 ^ b.length ≤ 256 ^ 8 := Nat.pow_le_pow_right (by decide) h
  rw [UInt64.toNat_ofNat', Nat.mod_eq_of_lt (by omega)]

/-! ## Text -/

theorem toList_loop (b : ByteArray) (i : Nat) (l : List UInt8) :
    ByteArray.toList.loop b i l = l.reverse ++ b.data.toList.drop i := by
  fun_induction ByteArray.toList.loop b i l with
  | case1 i l h ih =>
    have hi : i < b.data.toList.length := h
    have hg : b.get! i = b.data.toList[i] := getElem!_pos b.data i h
    rw [ih, List.drop_eq_getElem_cons hi, hg, List.reverse_cons, List.append_assoc]
    rfl
  | case2 i l h =>
    have hi : b.data.toList.length ≤ i := Nat.le_of_not_gt h
    rw [List.drop_eq_nil_of_le hi, List.append_nil]

theorem ofString_eq (s : String) : ofString s = s.toByteArray.data.toList := by
  rw [ofString, ByteArray.toList, toList_loop]
  rfl

/-- Exactly the bytes of a string are read back, as that string. -/
theorem toString?_eq_some_iff {b : Bytes} {s : String} : b.toString? = some s ↔ ofString s = b := by
  rw [ofString_eq, toString?, String.fromUTF8?]
  constructor
  · intro h
    split at h
    · cases h
      rfl
    · cases h
  · rintro rfl
    rw [dif_pos s.isValidUTF8]
    rfl

/-! ## Words at an offset -/

section Words

variable {data b rest : Bytes} {offset : Nat}

theorem length_of_drop_eq (h : data.drop offset = b ++ rest) : data.length - offset = b.length + rest.length := by
  rw [← List.length_drop, h, List.length_append]

theorem extract_of_drop_eq (h : data.drop offset = b ++ rest) : data.extract offset (offset + b.length) = b := by
  rw [List.extract_eq_take_drop, h, Nat.add_sub_cancel_left, List.take_left]

end Words

/-! ## Canonical forms -/

/-- Equal or strictly shorter. -/
def Shortest (a b : Bytes) : Prop := a = b ∨ a.length < b.length

namespace Shortest

variable {a a' b b' c : Bytes}

theorem refl (a : Bytes) : Shortest a a := .inl rfl

theorem length_le (h : Shortest a b) : a.length ≤ b.length := by
  rcases h with rfl | h
  · exact Nat.le_refl _
  · exact Nat.le_of_lt h

/-- A form as short as the shortest is the shortest. -/
theorem eq_of_length (h : Shortest a b) (hl : a.length = b.length) : a = b := by
  rcases h with rfl | h
  · rfl
  · omega

theorem trans (h : Shortest a b) (h' : Shortest b c) : Shortest a c := by
  rcases h with rfl | h
  · exact h'
  · exact .inr (Nat.lt_of_lt_of_le h h'.length_le)

theorem append (h : Shortest a b) (h' : Shortest a' b') : Shortest (a ++ a') (b ++ b') := by
  have hl := h.length_le
  have hl' := h'.length_le
  by_cases he : a.length = b.length ∧ a'.length = b'.length
  · rw [h.eq_of_length he.1, h'.eq_of_length he.2]
    exact refl _
  · right
    simp only [List.length_append]
    omega

theorem cons (x : UInt8) (h : Shortest a b) : Shortest (x :: a) (x :: b) := append (refl [x]) h

end Shortest

end Cbor.Bytes
