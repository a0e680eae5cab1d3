import Cbor.Proofs.Agreement
import Cbor.Proofs.Decoding
import Cbor.Proofs.Keeping
import Cbor.Proofs.Safety
import Mathlib.Data.Nat.Find

/-!
# Decoding in other surroundings

What is decoded at an offset does not depend on what surrounds it, nor on the limit, beyond what it must.

- Bytes before only move the offsets (`decodeWithDepth_prepend`).
- Bytes behind change nothing unless the data ends too early (`decodeWithDepth_append_of_ne`), and data that is cut off
  inside an item ends too early (`decodeWithDepth_take`). So no encoding is a proper prefix of another.
- There is one least limit from which on the outcome no longer changes, and below which the nesting is too deep
  (`exists_depth`).
-/

namespace Cbor

open Reader (moved)

/-! ## Bytes before -/

theorem cursor_at_prepend (p d : Bytes) (offset : Nat) :
    Cursor.at (p ++ d) (p.length + offset) = (Cursor.at d offset).within p.length [] := by
  rw [Cursor.at, Cursor.at, Cursor.within, List.drop_length_add_append, List.append_nil, Nat.add_comm]

/-- A reader that agrees with itself wherever it stands gives the same behind other bytes, but for the offsets. -/
theorem Reader.Agrees.readAt_prepend {α : Type} {r : Reader α} {p : Bytes}
    (hr : Reader.Agrees p.length [] (fun _ => False) r r) (d : Bytes) (offset : Nat) :
    r.readAt (p ++ d) (p.length + offset) = moved p.length (r.readAt d offset) := by
  rcases hr.readAt (cursor_at_prepend p d offset) with ⟨_, he, -⟩ | h
  · exact he.elim
  · exact h

theorem decodeWithDepth_prepend (p d : Bytes) (offset D : Nat) :
    decodeWithDepth (p ++ d) (p.length + offset) D = moved p.length (decodeWithDepth d offset D) :=
  (Reader.agrees_item (.inl rfl) (Nat.le_refl D) (.inl rfl)).readAt_prepend d offset

/-- **Decoding does not depend on the position**: with more bytes before, the result is the same item or length, or the
same fault, and its offsets are greater by the number of those bytes. -/
theorem decoders_moved (p d : Bytes) (offset : Nat) :
    (∀ D, decodeWithDepth (p ++ d) (p.length + offset) D = moved p.length (decodeWithDepth d offset D)) ∧
      decodeLength (p ++ d) (p.length + offset) = moved p.length (decodeLength d offset) :=
  ⟨decodeWithDepth_prepend p d offset, (Reader.agrees_length (.inl rfl)).readAt_prepend d offset⟩

/-! ## Bytes behind -/

theorem cursor_at_append {d : Bytes} {offset : Nat} (h : offset ≤ d.length) (s : Bytes) :
    Cursor.at (d ++ s) offset = (Cursor.at d offset).within 0 s := by
  rw [Cursor.at, Cursor.at, Cursor.within, List.drop_append_of_le_length h, Nat.add_zero]

/-- Beyond the end of the data there is no item. -/
theorem decodeWithDepth_of_length_le {d : Bytes} {offset : Nat} (h : d.length ≤ offset) (D : Nat) :
    decodeWithDepth d offset D = .error (.outOfData offset) := by
  refine Reader.readAt_eq_error_iff.mpr ?_
  rw [Machine.cursor_at_nil h]
  cases D <;> rfl

theorem decodeWithDepth_ne_stalled {d : Bytes} (hd : d.length < 2 ^ 63) (offset D o : Nat) :
    decodeWithDepth d offset D ≠ .error (.stalled o) := by
  let m : Machine := ⟨d, fun start => d.length - start + 1⟩
  have ha := Machine.advances_item (m := m) hd (fun _ => Nat.le_refl _) D offset
  exact ha.returnsPast.notStalled o

/-- What is decided is not changed by more data. -/
theorem decodeWithDepth_append_of_ne {d : Bytes} (hd : d.length < 2 ^ 63) {offset D : Nat}
    (h : ∀ o, decodeWithDepth d offset D ≠ .error (.outOfData o)) (s : Bytes) :
    decodeWithDepth (d ++ s) offset D = decodeWithDepth d offset D := by
  have ho : offset ≤ d.length := by
    apply Nat.le_of_not_lt
    intro ho
    exact h offset (decodeWithDepth_of_length_le (Nat.le_of_lt ho) D)
  have hs : Reader.Tolerant s fun e => ∃ o, e = .outOfData o ∨ e = .stalled o :=
    .inr fun o => ⟨⟨o, .inl rfl⟩, ⟨o, .inr rfl⟩⟩
  have ha := Reader.agrees_item (p := 0) hs (Nat.le_refl D) (.inl rfl)
  rcases ha.readAt (cursor_at_append ho s) with ⟨_, ⟨o, rfl | rfl⟩, he⟩ | he
  · exact absurd he (h o)
  · exact absurd he (decodeWithDepth_ne_stalled hd offset D o)
  · rwa [Reader.moved_zero] at he

theorem decodeWithDepth_append {d : Bytes} {offset D n : Nat} {x : Item}
    (h : decodeWithDepth d offset D = .ok (x, n)) (s : Bytes) : decodeWithDepth (d ++ s) offset D = .ok (x, n) := by
  obtain ⟨b, rest, hb, rfl, he⟩ := decodeWithDepth_ok_iff.mp h
  have hlen := Bytes.length_of_drop_eq hb
  have hpos := he.opens.length_pos
  refine decodeWithDepth_ok_iff.mpr ⟨b, rest ++ s, ?_, rfl, he⟩
  rw [List.drop_append_of_le_length (by omega), hb, List.append_assoc]

/-- Data that is cut off inside an item is out of data, no further on than where it is cut off. -/
theorem decodeWithDepth_take {d : Bytes} (hd : d.length < 2 ^ 63) {offset D n : Nat} {x : Item}
    (h : decodeWithDepth d offset D = .ok (x, n)) {k : Nat} (hk : offset ≤ k) (hn : k < n) :
    ∃ o ≤ k, decodeWithDepth (d.take k) offset D = .error (.outOfData o) := by
  have hnd := (decodeWithDepth_past h).2
  have hlen : (d.take k).length = k := by
    rw [List.length_take]
    omega
  by_cases hc : ∀ o, decodeWithDepth (d.take k) offset D ≠ .error (.outOfData o)
  · -- What is decided before the cut would be the item, which ends behind it.
    have ha := decodeWithDepth_append_of_ne (by omega) hc (d.drop k)
    rw [List.take_append_drop, h] at ha
    have := (decodeWithDepth_past ha.symm).2
    omega
  · simp only [not_forall, Decidable.not_not] at hc
    obtain ⟨o, ho⟩ := hc
    have hle := decodeWithDepth_outOfData_le (by omega) ho
    exact ⟨o, by omega, ho⟩

/-- No encoding is a proper prefix of another, of whatever item and under whatever limit. -/
theorem encodes_prefix_eq {D D' : Nat} {b b' : Bytes} {x y : Item} (hx : Encodes D b x) (hy : Encodes D' b' y)
    (h : b <+: b') : b = b' ∧ x = y := by
  obtain ⟨t, rfl⟩ := h
  have hall {w : Bytes} {z : Item} (hz : Encodes (max D D') w z) :
      decodeWithDepth w 0 (max D D') = .ok (z, w.length) :=
    decodeWithDepth_ok_iff.mpr ⟨w, [], (List.append_nil w).symm, (Nat.zero_add _).symm, hz⟩
  have hd := decodeWithDepth_append (hall (hx.mono (Nat.le_max_left D D'))) t
  have hd' := hall (hy.mono (Nat.le_max_right D D'))
  rw [hd] at hd'
  obtain ⟨rfl, hl⟩ := Prod.mk.inj (Except.ok.inj hd')
  rw [List.length_append] at hl
  obtain rfl : t = [] := List.eq_nil_of_length_eq_zero (by omega)
  exact ⟨(List.append_nil b).symm, rfl⟩

/-- **What is decided survives more data, and what is cut off is out of data.** A result, and a fault other than that
the data ends, is the same whatever follows. If the data is cut off inside an item, it ends too early, no further on
than where it is cut off; so no encoding is a proper prefix of another. -/
theorem decodeWithDepth_decided {d s : Bytes} (hl : (d ++ s).length < 2 ^ 63) (offset D : Nat) :
    ((∀ o, decodeWithDepth d offset D ≠ .error (.outOfData o)) →
      decodeWithDepth (d ++ s) offset D = decodeWithDepth d offset D) ∧
    (∀ x n, decodeWithDepth d offset D = .ok (x, n) → ∀ k, offset ≤ k → k < n →
      ∃ o ≤ k, decodeWithDepth (d.take k) offset D = .error (.outOfData o)) ∧
    ∀ D' b b' x y, Encodes D b x → Encodes D' b' y → b <+: b' → b = b' := by
  have hd : d.length < 2 ^ 63 := by
    rw [List.length_append] at hl
    omega
  refine ⟨fun h => decodeWithDepth_append_of_ne hd h s, ?_, ?_⟩
  · intro x n h k hk hn
    exact decodeWithDepth_take hd h hk hn
  · intro D' b b' x y hx hy h
    exact (encodes_prefix_eq hx hy h).1

/-- After a byte that is left out, an open array of a time from the epoch and a byte string in pieces. -/
def Bytes.openArray : Bytes := [0xFF, 0x9F, 0xC1, 0x18, 5, 0x5F, 0x41, 1, 0xFF, 0xFF]

theorem decodeWithDepth_decided_openArray :
    (Bytes.openArray ++ [0x1C]).length < 2 ^ 63 ∧
      decodeWithDepth (Bytes.openArray ++ [0x1C]) 1 2 =
        .ok (.array [.epochTime (.unsigned 5), .byteChunks [[1]]] true, 10) ∧
      ∃ o ≤ 7, decodeWithDepth (Bytes.openArray.take 7) 1 2 = .error (.outOfData o) := by
  have hl : (Bytes.openArray ++ [0x1C]).length < 2 ^ 63 := by decide
  have h : decodeWithDepth Bytes.openArray 1 2 =
      .ok (.array [.epochTime (.unsigned 5), .byteChunks [[1]]] true, 10) := rfl
  obtain ⟨ha, ht, -⟩ := decodeWithDepth_decided hl 1 2
  refine ⟨hl, ?_, ht _ 10 h 7 (by decide) (by decide)⟩
  rw [ha, h]
  intro o ho
  rw [h] at ho
  cases ho

/-! ## The limit on the nesting -/

/-- There is one least limit that is not too small, and it is no greater than the number of bytes. -/
theorem exists_depth (data : Bytes) (offset : Nat) : ∃ h ≤ data.length - offset,
    decodeWithDepth data offset h ≠ .error .tooDeep ∧
      ∀ D < h, decodeWithDepth data offset D = .error .tooDeep := by
  classical
  have hex : ∃ D, decodeWithDepth data offset D ≠ .error .tooDeep :=
    ⟨data.length - offset, decodeWithDepth_ne_tooDeep (Nat.le_refl _)⟩
  refine ⟨Nat.find hex, Nat.find_min' hex (decodeWithDepth_ne_tooDeep (Nat.le_refl _)), Nat.find_spec hex, ?_⟩
  intro D hD
  exact Decidable.not_not.mp (Nat.find_min hex hD)

/-- A limit that is not too small gives the same as any greater one. -/
theorem decodeWithDepth_eq_of_ne {data : Bytes} {offset D : Nat} (h : decodeWithDepth data offset D ≠ .error .tooDeep)
    {D' : Nat} (hD : D ≤ D') : decodeWithDepth data offset D' = decodeWithDepth data offset D := by
  rcases decodeWithDepth_of_le hD data offset with hd | hd
  · exact absurd hd h
  · exact hd.symm

/-- **The limit on the nesting only ever adds that it is met, below one threshold.** From the threshold on, which is no
greater than the number of bytes from the offset on, every limit gives the same result or the same fault. -/
theorem decodeWithDepth_threshold (data : Bytes) (offset : Nat) :
    (∃ h ≤ data.length - offset, ∃ R, R ≠ .error .tooDeep ∧
      ∀ D, decodeWithDepth data offset D = if h ≤ D then R else .error .tooDeep) ∧
    (∀ D D', D ≤ D' → decodeWithDepth data offset D ≠ .error .tooDeep →
      decodeWithDepth data offset D' = decodeWithDepth data offset D) ∧
    ∀ D, data.length ≤ D → decodeWithDepth data offset D = decodeWithDepth data offset data.length := by
  refine ⟨?_, fun D D' hD h => decodeWithDepth_eq_of_ne h hD, fun D hD => ?_⟩
  · obtain ⟨h, hle, hne, hlt⟩ := exists_depth data offset
    refine ⟨h, hle, decodeWithDepth data offset h, hne, fun D => ?_⟩
    split
    · rename_i hD
      exact decodeWithDepth_eq_of_ne hne hD
    · rename_i hD
      exact hlt D (Nat.not_le.mp hD)
  · exact decodeWithDepth_eq_of_ne (decodeWithDepth_ne_tooDeep (Nat.sub_le _ _)) hD

/-- An array of a time from the epoch over an open array, in which a reserved initial byte stands. -/
def Bytes.reservedWithin : Bytes := [0x81, 0xC1, 0x9F, 0x1C]

theorem decodeWithDepth_threshold_reservedWithin :
    decodeWithDepth Bytes.reservedWithin 0 2 = .error .tooDeep ∧
      decodeWithDepth Bytes.reservedWithin 0 0xFFFFFFFFFFFFFFFF = .error (.reservedInfo 28 3) := by
  have h : decodeWithDepth Bytes.reservedWithin 0 3 = .error (.reservedInfo 28 3) := rfl
  obtain ⟨-, hd, -⟩ := decodeWithDepth_threshold Bytes.reservedWithin 0
  refine ⟨rfl, (hd 3 _ (by decide) ?_).trans h⟩
  intro ht
  rw [h] at ht
  cases ht

end Cbor
