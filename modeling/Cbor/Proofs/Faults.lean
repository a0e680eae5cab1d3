import Cbor.Proofs.Keeping
import Cbor.Proofs.Surroundings

/-!
# Where the data is at fault

`e.Located data offset`: what a decoding error says of the data from an offset on. Its offset lies there, and the bytes
that stand at it are as the error says: reserved, out of place, or a text string that is complete and no text.

- What is at fault at a place of the data is located by the error (`located_of_faultAt`).
- So is every error of the decoder, but for the limit on the nesting, which is at fault nowhere
  (`decode_errors_located`).
-/

namespace Cbor

open Head (initialByte indefiniteInfo breakByte)

/-- What an error says of the data from an offset on. -/
def DecodeError.Located (data : Bytes) (offset : Nat) : DecodeError → Prop
  | .outOfData o => offset ≤ o ∧ o ≤ data.length
  | .reservedInfo info o => offset ≤ o ∧ ∃ i, data[o]? = some i ∧ i.toNat % 32 = info ∧ Head.ReservedInfo i
  | .strayBreak o => offset ≤ o ∧ data[o]? = some breakByte
  | .invalidChunk o => ∃ start major chunks i, offset ≤ start ∧ start < o ∧ (major = 2 ∨ major = 3) ∧
      data[start]? = some (initialByte major indefiniteInfo) ∧
      Series (EncodesString major) (data.extract (start + 1) o) chunks ∧
      data[o]? = some i ∧ i ≠ breakByte ∧ Head.NoChunk major i
  | .reservedSimple v => v.toNat < 32 ∧ ∃ o ≥ offset, data[o]? = some 0xF8 ∧ data[o + 1]? = some v
  | .invalidUtf8 o => offset ≤ o ∧ (∃ i, data[o]? = some i ∧ i.toNat / 32 = 3) ∧
      ∃ stop ≤ data.length, ∃ piece, HoldsPiece (data.extract o stop) piece ∧ piece.toString? = none
  | .tooDeep => True
  | .trailing _ | .stalled _ => False

/-! ## Places in the data -/

/-- A word that stands at an offset leads to the offset behind it. -/
theorem Cursor.Past.eq_at {data b : Bytes} {o : Nat} {c : Cursor} (h : (Cursor.at data o).Past b c) :
    c = .at data (o + b.length) := by
  have hr : data.drop o = b ++ c.rest := h.rest
  have hd : data.drop (o + b.length) = c.rest := by rw [← List.drop_drop, hr, List.drop_left]
  rw [← h.eq, Cursor.at, Cursor.at, hd]

theorem getElem?_of_drop_eq {data b rest : Bytes} {o : Nat} {i : UInt8} (h : data.drop o = b ++ i :: rest) :
    data[o + b.length]? = some i := by
  rw [← List.getElem?_drop, h, List.getElem?_append_right (Nat.le_refl _), Nat.sub_self]
  rfl

theorem getElem?_of_drop_eq_cons {data rest : Bytes} {o : Nat} {i : UInt8} (h : data.drop o = i :: rest) :
    data[o]? = some i := getElem?_of_drop_eq (b := []) h

/-- A text string begins with an initial byte of major type 3. -/
theorem HoldsPiece.initial {w piece : Bytes} (h : HoldsPiece w piece) :
    ∃ i t, w = i :: t ∧ i.toNat / 32 = 3 := by
  cases h with
  | definite hs =>
    cases hs with
    | mk ha _ => exact ⟨_, _, rfl, Head.initialByte_div (by decide) ha.info_lt_32⟩
  | chunk _ _ => exact ⟨_, _, rfl, by decide⟩

/-- What is at fault at a place from the offset on is located by the error. -/
theorem located_of_faultAt {data : Bytes} {offset o : Nat} {e : DecodeError} (ho : offset ≤ o) (hl : o ≤ data.length)
    (h : FaultAt (.at data o) e) : e.Located data offset ∨ ∃ o, e = .stalled o := by
  cases h with
  | outOfData => exact .inl ⟨ho, hl⟩
  | stalled => exact .inr ⟨_, rfl⟩
  | reservedInfo hr hi => exact .inl ⟨ho, _, getElem?_of_drop_eq_cons hr, rfl, hi⟩
  | strayBreak hr => exact .inl ⟨ho, getElem?_of_drop_eq_cons hr⟩
  | @reservedSimple v rest hr hv =>
    exact .inl ⟨hv, o, ho, getElem?_of_drop_eq_cons hr, getElem?_of_drop_eq (b := [_]) hr⟩
  | @invalidChunk major i b rest chunks hm hr hs hi hn =>
    have hb : data.drop (o + 1) = b ++ i :: rest := by
      have hr' : data.drop o = _ := hr
      rw [← List.drop_drop, hr']
      rfl
    refine .inl ⟨o, major, chunks, i, ho, ?_, hm, getElem?_of_drop_eq_cons hr, ?_, getElem?_of_drop_eq hb, hi, hn⟩
    · show o < o + 1 + b.length
      omega
    · show Series _ (data.extract (o + 1) (o + 1 + b.length)) chunks
      rwa [Bytes.extract_of_drop_eq hb]
  | @invalidUtf8 w piece rest hr hp hn =>
    have hr' : data.drop o = w ++ rest := hr
    have hlen := Bytes.length_of_drop_eq hr'
    obtain ⟨i, t, hw, hi⟩ := hp.initial
    refine .inl ⟨ho, ⟨i, ?_, hi⟩, o + w.length, by omega, piece, ?_, hn⟩
    · rw [hw] at hr'
      exact getElem?_of_drop_eq_cons hr'
    · show HoldsPiece (data.extract o (o + w.length)) piece
      rwa [Bytes.extract_of_drop_eq hr']

/-- The offsets of the data from one on, with the errors that are located there. -/
theorem onward_located (data : Bytes) (offset : Nat) :
    Reader.Onward (fun c => ∃ o, offset ≤ o ∧ o ≤ data.length ∧ c = .at data o)
      (fun e => e.Located data offset ∨ ∃ o, e = .stalled o) where
  past h hc := by
    obtain ⟨o, ho, hl, rfl⟩ := hc
    have hlen := Bytes.length_of_drop_eq h.rest
    exact ⟨_, by omega, by omega, h.eq_at⟩
  fault hc h := by
    obtain ⟨o, ho, hl, rfl⟩ := hc
    exact located_of_faultAt ho hl h

/-- **Errors say where the data is at fault, and how.** Every error at an offset of the data is located from that offset
on; the only other error of decoding the whole data counts the bytes that are left behind the item. -/
theorem decode_errors_located {data : Bytes} (hd : data.length < 2 ^ 63) :
    (∀ offset ≤ data.length, ∀ D e, decodeWithDepth data offset D = .error e → e.Located data offset) ∧
    ∀ e, decode data = .error e → decodeWithDepth data 0 maxDepth = .error e ∨
      ∃ n, e = .trailing n ∧ 0 < n ∧ n < data.length := by
  refine ⟨fun offset ho D e h => ?_, fun e h => ?_⟩
  · have hk := Reader.keeps_item (onward_located data offset) (.inl trivial) D (.at data offset)
      ⟨offset, Nat.le_refl _, ho, rfl⟩
    rw [Reader.readAt_eq_error_iff.mp h] at hk
    cases hk with
    | error he =>
      rcases he with he | ⟨o, rfl⟩
      · exact he
      · exact absurd h (decodeWithDepth_ne_stalled hd offset D o)
  · cases hf : decodeWithOffset data 0 with
    | error e' =>
      rw [decode_of_error hf] at h
      cases h
      exact .inl hf
    | ok q =>
      obtain ⟨x, n⟩ := q
      have hn := (decodeWithDepth_past hf).1
      rw [decode_of_ok hf] at h
      split at h
      · rename_i hlt
        cases h
        exact .inr ⟨data.length - n, rfl, by omega, by omega⟩
      · cases h

/-- Behind a number, an open array of a text string in pieces, the second of which is no text, and a reserved byte. -/
def Bytes.brokenText : Bytes := [0x00, 0x9F, 0x7F, 0x61, 0x41, 0x62, 0x1C, 0xC3, 0xFF, 0x1C]

theorem decode_errors_located_brokenText :
    Bytes.brokenText.length < 2 ^ 63 ∧
      decodeWithDepth Bytes.brokenText 1 1 = .error (.invalidUtf8 2) ∧
      (DecodeError.invalidUtf8 2).Located Bytes.brokenText 1 ∧
      decodeWithDepth Bytes.brokenText 9 0 = .error (.reservedInfo 28 9) ∧
      (DecodeError.reservedInfo 28 9).Located Bytes.brokenText 9 ∧
      decode Bytes.brokenText = .error (.trailing 9) ∧ 9 < Bytes.brokenText.length := by
  have hd : Bytes.brokenText.length < 2 ^ 63 := by decide
  have h : decodeWithDepth Bytes.brokenText 1 1 = .error (.invalidUtf8 2) := by decide
  have ht : decode Bytes.brokenText = .error (.trailing 9) := rfl
  have hi : decodeWithDepth Bytes.brokenText 9 0 = .error (.reservedInfo 28 9) := rfl
  obtain ⟨hl, hr⟩ := decode_errors_located hd
  refine ⟨hd, h, hl 1 (by decide) 1 _ h, hi, hl 9 (by decide) 0 _ hi, ht, ?_⟩
  · rcases hr _ ht with hw | ⟨n, he, -, hn⟩
    · cases hw
    · rwa [DecodeError.trailing.inj he]

end Cbor
