import Cbor.Proofs.Decoding

/-!
# Heads that are read on their own

`decodeLength` reads the head of an item of any major type and no more.

- It recognizes every spelling of an argument, and takes the initial byte alone at indefinite length
  (`Reader.recognizes_length`, `decodeLength_ok_iff`).
- What `Head.encode` writes it reads back wherever it stands, and of all heads with an argument that it reads this is
  the one that takes the fewest bytes (`decodeLength_encode_minimal`).
-/

namespace Cbor

open Head (Argument initialByte infoFor)

/-! ## The language of heads -/

/-- The initial byte and the bytes after it are a head, with its argument, or zero at indefinite length. -/
inductive SpellsLength (initial : UInt8) : UInt64 → Bytes → Prop
  | argument {v : UInt64} {arg : Bytes} : Argument (initial &&& 31) v arg → SpellsLength initial v arg
  | indefinite : initial &&& 31 = 31 → SpellsLength initial 0 []

theorem SpellsLength.argument_of_ne {initial : UInt8} {v : UInt64} {arg : Bytes} (h : SpellsLength initial v arg)
    (hi : initial &&& 31 ≠ 31) : Argument (initial &&& 31) v arg := by
  cases h with
  | argument ha => exact ha
  | indefinite he => exact absurd he hi

/-- After an initial byte, what spells the length is read. -/
theorem Reader.recognizes_length_of (start : Nat) (initial : UInt8) :
    Reader.Recognizes (if initial.toNat % 32 = 31 then pure 0 else argument start (initial.toNat % 32))
      fun b v => SpellsLength initial v b := by
  have hn : initial.toNat % 32 < 32 := Nat.mod_lt _ (by decide)
  split
  · rename_i h
    have hi : initial &&& 31 = 31 := by rw [Head.and_eq, h]; rfl
    refine (recognizes_pure 0).congr fun b v => ⟨?_, fun hs => ?_⟩
    · rintro ⟨rfl, rfl⟩
      exact .indefinite hi
    · cases hs with
      | argument ha => exact absurd (hi ▸ ha).info_lt (by decide)
      | indefinite => exact ⟨rfl, rfl⟩
  · rename_i h
    refine (recognizes_argument start hn).congr fun b v => ?_
    rw [← Head.and_eq]
    refine ⟨.argument, fun hs => hs.argument_of_ne fun hi => h ?_⟩
    have ht := congrArg UInt8.toNat hi
    rwa [Head.and_eq, Bytes.toNat_byte (by omega)] at ht

theorem Reader.recognizes_length : decodeLength.readLength.Recognizes fun b v =>
    ∃ initial arg, b = initial :: arg ∧ SpellsLength initial v arg :=
  recognizes_offset fun start => (recognizes_byte.bind (recognizes_length_of start)).congr fun b v => by
    constructor
    · rintro ⟨_, arg, initial, rfl, rfl, hs⟩
      exact ⟨initial, arg, rfl, hs⟩
    · rintro ⟨initial, arg, rfl, hs⟩
      exact ⟨[initial], arg, initial, rfl, rfl, hs⟩

theorem decodeLength_ok_iff {data : Bytes} {offset next : Nat} {v : UInt64} :
    decodeLength data offset = .ok (v, next) ↔ ∃ initial arg rest, data.drop offset = initial :: (arg ++ rest) ∧
      next = offset + (initial :: arg).length ∧ SpellsLength initial v arg := by
  refine Reader.recognizes_length.readAt_eq_ok_iff.trans ?_
  constructor
  · rintro ⟨_, rest, hd, hn, initial, arg, rfl, hs⟩
    exact ⟨initial, arg, rest, hd, hn, hs⟩
  · rintro ⟨initial, arg, rest, hd, hn, hs⟩
    exact ⟨_, rest, hd, hn, initial, arg, rfl, hs⟩

/-! ## The shortest head -/

namespace Head

theorem infoFor_lt (v : UInt64) : (infoFor v).toNat < 32 := (argument_infoFor v).info_lt_32

/-- The first byte of a head is made of the low three bits of the major type and of the additional info. -/
theorem initialByte_infoFor (major : UInt8) (v : UInt64) :
    initialByte major (infoFor v) >>> 5 = major % 8 ∧ initialByte major (infoFor v) &&& 31 = infoFor v := by
  have hm : (major % 8).toNat < 8 := Nat.mod_lt _ (by decide)
  rw [← initialByte_mod_eight]
  exact ⟨shiftRight_initialByte hm (infoFor_lt v), and_initialByte hm (infoFor_lt v)⟩

/-- The major type takes no part in the length of a head. -/
theorem length_encode (major : UInt8) (v : UInt64) : (encode major v).length = width (infoFor v) + 1 := by
  rw [encode, List.length_cons, Bytes.length_ofNat]

end Head

theorem decodeLength_encode (major : UInt8) (v : UInt64) (p s : Bytes) :
    decodeLength (p ++ Head.encode major v ++ s) p.length = .ok (v, p.length + (Head.encode major v).length) := by
  refine decodeLength_ok_iff.mpr ⟨_, _, s, ?_, rfl, .argument ?_⟩
  · rw [List.append_assoc, List.drop_left]
    rfl
  · rw [(Head.initialByte_infoFor major v).2]
    exact Head.argument_infoFor v

/-- **Heads are read back, and none that is read is shorter than the one that is written for its argument.** The first
byte of what is written holds the low three bits of the major type and the additional info of the argument. A head that
is read is as short as the one that is written only if it is the same. -/
theorem decodeLength_encode_minimal :
    (∀ (major : UInt8) (v : UInt64) (p s : Bytes),
      decodeLength (p ++ Head.encode major v ++ s) p.length = .ok (v, p.length + (Head.encode major v).length) ∧
      ∃ initial, (Head.encode major v).head? = some initial ∧ initial >>> 5 = major % 8 ∧
        initial &&& 31 = infoFor v) ∧
    ∀ (data : Bytes) (offset next : Nat) (v : UInt64), decodeLength data offset = .ok (v, next) →
      ∃ initial, data[offset]? = some initial ∧ (initial &&& 31 ≠ 31 →
        offset + (Head.encode 0 v).length ≤ next ∧
        (next = offset + (Head.encode 0 v).length ↔ data.extract offset next = Head.encode (initial >>> 5) v)) := by
  refine ⟨fun major v p s => ⟨decodeLength_encode major v p s, _, rfl, Head.initialByte_infoFor major v⟩, ?_⟩
  intro data offset next v h
  obtain ⟨initial, arg, rest, hd, rfl, hs⟩ := decodeLength_ok_iff.mp h
  have hi : data[offset]? = some initial := by rw [← List.head?_drop, hd]; rfl
  refine ⟨initial, hi, fun hne => ?_⟩
  have hx : data.extract offset (offset + (initial :: arg).length) = initial :: arg := Bytes.extract_of_drop_eq hd
  have hm : (Head.encode (initial >>> 5) v).length = (Head.encode 0 v).length := by
    rw [Head.length_encode, Head.length_encode]
  have hb : Bytes.Shortest (Head.encode (initial >>> 5) v) (initial :: arg) := by
    have ha := (hs.argument_of_ne hne).shortest (initial >>> 5)
    rwa [Head.initialByte_shiftRight_and] at ha
  have hl := hb.length_le
  refine ⟨by omega, fun hn => ?_, fun he => ?_⟩
  · rw [hx]
    exact (hb.eq_of_length (by omega)).symm
  · rw [← hm, ← he, hx]

/-- A head in three bytes where one would do, behind a byte that is left out. -/
theorem decodeLength_encode_minimal_wide :
    let data : Bytes := [0xFF, 0x59, 0x00, 0x17, 0x00]
    decodeLength data 1 = .ok (23, 4) ∧ data[1]? = some 0x59 ∧ (0x59 : UInt8) &&& 31 ≠ 31 ∧
      1 + (Head.encode 0 23).length < 4 ∧ data.extract 1 4 ≠ Head.encode ((0x59 : UInt8) >>> 5) 23 := by
  have hd : decodeLength [0xFF, 0x59, 0x00, 0x17, 0x00] 1 = .ok (23, 4) := rfl
  obtain ⟨initial, hi, h⟩ := decodeLength_encode_minimal.2 _ _ _ _ hd
  cases hi
  obtain ⟨hl, he⟩ := h (by decide)
  have hne : 4 ≠ 1 + (Head.encode 0 23).length := by decide
  exact ⟨hd, rfl, by decide, Nat.lt_of_le_of_ne hl hne.symm, fun hx => hne (he.mpr hx)⟩

end Cbor
