import Cbor.Item.Access
import Cbor.Item.Conversion
import Cbor.Proofs.Creation
import Cbor.Proofs.Machine

/-!
# The integers of items

- An item holds the integer that it is made of, and is made of the integer that it holds (`createInt_eq_ok_iff`).
- `Run.createInt`, `Run.toItem` and `Run.asInt`, the same by arithmetic on signed numbers of a fixed width. The one
  difference that is taken, of minus one and a negative number or a magnitude, is always a number of that width
  (`Run.createInt_eq`, `Run.toItem_eq`, `Run.asInt_eq`).
- `Converts`: all ways from the integers of a host type to items lead to the same item. `Reads`: an integer is read from
  an item as one of a host type exactly if it is one. All host types of integers do (`integers_exact`).
-/

namespace Cbor

open Outcome (failure?_eq_some_iff failure?_map pure_eq_ok_iff bind_eq_ok_iff)

/-! ## Items and integers -/

/-- The item holds an integer. -/
def Item.isInteger : Item → Bool
  | .unsigned _ | .negative _ => true
  | _ => false

theorem createInt_eq_error_iff {i : Int} {e : CreateError} :
    createInt i = .error e ↔ ¬IntInRange i ∧ e = .outOfRange := by
  rw [← failure?_eq_some_iff, failure?_createInt, overflow?_eq_some_iff]

theorem exists_createInt_iff {i : Int} : (∃ x, createInt i = .ok x) ↔ IntInRange i := by
  rw [← Outcome.failure?_eq_none_iff, failure?_createInt, overflow?_eq_none_iff]

/-- **An item is made of an integer exactly if it holds it.** -/
theorem createInt_eq_ok_iff {i : Int} {x : Item} : createInt i = .ok x ↔ x.asInt = .ok i := by
  constructor
  · intro h
    rcases createInt_cases i with ⟨n, rfl, hc⟩ | ⟨n, rfl, hc⟩ | ⟨-, hc⟩ <;> rw [hc] at h <;> cases h <;> rfl
  · intro h
    cases x with
    | unsigned v =>
      cases h
      have hv := v.toNat_lt
      rcases createInt_cases v.toNat with ⟨n, hi, hc⟩ | ⟨n, hi, -⟩ | ⟨hi, -⟩
      · rw [hc, UInt64.toNat_inj.mp (show n.toNat = v.toNat by omega)]
      · omega
      · exact absurd ⟨by omega, by omega⟩ hi
    | negative m =>
      cases h
      have hm := m.toNat_lt
      rcases createInt_cases (-1 - m.toNat) with ⟨n, hi, -⟩ | ⟨n, hi, hc⟩ | ⟨hi, -⟩
      · omega
      · rw [hc, UInt64.toNat_inj.mp (show n.toNat = m.toNat by omega)]
      · exact absurd ⟨by omega, by omega⟩ hi
    | _ => cases h

theorem Item.exists_asInt_iff {x : Item} : (∃ i, x.asInt = .ok i) ↔ x.isInteger = true := by
  cases x with
  | unsigned | negative => exact iff_of_true ⟨_, rfl⟩ rfl
  | _ => exact iff_of_false (fun ⟨_, h⟩ => by cases h) Bool.false_ne_true

theorem Item.asInt_unsigned {v : UInt64} {i : Int} (h : v.toNat = i) : (Item.unsigned v).asInt = .ok i :=
  congrArg Except.ok h

theorem Item.asInt_negative {m : UInt64} {i : Int} (h : -1 - (m.toNat : Int) = i) : (Item.negative m).asInt = .ok i :=
  congrArg Except.ok h

theorem Item.asInt_eq_error_iff {x : Item} {e : AccessError} :
    x.asInt = .error e ↔ x.isInteger = false ∧ e = .wrongType "int" x.typeName := by
  cases x with
  | unsigned | negative => exact iff_of_false (fun h => by cases h) (fun h => by cases h.1)
  | _ => exact ⟨fun h => by cases h; exact ⟨rfl, rfl⟩, fun h => h.2 ▸ rfl⟩

theorem Item.asIntWithin_eq_ok_iff {low high i : Int} {x : Item} :
    x.asIntWithin low high = .ok i ↔ x.asInt = .ok i ∧ low ≤ i ∧ i ≤ high := by
  rw [Item.asIntWithin]
  cases x.asInt with
  | error e => exact iff_of_false (fun h => by cases h) (fun h => by cases h.1)
  | ok j =>
    show (if low ≤ j ∧ j ≤ high then .ok j else .error AccessError.outOfRange) = Except.ok i ↔ _
    split
    · rename_i hj
      exact ⟨fun h => by cases h; exact ⟨rfl, hj⟩, And.left⟩
    · rename_i hj
      exact iff_of_false (fun h => by cases h) (fun h => by cases h.1; exact hj h.2)

theorem Item.asIntWithin_eq_error_iff {low high : Int} {x : Item} {e : AccessError} :
    x.asIntWithin low high = .error e ↔
      x.asInt = .error e ∨ e = .outOfRange ∧ ∃ i, x.asInt = .ok i ∧ ¬(low ≤ i ∧ i ≤ high) := by
  rw [Item.asIntWithin]
  cases x.asInt with
  | error e' => exact ⟨.inl, fun h => h.resolve_right fun ⟨_, _, hi, _⟩ => by cases hi⟩
  | ok j =>
    show (if low ≤ j ∧ j ≤ high then .ok j else .error AccessError.outOfRange) = Except.error e ↔ _
    split
    · rename_i hj
      refine iff_of_false (fun h => by cases h) ?_
      rintro (h | ⟨-, i, hi, hn⟩)
      · cases h
      · cases hi
        exact hn hj
    · rename_i hj
      constructor
      · intro h
        cases h
        exact .inr ⟨rfl, j, rfl, hj⟩
      · rintro (h | ⟨rfl, -⟩)
        · cases h
        · rfl

/-! ## Signed numbers of a fixed width -/

namespace Run

variable {width : Nat}

/-- A difference that must be a signed number of the same width. -/
def signedDifference (a b : BitVec width) : Run (BitVec width) :=
  if a.ssubOverflow b then panic .overflow else .ok (a - b)

/-- The item of a shape over a signed number that must have 64 bits and no sign. -/
def held (shape : UInt64 → Item) (v : BitVec width) : Except CreateError Item :=
  if 0 ≤ v.toInt ∧ v.toInt < UInt64.size then .ok (shape (.ofNat v.toInt.toNat)) else .error .outOfRange

/-- The item of a signed number, by arithmetic in its width. -/
def createInt (v : BitVec width) : Run (Except CreateError Item) :=
  if 0 ≤ v.toInt then return held .unsigned v
  else do
    let magnitude ← signedDifference (.allOnes width) v
    return held .negative magnitude

/-- The item of a 64-bit number. -/
def toItem (v : Int64) : Run Item :=
  if 0 ≤ v then return .unsigned v.toUInt64
  else do
    let magnitude ← signedDifference (.allOnes 64) v.toBitVec
    return .negative (.ofBitVec magnitude)

/-- The integer of an item as a signed 128-bit number. -/
def asInt : Item → Run (Except AccessError (BitVec 128))
  | .unsigned v => return .ok (.ofNat 128 v.toNat)
  | .negative m => do
    let i ← signedDifference (.allOnes 128) (.ofNat 128 m.toNat)
    return .ok i
  | x => return .error (x.mismatch "int")

/-- Minus one less any number is a number of the same width. -/
theorem signedDifference_allOnes (hw : 0 < width) (b : BitVec width) :
    signedDifference (.allOnes width) b = .ok (.allOnes width - b) ∧ (.allOnes width - b).toInt = -1 - b.toInt := by
  have ho : (BitVec.allOnes width).toInt = -1 := by rw [BitVec.toInt_allOnes, if_pos hw]
  have hb : ¬(BitVec.allOnes width).ssubOverflow b = true := by
    have hl := b.le_toInt
    have hu := b.toInt_lt
    simp only [BitVec.ssubOverflow, ho, Bool.or_eq_true, decide_eq_true_eq]
    omega
  refine ⟨if_neg hb, ?_⟩
  rw [BitVec.toInt_sub_of_not_ssubOverflow hb, ho]

theorem held_eq {shape : UInt64 → Item} {i : Int} {v : BitVec width}
    (hs : ∀ n : UInt64, n.toNat = v.toInt → (shape n).asInt = .ok i)
    (hr : IntInRange i → 0 ≤ v.toInt ∧ v.toInt < UInt64.size) : held shape v = Cbor.createInt i := by
  unfold held
  split
  · rename_i hv
    have ht : (UInt64.ofNat v.toInt.toNat).toNat = v.toInt.toNat := UInt64.toNat_ofNat_of_lt' (by omega)
    exact (createInt_eq_ok_iff.mpr (hs _ (by omega))).symm
  · rename_i hv
    exact (createInt_eq_error_iff.mpr ⟨fun hi => hv (hr hi), rfl⟩).symm

/-- A signed number has the item of its integer, whatever its width. -/
theorem createInt_eq (v : BitVec width) : Run.createInt v = .ok (Cbor.createInt v.toInt) := by
  unfold Run.createInt
  split
  · rename_i h
    refine congrArg Except.ok (held_eq (fun n hn => Item.asInt_unsigned hn) fun hr => ?_)
    exact ⟨h, Int.lt_of_le_of_lt hr.2 (by decide)⟩
  · rename_i h
    have hw : 0 < width := by
      rcases Nat.eq_zero_or_pos width with rfl | hw
      · exact absurd (BitVec.toInt_zero_length v ▸ Int.le_refl 0) h
      · exact hw
    obtain ⟨hd, ht⟩ := signedDifference_allOnes hw v
    rw [hd]
    refine congrArg Except.ok (held_eq (fun n hn => Item.asInt_negative (by omega)) fun hr => ?_)
    have hl := hr.1
    rw [UInt64.size]
    omega

theorem toItem_eq (v : Int64) : Run.toItem v = .ok (Cbor.toItem v) := by
  show _ = Except.ok (if 0 ≤ v then Item.unsigned v.toUInt64 else .negative (-1 - v).toUInt64)
  unfold Run.toItem
  split
  · rfl
  · rw [(signedDifference_allOnes (by decide) v.toBitVec).1]
    rfl

theorem asInt_eq (x : Item) : ∃ r, Run.asInt x = .ok r ∧ r.map BitVec.toInt = x.asInt := by
  have hn : ∀ n : UInt64, (BitVec.ofNat 128 n.toNat).toInt = n.toNat := fun n => by
    have hl := n.toNat_lt
    rw [BitVec.toInt_ofNat']
    exact Int.bmod_eq_of_le (by omega) (by omega)
  cases x with
  | unsigned v => exact ⟨_, rfl, congrArg Except.ok (hn v)⟩
  | negative m =>
    obtain ⟨hd, ht⟩ := signedDifference_allOnes (by decide) (BitVec.ofNat 128 m.toNat)
    rw [hn] at ht
    generalize BitVec.allOnes 128 - BitVec.ofNat 128 m.toNat = d at hd ht
    refine ⟨.ok d, ?_, congrArg Except.ok ht⟩
    rw [Run.asInt, hd]
    rfl
  | _ => exact ⟨_, rfl, rfl⟩

end Run

/-! ## Host types -/

/-- From each integer of a host type all ways lead to one item: its conversion, the item of its value, and the item of
the kind of integers that its host value becomes. -/
structure Converts (α : Type) [ToItem α] [ToHost α] (value : α → Int) : Prop where
  createInt_eq : ∀ v, createInt (value v) = .ok (toItem v)
  create_eq : ∀ v : α, create .int (toHost v) = .ok (toItem v)

/-- An accessor gives the integer of an item in a host type, which has those between two bounds, exactly if it is one
of them; it tells the others from what is no integer. -/
structure Reads {α : Type} (read : Item → Except AccessError α) (value : α → Int) (low high : Int) : Prop where
  fits_iff : ∀ i, (∃ v, value v = i) ↔ low ≤ i ∧ i ≤ high
  ok_iff : ∀ x v, read x = .ok v ↔ x.asInt = .ok (value v)
  outOfRange_iff : ∀ x, read x = .error .outOfRange ↔ ∃ i, x.asInt = .ok i ∧ ¬∃ v, value v = i
  wrongType_iff : ∀ x expected found, read x = .error (.wrongType expected found) ↔
    x.isInteger = false ∧ expected = "int" ∧ found = x.typeName

section HostTypes

variable {α : Type}

theorem create_int (i : Int) : create .int (.int i) = createInt i := rfl

/-- The item of a host type's integer holds it. -/
theorem converts_of [ToItem α] [ToHost α] {value : α → Int} (hi : ∀ v, (toItem v).asInt = .ok (value v))
    (hh : ∀ v : α, toHost v = .int (value v)) : Converts α value where
  createInt_eq v := createInt_eq_ok_iff.mpr (hi v)
  create_eq v := by
    rw [hh, create_int]
    exact createInt_eq_ok_iff.mpr (hi v)

theorem asInt_toItem_int64 (v : Int64) : (toItem v).asInt = .ok v.toInt := by
  show (if 0 ≤ v then Item.unsigned v.toUInt64 else .negative (-1 - v).toUInt64).asInt = _
  have hn : ∀ v : Int64, 0 ≤ v.toInt → v.toUInt64.toNat = v.toInt := fun v hv => by
    rw [Int64.toNat_toUInt64_of_le (Int64.le_iff_toInt_le.mpr hv), Int64.toNatClampNeg]
    omega
  split
  · rename_i h
    exact Item.asInt_unsigned (hn v (Int64.le_iff_toInt_le.mp h))
  · rename_i h
    have hv : ¬0 ≤ v.toInt := fun hv => h (Int64.le_iff_toInt_le.mpr hv)
    have hm : (-1 - v).toInt = -1 - v.toInt := (Run.signedDifference_allOnes (by decide) v.toBitVec).2
    refine Item.asInt_negative ?_
    rw [hn _ (by omega), hm]
    omega

/-- An accessor that maps the integers between two bounds one to one reads the host type they map to. -/
theorem reads_of {value : α → Int} {ofInt : Int → α} {low high : Int} (hv : ∀ v, low ≤ value v ∧ value v ≤ high)
    (ho : ∀ v, ofInt (value v) = v) (hi : ∀ i, low ≤ i ∧ i ≤ high → value (ofInt i) = i) :
    Reads (fun x => return ofInt (← x.asIntWithin low high)) value low high := by
  have hf : ∀ i, (∃ v, value v = i) ↔ low ≤ i ∧ i ≤ high := by
    intro i
    constructor
    · rintro ⟨v, rfl⟩
      exact hv v
    · intro h
      exact ⟨ofInt i, hi i h⟩
  have hr : ∀ (x : Item) (e : AccessError), (do return ofInt (← x.asIntWithin low high)) = Except.error e ↔
      x.asInt = .error e ∨ e = .outOfRange ∧ ∃ i, x.asInt = .ok i ∧ ¬(low ≤ i ∧ i ≤ high) := by
    intro x e
    rw [← failure?_eq_some_iff, failure?_map, failure?_eq_some_iff, Item.asIntWithin_eq_error_iff]
  refine ⟨hf, fun x v => ?_, fun x => ?_, fun x expected found => ?_⟩
  · rw [bind_eq_ok_iff]
    constructor
    · rintro ⟨i, h, hp⟩
      obtain ⟨ha, hb⟩ := Item.asIntWithin_eq_ok_iff.mp h
      rw [ha, pure_eq_ok_iff.mp hp, hi i hb]
    · intro h
      exact ⟨value v, Item.asIntWithin_eq_ok_iff.mpr ⟨h, hv v⟩, pure_eq_ok_iff.mpr (ho v).symm⟩
  · simp only [hr, hf, Item.asInt_eq_error_iff, reduceCtorEq, and_false, false_or, true_and]
  · simp only [hr, Item.asInt_eq_error_iff, AccessError.wrongType.injEq, reduceCtorEq, false_and, or_false]

end HostTypes

/-! ### From host types -/

theorem converts_uint64 : Converts UInt64 (·.toNat) := converts_of (fun _ => rfl) fun _ => rfl

theorem converts_uint32 : Converts UInt32 (·.toNat) :=
  converts_of (fun v => Item.asInt_unsigned (by rw [UInt32.toNat_toUInt64])) fun _ => rfl

theorem converts_uint16 : Converts UInt16 (·.toNat) :=
  converts_of (fun v => Item.asInt_unsigned (by rw [UInt16.toNat_toUInt64])) fun _ => rfl

theorem converts_uint8 : Converts UInt8 (·.toNat) :=
  converts_of (fun v => Item.asInt_unsigned (by rw [UInt8.toNat_toUInt64])) fun _ => rfl

theorem converts_usize : Converts USize (·.toNat) :=
  converts_of (fun v => Item.asInt_unsigned (by rw [USize.toNat_toUInt64])) fun _ => rfl

theorem converts_int64 : Converts Int64 Int64.toInt := converts_of asInt_toItem_int64 fun _ => rfl

theorem converts_int32 : Converts Int32 Int32.toInt :=
  converts_of (fun v => Int32.toInt_toInt64 v ▸ asInt_toItem_int64 v.toInt64) fun _ => rfl

theorem converts_int16 : Converts Int16 Int16.toInt :=
  converts_of (fun v => Int16.toInt_toInt64 v ▸ asInt_toItem_int64 v.toInt64) fun _ => rfl

theorem converts_int8 : Converts Int8 Int8.toInt :=
  converts_of (fun v => Int8.toInt_toInt64 v ▸ asInt_toItem_int64 v.toInt64) fun _ => rfl

theorem converts_isize : Converts ISize ISize.toInt :=
  converts_of (fun v => ISize.toInt_toInt64 v ▸ asInt_toItem_int64 v.toInt64) fun _ => rfl

/-! ### To host types -/

theorem reads_uint64 : Reads Item.asUInt64 (·.toNat) 0 0xFFFFFFFFFFFFFFFF := by
  refine reads_of (fun v => ?_) (fun v => UInt64.ofNat_toNat) fun i hi => ?_
  · have hv := v.toNat_lt
    rw [UInt64.size]
    omega
  · rw [UInt64.size] at hi
    rw [UInt64.toNat_ofNat_of_lt' (by rw [UInt64.size]; omega)]
    omega

theorem reads_uint32 : Reads Item.asUInt32 (·.toNat) 0 0xFFFFFFFF := by
  refine reads_of (fun v => ?_) (fun v => UInt32.ofNat_toNat) fun i hi => ?_
  · have hv := v.toNat_lt
    rw [UInt32.size]
    omega
  · rw [UInt32.size] at hi
    rw [UInt32.toNat_ofNat_of_lt' (by rw [UInt32.size]; omega)]
    omega

theorem reads_int64 : Reads Item.asInt64 Int64.toInt (-0x8000000000000000) 0x7FFFFFFFFFFFFFFF :=
  reads_of (fun v => ⟨v.minValue_le_toInt, v.toInt_le⟩) (fun v => v.ofInt_toInt) fun _ hi =>
    Int64.toInt_ofInt_of_le hi.1 (Int.lt_add_one_of_le hi.2)

theorem reads_int32 : Reads Item.asInt32 Int32.toInt (-0x80000000) 0x7FFFFFFF :=
  reads_of (fun v => ⟨v.minValue_le_toInt, v.toInt_le⟩) (fun v => v.ofInt_toInt) fun _ hi =>
    Int32.toInt_ofInt_of_le hi.1 (Int.lt_add_one_of_le hi.2)

/-! ## All ways agree -/

/-- **Integers are exact.** There is an item of each integer in range and of no other; it holds that integer, and the
integer of an item leads back to it. No arithmetic of a fixed width overflows on the way. The integers of a host type
have the same item however it is made, and are read back exactly if they are of the type. -/
theorem integers_exact :
    (∀ i, (∃ x, createInt i = .ok x) ↔ -0x10000000000000000 ≤ i ∧ i ≤ 0xFFFFFFFFFFFFFFFF) ∧
    (∀ i e, createInt i = .error e ↔ ¬IntInRange i ∧ e = .outOfRange) ∧
    (∀ i x, createInt i = .ok x → x.asInt = .ok i) ∧
    (∀ x, x.isInteger = true → ∃ i, x.asInt = .ok i ∧ createInt i = .ok x) ∧
    ((∀ (width : Nat) (v : BitVec width), Run.createInt v = .ok (createInt v.toInt)) ∧
      (∀ v, Run.toItem v = .ok (toItem v)) ∧
      ∀ x, ∃ r, Run.asInt x = .ok r ∧ r.map BitVec.toInt = x.asInt) ∧
    (Converts UInt8 (·.toNat) ∧ Converts UInt16 (·.toNat) ∧ Converts UInt32 (·.toNat) ∧ Converts UInt64 (·.toNat) ∧
      Converts USize (·.toNat)) ∧
    (Converts Int8 Int8.toInt ∧ Converts Int16 Int16.toInt ∧ Converts Int32 Int32.toInt ∧ Converts Int64 Int64.toInt ∧
      Converts ISize ISize.toInt) ∧
    Reads Item.asUInt64 (·.toNat) 0 0xFFFFFFFFFFFFFFFF ∧
    Reads Item.asInt64 Int64.toInt (-0x8000000000000000) 0x7FFFFFFFFFFFFFFF ∧
    Reads Item.asUInt32 (·.toNat) 0 0xFFFFFFFF ∧
    Reads Item.asInt32 Int32.toInt (-0x80000000) 0x7FFFFFFF := by
  refine ⟨fun i => exists_createInt_iff, fun i e => createInt_eq_error_iff, fun i x => createInt_eq_ok_iff.mp, ?back,
    ⟨fun width v => Run.createInt_eq v, Run.toItem_eq, Run.asInt_eq⟩,
    ⟨converts_uint8, converts_uint16, converts_uint32, converts_uint64, converts_usize⟩,
    ⟨converts_int8, converts_int16, converts_int32, converts_int64, converts_isize⟩,
    reads_uint64, reads_int64, reads_uint32, reads_int32⟩
  intro x hx
  obtain ⟨i, hi⟩ := Item.exists_asInt_iff.mpr hx
  exact ⟨i, hi, createInt_eq_ok_iff.mpr hi⟩

/-- At the least integer in range, and at the least numbers of 64 and of 128 bits. -/
theorem integers_exact_least :
    let x : Item := .negative 0xFFFFFFFFFFFFFFFF
    x.isInteger = true ∧ createInt (-0x10000000000000000) = .ok x ∧ x.asInt = .ok (-0x10000000000000000) ∧
      create .int (toHost Int64.minValue) = .ok (toItem Int64.minValue) ∧
      (toItem Int64.minValue).asInt32 = .error .outOfRange ∧
      Run.createInt (BitVec.intMin 128) = .ok (.error .outOfRange) := by
  intro x
  obtain ⟨-, he, hm, hb, ⟨hr, -, -⟩, -, ⟨-, -, -, h64, -⟩, -, -, -, h32⟩ := integers_exact
  obtain ⟨i, hi, hx⟩ := hb x rfl
  cases hi
  have hl : (toItem Int64.minValue).asInt = .ok Int64.minValue.toInt := hm _ _ (h64.createInt_eq Int64.minValue)
  have hf : ¬∃ v : Int32, v.toInt = Int64.minValue.toInt := fun h => absurd ((h32.fits_iff _).mp h) (by decide)
  have hc : createInt (BitVec.intMin 128).toInt = .error .outOfRange := (he _ _).mpr ⟨by decide, rfl⟩
  exact ⟨rfl, hx, hm _ _ hx, h64.create_eq _, (h32.outOfRange_iff _).mpr ⟨_, hl, hf⟩, (hr _ _).trans (by rw [hc])⟩

end Cbor
