import Cbor.Proofs.Creation
import Cbor.Proofs.Decoding

/-!
# What an item says of its encoding

- `Item.untag?`, the tag of an item of any tagged shape and the content under it. The shape that is chosen for a tag
  over any content hides neither of them (`untag?_ofTag`), and is not seen in the encoding (`ofTag_faithful`).
- The first byte of an encoding is made of the major type and the additional info (`head?_encode`); in every spelling of
  an item it has the major type (`Encodes.head?`).
-/

namespace Cbor

open Head (Argument initialByte indefiniteInfo)

/-! ## Initial bytes -/

/-- Each byte begins the items of one kind, which is that of its upper three bits. -/
theorem Kind.majorType?_ofInitialByte (b : UInt8) : (ofInitialByte b).majorType? = some (b >>> 5) := by
  have hb := b.toNat_lt
  have h : ∀ major < 8, (ofMajorType major).majorType? = some (.ofNat major) := by decide
  rw [Head.shiftRight_eq, ofInitialByte, h _ (by omega)]

namespace Item

/-! ## Tags -/

/-- The tag of an item of any tagged shape and the content under it. -/
def untag? : Item → Option (UInt64 × Item)
  | .tagged tag content => some (tag, content)
  | .dateTime s => some (dateTimeTag, .text s)
  | .epochTime content => some (epochTimeTag, content)
  | .encodedCbor b => some (encodedCborTag, .bytes b)
  | .fullDate s => some (fullDateTag, .text s)
  | _ => none

theorem tagNumber_eq (x : Item) : x.tagNumber = x.untag?.map Prod.fst := by cases x <;> rfl

theorem untag?_ofTag (tag : UInt64) (content : Item) : (ofTag tag content).untag? = some (tag, content) := by
  unfold ofTag
  split <;> repeat' split
  all_goals simp_all [untag?]

theorem ofTag_inj {tag tag' : UInt64} {x x' : Item} : ofTag tag x = ofTag tag' x' ↔ tag = tag' ∧ x = x' := by
  constructor
  · intro h
    have hu := congrArg untag? h
    rw [untag?_ofTag, untag?_ofTag, Option.some.injEq, Prod.mk.injEq] at hu
    exact hu
  · rintro ⟨rfl, rfl⟩
    rfl

/-- Items of a kind with a major type are of that type. -/
theorem majorType_of_kind {x : Item} {major : UInt8} (h : x.kind.majorType? = some major) : x.majorType = major := by
  cases x with
  | raw b => cases h
  | _ => exact congrArg (·.getD 7) h

@[simp] theorem majorType_ofTag (tag : UInt64) (x : Item) : (ofTag tag x).majorType = 6 := by
  refine majorType_of_kind ?_
  rw [kind_ofTag]
  rfl

/-- **The shape that is chosen for a tag is not seen in the encoding**, and hides neither the tag nor what is under
it. -/
theorem ofTag_faithful (tag : UInt64) (x : Item) :
    (ofTag tag x).encode = Head.encodeLength 6 tag.toNat ++ x.encode ∧
    (∀ e : Encoder, (e.tagged tag x).data = e.data ++ (ofTag tag x).encode) ∧
    (ofTag tag x).tagNumber = some tag ∧
    (ofTag tag x).majorType = 6 ∧
    ∀ tag' x', beq (ofTag tag x) (ofTag tag' x') = true ↔ tag = tag' ∧ beq x x' = true := by
  refine ⟨?_, fun e => ?_, ?_, majorType_ofTag tag x, fun tag' x' => ?_⟩
  · rw [Head.encodeLength, UInt64.ofNat_toNat, encode_ofTag]
  · rw [encode_ofTag, ← List.append_assoc]
    rfl
  · rw [tagNumber_eq, untag?_ofTag]
    rfl
  · rw [beq_iff, beq_iff, ofTag_inj]

/-! ## First bytes -/

theorem head?_encodeContainer (major : UInt8) (count : Nat) (indefinite : Bool) (contents : Bytes) :
    (encodeContainer major count indefinite contents).head? =
      some (initialByte major (if indefinite then indefiniteInfo else Head.infoFor (.ofNat count))) := by
  cases indefinite <;> rfl

/-- **An encoding begins with the major type and the additional info of the item.** -/
theorem head?_encode {x : Item} (h : x.encode ≠ []) :
    x.encode.head? = some (initialByte x.majorType x.additionalInfo) := by
  cases x with
  | raw b =>
    cases b with
    | nil => exact absurd rfl h
    | cons b t => exact congrArg some (Head.initialByte_shiftRight_and b).symm
  | array | map | byteChunks | textChunks =>
    rw [encode]
    exact head?_encodeContainer ..
  | bool b => cases b <;> rfl
  | _ =>
    rw [encode]
    rfl

end Item

/-! ## Spellings -/

theorem EncodesString.head? {major : UInt8} {b content : Bytes} (h : EncodesString major b content) :
    ∃ info, info.toNat < 32 ∧ b.head? = some (initialByte major info) := by
  cases h with
  | mk ha _ => exact ⟨_, ha.info_lt_32, rfl⟩

theorem EncodesSpecial.majorType_eq {info : UInt8} {b : Bytes} {x : Item} (h : EncodesSpecial info b x) :
    x.majorType = 7 := by
  cases h <;> rfl

/-- In every spelling of an item the first byte has its major type. -/
theorem Encodes.head? {D : Nat} {b : Bytes} {x : Item} (h : Encodes D b x) :
    ∃ info, info.toNat < 32 ∧ b.head? = some (initialByte x.majorType info) := by
  cases h with
  | unsigned ha | negative ha | array ha _ _ | map ha _ _ => exact ⟨_, ha.info_lt_32, rfl⟩
  | bytes h | text h => exact h.head?
  | byteChunks _ | textChunks _ | arrayToBreak _ | mapToBreak _ => exact ⟨indefiniteInfo, by decide, rfl⟩
  | tag ha _ => exact ⟨_, ha.info_lt_32, by rw [Item.majorType_ofTag]; rfl⟩
  | special h => exact ⟨_, Nat.lt_trans h.info_lt (by decide), by rw [h.majorType_eq]; rfl⟩

theorem Item.majorType_lt (x : Item) : x.majorType.toNat < 8 := by
  cases x with
  | raw b =>
    cases b with
    | nil => decide
    | cons b t =>
      have hb := b.toNat_lt
      show (b >>> 5).toNat < 8
      rw [Head.shiftRight_eq, Bytes.toNat_byte (by omega)]
      omega
  | bool b => cases b <;> decide
  | _ => exact of_decide_eq_true rfl

/-- **The major type and the additional info of an item are those on the wire.** They make up the first byte of its
encoding; and where an item is decoded, the upper three bits of the first byte are its major type and that of the kind
which the byte announces. -/
theorem header_on_wire :
    (∀ x : Item, x.encode ≠ [] → x.encode.head? = some ((x.majorType <<< 5) ||| x.additionalInfo)) ∧
    ∀ (data : Bytes) (offset D : Nat) (x : Item) (n : Nat), decodeWithDepth data offset D = .ok (x, n) →
      ∃ b, data[offset]? = some b ∧ x.majorType = b >>> 5 ∧
        (Kind.ofInitialByte b).majorType? = some x.majorType := by
  refine ⟨fun x h => Item.head?_encode h, fun data offset D x n h => ?_⟩
  obtain ⟨w, rest, hw, -, he⟩ := decodeWithDepth_ok_iff.mp h
  obtain ⟨info, hi, hd⟩ := he.head?
  have hb : data[offset]? = some (initialByte x.majorType info) := by
    rw [← List.head?_drop, hw, List.head?_append, hd, Option.some_or]
  have hm := Head.shiftRight_initialByte x.majorType_lt hi
  exact ⟨_, hb, hm.symm, by rw [Kind.majorType?_ofInitialByte, hm]⟩

/-- A tag over data that is copied, and a tag that is spelled wider than needed, after a byte that is left out. -/
theorem header_on_wire_tags :
    let x : Item := .ofTag encodedCborTag (.raw [0x83])
    let data : Bytes := [0xFF, 0xD8, 1, 0x18, 42]
    (x.encode ≠ [] ∧ x.encode.head? = some ((x.majorType <<< 5) ||| x.additionalInfo)) ∧
    decodeWithDepth data 1 1 = .ok (.epochTime (.unsigned 42), 5) ∧
    ∃ b : UInt8, data[1]? = some b ∧ (Item.epochTime (.unsigned 42)).majorType = b >>> 5 ∧
      (Kind.ofInitialByte b).majorType? = some (Item.epochTime (.unsigned 42)).majorType := by
  have hx : (Item.ofTag encodedCborTag (.raw [0x83])).encode ≠ [] := by
    rw [Item.encode_ofTag]
    exact List.cons_ne_nil _ _
  have hn : Encodes 0 [0x18, 42] (.unsigned 42) := .unsigned (.following (k := 0) (v := 42) (by decide) (by decide))
  have he : Encodes 1 [0xD8, 1, 0x18, 42] (.ofTag epochTimeTag (.unsigned 42)) :=
    .tag (.following (k := 0) (v := 1) (by decide) (by decide)) hn
  have hd : decodeWithDepth [0xFF, 0xD8, 1, 0x18, 42] 1 1 = .ok (.epochTime (.unsigned 42), 5) :=
    decodeWithDepth_ok_iff.mpr ⟨_, [], rfl, rfl, he⟩
  exact ⟨⟨hx, header_on_wire.1 _ hx⟩, hd, header_on_wire.2 _ _ _ _ _ hd⟩

end Cbor
