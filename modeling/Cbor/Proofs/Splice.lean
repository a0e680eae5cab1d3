import Cbor.Proofs.Decoding
import Cbor.Proofs.Decoded

/-!
# Encoded data spliced into items

Encoded data inside an item is written as it is, next to heads, counts and tags that the encoder writes itself.

- `Item.Spliceable`: each piece of encoded data is one whole encoding.
- `Item.normal`: the item in which what is encoded stands in the place of the data, with tags and maps built anew.
- The encoding of a spliceable item encodes its normal form (`Item.Spliceable.encodes`), and nests no deeper than it
  is long (`Item.nesting_le_length`), so that the normal form is what decoding gives.
-/

namespace Cbor

namespace Item

/-! ## Definitions -/

mutual

/-- Every piece of encoded data in the item is one whole encoding. -/
def Spliceable : Item → Prop
  | .array items _ => SpliceableItems items
  | .map entries _ => SpliceableEntries entries
  | .tagged _ content | .epochTime content => Spliceable content
  | .raw b => ∃ x, decodeWithDepth b 0 b.length = .ok (x, b.length)
  | _ => True

/-- All items are spliceable. -/
def SpliceableItems : List Item → Prop
  | [] => True
  | item :: items => Spliceable item ∧ SpliceableItems items

/-- All keys and values are spliceable. -/
def SpliceableEntries : List (Item × Item) → Prop
  | [] => True
  | (key, value) :: entries => Spliceable key ∧ Spliceable value ∧ SpliceableEntries entries

end

mutual

/-- The item with what is encoded in the place of encoded data, and with tags and maps built from what they hold. -/
def normal : Item → Item
  | .array items indefinite => .array (normalItems items) indefinite
  | .map entries indefinite => .ofEntries (normalEntries entries) indefinite
  | .tagged tag content => .ofTag tag (normal content)
  | .dateTime s => .ofTag dateTimeTag (.text s)
  | .epochTime content => .ofTag epochTimeTag (normal content)
  | .encodedCbor b => .ofTag encodedCborTag (.bytes b)
  | .fullDate s => .ofTag fullDateTag (.text s)
  | .raw b =>
    match decodeWithDepth b 0 b.length with
    | .ok (x, _) => x
    | .error _ => .raw b
  | x => x

/-- The normal forms of items. -/
def normalItems : List Item → List Item
  | [] => []
  | item :: items => normal item :: normalItems items

/-- The normal forms of keys and values. -/
def normalEntries : List (Item × Item) → List (Item × Item)
  | [] => []
  | (key, value) :: entries => (normal key, normal value) :: normalEntries entries

end

/-! ## The parts of encodings -/

theorem encodesString_encodeString (major : UInt8) {content : Bytes} (h : content.length < 2 ^ 64) :
    EncodesString major (encodeString major content) content :=
  .mk (Head.argument_infoFor _) (UInt64.toNat_ofNat_of_lt' h).symm

theorem length_le_encodeString (major : UInt8) (content : Bytes) :
    content.length ≤ (encodeString major content).length := by
  rw [encodeString, List.length_append]
  exact Nat.le_add_left _ _

theorem series_encodeString (major : UInt8) : ∀ {chunks : List Bytes},
    (chunks.flatMap (encodeString major)).length < 2 ^ 64 →
      Series (EncodesString major) (chunks.flatMap (encodeString major)) chunks
  | [], _ => .nil
  | chunk :: chunks, h => by
    rw [List.flatMap_cons, List.length_append] at h
    have hc := length_le_encodeString major chunk
    exact .cons (encodesString_encodeString major (by omega)) (series_encodeString major (by omega))

theorem encode_simple_inline {s : Simple} (h : s.value.toNat < 20) :
    (Item.simple s).encode = [Head.initialByte 7 s.value] := by
  have hv : s.value.toUInt64.toNat = s.value.toNat := UInt8.toNat_toUInt64 _
  rw [encode, Head.encode_of_lt 7 (by omega), UInt8.toUInt8_toUInt64]

theorem encode_simple_following {s : Simple} (h : 32 ≤ s.value.toNat) :
    (Item.simple s).encode = [Head.initialByte 7 24, s.value] := by
  have hv : s.value.toUInt64.toNat = s.value.toNat := UInt8.toNat_toUInt64 _
  have hl := s.value.toNat_lt
  rw [encode, Head.encode_of_byte 7 (by omega) (by omega), UInt8.toUInt8_toUInt64]

theorem encodes_simple (D : Nat) (s : Simple) : Encodes D (Item.simple s).encode (.simple s) := by
  rcases s.unassigned with h | h
  · have hs : s.value.toNat < 20 := UInt8.lt_iff_toNat_lt.mp h
    exact encode_simple_inline hs ▸ .special (.simple hs)
  · have hs : 32 ≤ s.value.toNat := UInt8.le_iff_toNat_le.mp h
    exact encode_simple_following hs ▸ .special (.simpleByte hs)

theorem normalItems_length (items : List Item) : (normalItems items).length = items.length := by
  induction items with
  | nil => rfl
  | cons _ _ ih => rw [normalItems, List.length_cons, ih, List.length_cons]

theorem normalEntries_length (entries : List (Item × Item)) : (normalEntries entries).length = entries.length := by
  induction entries with
  | nil => rfl
  | cons _ _ ih => rw [normalEntries, List.length_cons, ih, List.length_cons]

/-! ## The encoding of the normal form -/

theorem length_contents_lt (major : UInt8) (count : Nat) (indefinite : Bool) (contents : Bytes) :
    contents.length < (encodeContainer major count indefinite contents).length := by
  unfold encodeContainer
  split
  · simp only [List.length_cons, List.length_append, List.length_nil]
    omega
  · have := Head.length_encode_pos major (.ofNat count)
    rw [Head.encodeLength, List.length_append]
    omega

theorem length_content_lt (tag : UInt64) (content : Item) :
    content.encode.length < (Head.encode 6 tag ++ content.encode).length := by
  have := Head.length_encode_pos 6 tag
  rw [List.length_append]
  omega

/-- A tag over what is encoded. -/
theorem encodes_tag {D : Nat} {b : Bytes} {content : Item} (tag : UInt64) (h : Encodes D b content) :
    Encodes (D + 1) (Head.encode 6 tag ++ b) (.ofTag tag content) := .tag (Head.argument_infoFor tag) h

theorem encodes_bytes (D : Nat) {b : Bytes} (h : (encodeString 2 b).length < 2 ^ 64) :
    Encodes D (encodeString 2 b) (.bytes b) :=
  .bytes (encodesString_encodeString 2 (Nat.lt_of_le_of_lt (length_le_encodeString 2 b) h))

theorem encodes_text (D : Nat) {s : String} (h : (encodeString 3 (.ofString s)).length < 2 ^ 64) :
    Encodes D (encodeString 3 (.ofString s)) (.text s) :=
  .text (encodesString_encodeString 3 (Nat.lt_of_le_of_lt (length_le_encodeString 3 _) h))

mutual

/-- **The encoding of a spliceable item encodes its normal form.** -/
theorem Spliceable.encodes : ∀ {x : Item}, x.Spliceable → x.encode.length < 2 ^ 64 →
    Encodes x.nesting x.encode x.normal
  | .unsigned v, _, _ => .unsigned (Head.argument_infoFor v)
  | .negative m, _, _ => .negative (Head.argument_infoFor m)
  | .bytes _, _, hl => encodes_bytes _ hl
  | .byteChunks _, _, hl => .byteChunks (series_encodeString 2 (Nat.lt_trans (length_contents_lt 2 0 true _) hl))
  | .text _, _, hl => encodes_text _ hl
  | .textChunks chunks, _, hl =>
    .textChunks (series_map.mp (series_encodeString 3 (Nat.lt_trans (length_contents_lt 3 0 true _) hl)))
  | .array items indefinite, h, hl => by
    have hb := Nat.lt_trans (length_contents_lt 4 _ indefinite _) hl
    have hi := SpliceableItems.encodes h hb
    have hc := (encodesItems_iff.mp hi).length_le (·.opens)
    rw [normalItems_length] at hc
    have hn := Nat.lt_of_le_of_lt hc hb
    cases indefinite with
    | true => exact .arrayToBreak hi
    | false =>
      refine .array (Head.argument_infoFor _) ?_ hi
      rw [normalItems_length, UInt64.toNat_ofNat_of_lt' hn]
  | .map entries indefinite, h, hl => by
    have hb := Nat.lt_trans (length_contents_lt 5 _ indefinite _) hl
    have he := SpliceableEntries.encodes h hb
    have hc := (encodesEntries_iff.mp he).length_le (·.opens)
    rw [normalEntries_length] at hc
    have hn := Nat.lt_of_le_of_lt hc hb
    cases indefinite with
    | true => exact .mapToBreak he
    | false =>
      refine .map (Head.argument_infoFor _) ?_ he
      rw [normalEntries_length, UInt64.toNat_ofNat_of_lt' hn]
  | .tagged tag content, h, hl =>
    encodes_tag tag (Spliceable.encodes h (Nat.lt_trans (length_content_lt tag content) hl))
  | .dateTime s, _, hl => encodes_tag dateTimeTag (encodes_text 0 (Nat.lt_trans (length_content_lt _ (.text s)) hl))
  | .epochTime content, h, hl =>
    encodes_tag epochTimeTag (Spliceable.encodes h (Nat.lt_trans (length_content_lt _ content) hl))
  | .encodedCbor b, _, hl =>
    encodes_tag encodedCborTag (encodes_bytes 0 (Nat.lt_trans (length_content_lt _ (.bytes b)) hl))
  | .fullDate s, _, hl => encodes_tag fullDateTag (encodes_text 0 (Nat.lt_trans (length_content_lt _ (.text s)) hl))
  | .bool true, _, _ => .special .trueValue
  | .bool false, _, _ => .special .falseValue
  | .null, _, _ => .special .null
  | .undefined, _, _ => .special .undefined
  | .simple s, _, _ => encodes_simple _ s
  | .half _, _, _ => .special .half
  | .single _, _, _ => .special .single
  | .double _, _, _ => .special .double
  | .raw b, h, _ => by
    obtain ⟨x, hx⟩ := h
    have hn : normal (.raw b) = x := by rw [normal, hx]
    obtain ⟨b', rest, hb, hl, he⟩ := decodeWithDepth_ok_iff.mp hx
    -- All of `b` was taken, so the word that encodes `x` is `b` itself.
    obtain rfl : b' = b := by
      have hr := Bytes.length_of_drop_eq hb
      rw [List.drop_zero, List.eq_nil_of_length_eq_zero (show rest.length = 0 by omega), List.append_nil] at hb
      exact hb.symm
    rwa [hn]

theorem SpliceableItems.encodes : ∀ {items : List Item}, SpliceableItems items → (encodeItems items).length < 2 ^ 64 →
    EncodesItems (nestingItems items) (encodeItems items) (normalItems items)
  | [], _, _ => .nil
  | item :: items, h, hl => by
    rw [encodeItems, List.length_append] at hl
    exact .cons ((Spliceable.encodes h.1 (by omega)).mono (Nat.le_max_left _ _))
      ((SpliceableItems.encodes h.2 (by omega)).mono (Nat.le_max_right _ _))

theorem SpliceableEntries.encodes : ∀ {entries : List (Item × Item)}, SpliceableEntries entries →
    (encodeEntries entries).length < 2 ^ 64 →
    EncodesEntries (nestingEntries entries) (encodeEntries entries) (normalEntries entries)
  | [], _, _ => .nil
  | (key, value) :: entries, h, hl => by
    rw [encodeEntries, List.length_append, List.length_append] at hl
    have hm := Nat.le_max_left (max key.nesting value.nesting) (nestingEntries entries)
    exact .cons ((Spliceable.encodes h.1 (by omega)).mono (Nat.le_trans (Nat.le_max_left _ _) hm))
      ((Spliceable.encodes h.2.1 (by omega)).mono (Nat.le_trans (Nat.le_max_right _ _) hm))
      ((SpliceableEntries.encodes h.2.2 (by omega)).mono (Nat.le_max_right _ _))

end

/-! ## The length of an encoding bounds its nesting -/

mutual

theorem nesting_le_length : ∀ x : Item, x.nesting ≤ x.encode.length
  | .array items indefinite =>
    Nat.lt_of_le_of_lt (nestingItems_le_length items) (length_contents_lt 4 _ indefinite _)
  | .map entries indefinite =>
    Nat.lt_of_le_of_lt (nestingEntries_le_length entries) (length_contents_lt 5 _ indefinite _)
  | .tagged tag content => Nat.lt_of_le_of_lt (nesting_le_length content) (length_content_lt tag content)
  | .epochTime content => Nat.lt_of_le_of_lt (nesting_le_length content) (length_content_lt epochTimeTag content)
  | .dateTime s => Nat.lt_of_le_of_lt (Nat.zero_le _) (length_content_lt dateTimeTag (.text s))
  | .encodedCbor b => Nat.lt_of_le_of_lt (Nat.zero_le _) (length_content_lt encodedCborTag (.bytes b))
  | .fullDate s => Nat.lt_of_le_of_lt (Nat.zero_le _) (length_content_lt fullDateTag (.text s))
  | .raw _ => Nat.le_refl _
  | .unsigned _ | .negative _ | .bytes _ | .byteChunks _ | .text _ | .textChunks _ | .bool _ | .null | .undefined
  | .simple _ | .half _ | .single _ | .double _ => Nat.zero_le _

theorem nestingItems_le_length : ∀ items : List Item, nestingItems items ≤ (encodeItems items).length
  | [] => Nat.le_refl _
  | item :: items => by
    have h := nesting_le_length item
    have hs := nestingItems_le_length items
    rw [nestingItems, encodeItems, List.length_append]
    omega

theorem nestingEntries_le_length : ∀ entries : List (Item × Item),
    nestingEntries entries ≤ (encodeEntries entries).length
  | [] => Nat.le_refl _
  | (key, value) :: entries => by
    have hk := nesting_le_length key
    have hv := nesting_le_length value
    have hs := nestingEntries_le_length entries
    rw [nestingEntries, encodeEntries, List.length_append, List.length_append]
    omega

end

end Item

/-! ## Decoding -/

/-- **Decoding what is written with encoded data in it gives the normal form.** -/
theorem decodeWithDepth_encode_spliced {x : Item} (hx : x.Spliceable) (hl : x.encode.length < 2 ^ 63) {D : Nat}
    (hD : x.encode.length ≤ D) : decodeWithDepth x.encode 0 D = .ok (x.normal, x.encode.length) := by
  refine decodeWithDepth_ok_iff.mpr ⟨x.encode, [], (List.append_nil _).symm, (Nat.zero_add _).symm, ?_⟩
  exact (hx.encodes (Nat.lt_trans hl (by decide))).mono (Nat.le_trans (Item.nesting_le_length x) hD)

/-- Encoded data under the tag for encoded data, and as two keys that are equal. -/
def Item.patchwork : Item :=
  .array [.tagged 24 (.raw [0x41, 0x00]), .map [(.raw [0x07], .bool true), (.raw [0x18, 0x07], .epochTime .null)] true]
    false

/-- The tag takes its shape from what is spliced in, and of the equal keys one is left. -/
theorem decodeWithDepth_encode_patchwork :
    Item.patchwork.Spliceable ∧ Item.patchwork.encode.length < 2 ^ 63 ∧ Item.patchwork.encode.length ≤ 13 ∧
      decodeWithDepth Item.patchwork.encode 0 13 =
        .ok (.array [.encodedCbor [0x00], .map [(.unsigned 7, .tagged 1 .null)] true] false, 13) := by
  have hs : Item.patchwork.Spliceable :=
    ⟨⟨.bytes [0x00], rfl⟩, ⟨⟨.unsigned 7, rfl⟩, trivial, ⟨.unsigned 7, rfl⟩, trivial, trivial⟩, trivial⟩
  have hl : Item.patchwork.encode.length = 13 := rfl
  have hn : Item.patchwork.normal =
      .array [.encodedCbor [0x00], .map [(.unsigned 7, .tagged 1 .null)] true] false := by
    show Item.array [_, .ofEntries [(.unsigned 7, .bool true), (.unsigned 7, .tagged 1 .null)] true] false = _
    rw [Item.ofEntries_eq]
    rfl
  have h := decodeWithDepth_encode_spliced hs (by decide) (Nat.le_of_eq hl)
  rw [hn, hl] at h
  exact ⟨hs, by decide, Nat.le_of_eq hl, h⟩

end Cbor
