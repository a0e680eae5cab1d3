import Cbor.Proofs.RoundTrip

/-!
# The shortest encoding

Of all the encodings of an item, the one that `Item.encode` writes is the only shortest (`Encodes.shortest`). An
encoding can be longer in two ways: an argument is spelled wider than needed (`Head.Argument.shortest`), or a map
repeats a key, so that fewer entries are left than pairs (`Item.putAll_shorter`).
-/

namespace Cbor

namespace Item

open Bytes (Shortest)

/-! ## Entries that are put in order -/

theorem encodeEntries_append : ∀ l l' : List (Item × Item),
    encodeEntries (l ++ l') = encodeEntries l ++ encodeEntries l'
  | [], _ => rfl
  | (key, value) :: l, l' => by
    simp only [List.cons_append, encodeEntries, encodeEntries_append l l', List.append_assoc]

theorem WellFormed.length_encode_pos {x : Item} (h : x.WellFormed) : 0 < x.encode.length := by
  cases x with
  | raw b => cases h
  | array items indefinite => exact Nat.zero_lt_of_lt (length_contents_lt 4 _ indefinite _)
  | map entries indefinite => exact Nat.zero_lt_of_lt (length_contents_lt 5 _ indefinite _)
  | tagged tag content => exact Nat.zero_lt_of_lt (length_content_lt tag content)
  | epochTime content => exact Nat.zero_lt_of_lt (length_content_lt epochTimeTag content)
  | unsigned _ | negative _ | bytes _ | byteChunks _ | text _ | textChunks _ | dateTime _ | encodedCbor _ | fullDate _
  | bool _ | null | undefined | simple _ | half _ | single _ | double _ => exact Nat.succ_pos _

/-- A value that takes the place of another leaves out a key that a new entry would write. -/
theorem put_shorter {key : Item} (value : Item) (hk : 0 < key.encode.length) : ∀ {l : List (Item × Item)},
    key ∈ keysOf l → (put key value l).length = l.length ∧
      (encodeEntries (put key value l)).length < (encodeEntries (l ++ [(key, value)])).length
  | [], h => by cases h
  | (k, v) :: l, h => by
    by_cases hkk : k = key
    · subst hkk
      rw [put, if_pos rfl, encodeEntries_append]
      refine ⟨rfl, ?_⟩
      simp only [encodeEntries, List.length_append, List.length_nil]
      omega
    · rw [keysOf_cons, List.mem_cons] at h
      obtain ⟨hl, he⟩ := put_shorter value hk (h.resolve_left (Ne.symm hkk))
      rw [put, if_neg hkk]
      simp only [encodeEntries_append, encodeEntries, List.length_cons, List.length_append] at he ⊢
      omega

/-- Pairs stay as they are when put in order, or there are no more entries than pairs and their encodings are
shorter. -/
theorem putAll_shorter : ∀ {pairs l : List (Item × Item)}, (∀ e ∈ pairs, 0 < e.1.encode.length) →
    putAll l pairs = l ++ pairs ∨ (putAll l pairs).length ≤ (l ++ pairs).length ∧
      (encodeEntries (putAll l pairs)).length < (encodeEntries (l ++ pairs)).length
  | [], l, _ => .inl (List.append_nil l).symm
  | e :: pairs, l, h => by
    obtain ⟨he, hp⟩ := List.forall_mem_cons.mp h
    rw [List.append_cons, putAll_cons]
    by_cases hk : e.1 ∈ keysOf l
    · -- The pair is absorbed, and what follows can only make the list shorter still.
      obtain ⟨hl, hs⟩ := put_shorter e.2 he hk
      right
      have hb : (encodeEntries (put e.1 e.2 l ++ pairs)).length < (encodeEntries (l ++ [e] ++ pairs)).length := by
        rw [encodeEntries_append _ pairs, encodeEntries_append _ pairs, List.length_append, List.length_append]
        exact Nat.add_lt_add_right hs _
      have hn : (put e.1 e.2 l ++ pairs).length ≤ (l ++ [e] ++ pairs).length := by
        simp only [List.length_append, hl]
        omega
      rcases putAll_shorter (l := put e.1 e.2 l) hp with h | ⟨hl', hs'⟩
      · rw [h]
        exact ⟨hn, hb⟩
      · exact ⟨Nat.le_trans hl' hn, Nat.lt_trans hs' hb⟩
    · rw [put_of_not_mem hk]
      exact putAll_shorter hp

theorem length_encodeContainer_lt (major : UInt8) (indefinite : Bool) {m n : Nat} {b b' : Bytes} (hmn : m ≤ n)
    (hn : indefinite = false → n < 2 ^ 64) (h : b.length < b'.length) :
    (encodeContainer major m indefinite b).length < (encodeContainer major n indefinite b').length := by
  cases indefinite with
  | true =>
    show (_ :: (b ++ [_])).length < (_ :: (b' ++ [_])).length
    simp only [List.length_cons, List.length_append]
    omega
  | false =>
    have hn := hn rfl
    have hm := Nat.lt_of_le_of_lt hmn hn
    have hh : (Head.encodeLength major m).length ≤ (Head.encodeLength major n).length :=
      Head.length_encode_mono major (by rwa [UInt64.toNat_ofNat_of_lt' hn, UInt64.toNat_ofNat_of_lt' hm])
    show (Head.encodeLength major m ++ b).length < (Head.encodeLength major n ++ b').length
    rw [List.length_append, List.length_append]
    omega

/-- The map of pairs is written no longer than the pairs. -/
theorem shortest_ofEntries {pairs : List (Item × Item)} (h : WellFormedEntries pairs) {indefinite : Bool}
    (hn : indefinite = false → pairs.length < 2 ^ 64) : Shortest (ofEntries pairs indefinite).encode
      (encodeContainer 5 pairs.length indefinite (encodeEntries pairs)) := by
  have hp : ∀ e ∈ pairs, 0 < e.1.encode.length := fun e he =>
    (wellFormedEntries_iff.mp h e he).1.length_encode_pos
  rw [ofEntries_eq, encode]
  rcases putAll_shorter (l := []) hp with h | ⟨hl, hs⟩
  · rw [h]
    exact .refl _
  · exact .inr (length_encodeContainer_lt 5 indefinite hl hn hs)

end Item

/-! ## Heads and strings -/

open Bytes (Shortest)
open Head (Argument initialByte indefiniteInfo breakByte)
open Item (encodeString encodeContainer encodeItems encodeEntries)

theorem shortest_head (major : UInt8) {info : UInt8} {v : UInt64} {n : Nat} {arg b b' : Bytes}
    (ha : Argument info v arg) (hn : n = v.toNat) (h : Shortest b b') :
    Shortest (Head.encodeLength major n ++ b) (initialByte major info :: (arg ++ b')) := by
  rw [Head.encodeLength, hn, UInt64.ofNat_toNat]
  exact (ha.shortest major).append h

theorem shortest_toBreak (major : UInt8) (n : Nat) {b b' : Bytes} (h : Shortest b b') :
    Shortest (encodeContainer major n true b) (initialByte major indefiniteInfo :: (b' ++ [breakByte])) :=
  .cons _ (h.append (.refl _))

theorem EncodesString.shortest {major : UInt8} {b content : Bytes} (h : EncodesString major b content) :
    Shortest (encodeString major content) b := by
  cases h with
  | mk ha hl => exact shortest_head major ha hl (.refl _)

theorem shortest_chunks {major : UInt8} {b : Bytes} {chunks : List Bytes} (h : Series (EncodesString major) b chunks) :
    Shortest (chunks.flatMap (encodeString major)) b := by
  induction h with
  | nil => exact .refl _
  | cons hx _ ih => exact hx.shortest.append ih

theorem EncodesSpecial.shortest {info : UInt8} {b : Bytes} {x : Item} (h : EncodesSpecial info b x) :
    Shortest x.encode (initialByte 7 info :: b) := by
  cases h with
  | simple hs => exact .inl (Item.encode_simple_inline hs)
  | simpleByte hs => exact .inl (Item.encode_simple_following hs)
  | falseValue | trueValue | null | undefined | half | single | double => exact .refl _

/-! ## Items -/

mutual

/-- **No encoding of an item is shorter than the one that is written, and no other is as short.** -/
theorem Encodes.shortest : ∀ {D : Nat} {b : Bytes} {x : Item}, Encodes D b x → Shortest x.encode b
  | _, _, _, .unsigned ha => ha.shortest 0
  | _, _, _, .negative ha => ha.shortest 1
  | _, _, _, .bytes h | _, _, _, .text h => h.shortest
  | _, _, _, .byteChunks h => shortest_toBreak 2 0 (shortest_chunks h)
  | _, _, _, .textChunks h => shortest_toBreak 3 0 (shortest_chunks (series_map.mpr h))
  | _, _, _, .array ha hl h => shortest_head 4 ha hl (EncodesItems.shortest h)
  | _, _, _, .arrayToBreak h => shortest_toBreak 4 _ (EncodesItems.shortest h)
  | _, _, _, .map ha hl h =>
    (Item.shortest_ofEntries h.wellFormed fun _ => hl ▸ UInt64.toNat_lt _).trans
      (shortest_head 5 ha hl (EncodesEntries.shortest h))
  | _, _, _, .mapToBreak h =>
    (Item.shortest_ofEntries h.wellFormed fun hf => by cases hf).trans
      (shortest_toBreak 5 _ (EncodesEntries.shortest h))
  | _, _, _, .tag ha h => by
    rw [Item.encode_ofTag]
    exact (ha.shortest 6).append (Encodes.shortest h)
  | _, _, _, .special h => h.shortest

theorem EncodesItems.shortest : ∀ {D : Nat} {b : Bytes} {items : List Item}, EncodesItems D b items →
    Shortest (encodeItems items) b
  | _, _, _, .nil => .refl _
  | _, _, _, .cons h hs => (Encodes.shortest h).append (EncodesItems.shortest hs)

theorem EncodesEntries.shortest : ∀ {D : Nat} {b : Bytes} {entries : List (Item × Item)},
    EncodesEntries D b entries → Shortest (encodeEntries entries) b
  | _, _, _, .nil => .refl _
  | _, _, _, .cons hk hv hs =>
    ((Encodes.shortest hk).append (Encodes.shortest hv)).append (EncodesEntries.shortest hs)

end

/-! ## Decoding -/

/-- **What is decoded is written in the unique shortest way**, and that is decoded to the same item under the same
limit. -/
theorem decodeWithDepth_encode_decoded {data : Bytes} {offset D : Nat} {x : Item} {n : Nat}
    (hl : data.length < 2 ^ 63) (h : decodeWithDepth data offset D = .ok (x, n)) :
    decodeWithDepth x.encode 0 D = .ok (x, x.encode.length) ∧ x.encode.length ≤ n - offset ∧
      (x.encode.length = n - offset ↔ data.extract offset n = x.encode) := by
  obtain ⟨b, rest, hb, rfl, he⟩ := decodeWithDepth_ok_iff.mp h
  have hs := he.shortest
  have hlen := Bytes.length_of_drop_eq hb
  have hle := hs.length_le
  rw [Bytes.extract_of_drop_eq hb, Nat.add_sub_cancel_left]
  refine ⟨?_, hle, fun hn => (hs.eq_of_length hn).symm, fun hn => by rw [hn]⟩
  have hd := decodeWithDepth_encode he.wellFormed (s := []) (by rw [List.append_nil]; omega) he.nesting_le
  rwa [List.append_nil] at hd

/-- After a byte that is left out, a map of two pairs with equal keys, whose count and first key are spelled wider than
needed. -/
def Bytes.repeatedKey : Bytes := [0xFF, 0xBA, 0, 0, 0, 2, 0x18, 1, 0x9F, 0xFF, 1, 0xC1, 5]

/-- The one entry that is left of the two pairs. -/
def Item.lastEntry : Item := .map [(.unsigned 1, .epochTime (.unsigned 5))] false

theorem decodeWithDepth_encode_lastEntry :
    Bytes.repeatedKey.length < 2 ^ 63 ∧ decodeWithDepth Bytes.repeatedKey 1 2 = .ok (Item.lastEntry, 13) ∧
      decodeWithDepth [0xA1, 1, 0xC1, 5] 0 2 = .ok (Item.lastEntry, 4) ∧
      (4 = 13 - 1 ↔ Bytes.repeatedKey.extract 1 13 = [0xA1, 1, 0xC1, 5]) := by
  have hl : Bytes.repeatedKey.length < 2 ^ 63 := by decide
  have hk : Encodes 1 [0x18, 1] (.unsigned 1) := .unsigned (.following (k := 0) (v := 1) (by decide) (by decide))
  have hk' : Encodes 1 [1] (.unsigned 1) := .unsigned (.inline (v := 1) (by decide))
  have hv : Encodes 1 [0xC1, 5] (.ofTag 1 (.unsigned 5)) :=
    .tag (.inline (v := 1) (by decide)) (.unsigned (.inline (v := 5) (by decide)))
  have he : Encodes 2 (Bytes.repeatedKey.drop 1)
      (.ofEntries [(.unsigned 1, .array [] true), (.unsigned 1, .ofTag 1 (.unsigned 5))] false) :=
    .map (.following (k := 2) (v := 2) (by decide) (by decide)) rfl (.cons hk (.arrayToBreak .nil) (.cons hk' hv .nil))
  rw [Item.ofEntries_eq] at he
  have h : decodeWithDepth Bytes.repeatedKey 1 2 = .ok (Item.lastEntry, 13) :=
    decodeWithDepth_ok_iff.mpr ⟨_, [], rfl, rfl, he⟩
  obtain ⟨hd, -, hs⟩ := decodeWithDepth_encode_decoded hl h
  exact ⟨hl, h, hd, hs⟩

end Cbor
