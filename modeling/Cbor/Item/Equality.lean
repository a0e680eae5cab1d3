import Cbor.Item.Basic

/-!
# Equality of items

- `DecidableEq Item`: two items are equal when shape, content and length form agree, floats by their bits;
- `Item.feed`, the data that an item feeds to a hasher, and `Item.hash`, the hash that tables use.
-/

namespace Cbor.Item

/-! ## Comparison -/

mutual

/-- Two items have the same shape, content and length form. -/
def beq : Item → Item → Bool
  | .unsigned a, .unsigned b | .negative a, .negative b => a == b
  | .bytes a, .bytes b | .encodedCbor a, .encodedCbor b | .raw a, .raw b => a == b
  | .byteChunks a, .byteChunks b => a == b
  | .text a, .text b | .dateTime a, .dateTime b | .fullDate a, .fullDate b => a == b
  | .textChunks a, .textChunks b => a == b
  | .array a indefinite, .array b indefinite' => indefinite == indefinite' && beqItems a b
  | .map a indefinite, .map b indefinite' => indefinite == indefinite' && beqEntries a b
  | .tagged tag a, .tagged tag' b => tag == tag' && beq a b
  | .epochTime a, .epochTime b => beq a b
  | .bool a, .bool b => a == b
  | .null, .null | .undefined, .undefined => true
  | .simple a, .simple b => a == b
  | .half a, .half b => a == b
  | .single a, .single b => a == b
  | .double a, .double b => a == b
  | _, _ => false

/-- Two lists hold the same items. -/
def beqItems : List Item → List Item → Bool
  | [], [] => true
  | a :: as, b :: bs => beq a b && beqItems as bs
  | _, _ => false

/-- Two lists hold the same entries. -/
def beqEntries : List (Item × Item) → List (Item × Item) → Bool
  | [], [] => true
  | (k, v) :: as, (k', v') :: bs => beq k k' && beq v v' && beqEntries as bs
  | _, _ => false

end

mutual

theorem eq_of_beq : ∀ {a b : Item}, beq a b = true → a = b
  | .array as f, b, h => by
    cases b <;> simp only [beq, Bool.and_eq_true, beq_iff_eq, Bool.false_eq_true] at h
    rw [h.1, eq_of_beqItems h.2]
  | .map as f, b, h => by
    cases b <;> simp only [beq, Bool.and_eq_true, beq_iff_eq, Bool.false_eq_true] at h
    rw [h.1, eq_of_beqEntries h.2]
  | .tagged t a, b, h => by
    cases b <;> simp only [beq, Bool.and_eq_true, beq_iff_eq, Bool.false_eq_true] at h
    rw [h.1, eq_of_beq h.2]
  | .epochTime a, b, h => by
    cases b <;> simp only [beq, Bool.false_eq_true] at h
    rw [eq_of_beq h]
  | .unsigned _, b, h | .negative _, b, h | .bytes _, b, h | .byteChunks _, b, h | .text _, b, h
  | .textChunks _, b, h | .dateTime _, b, h | .encodedCbor _, b, h | .fullDate _, b, h | .bool _, b, h
  | .simple _, b, h | .half _, b, h | .single _, b, h | .double _, b, h | .raw _, b, h => by
    cases b <;> simp only [beq, beq_iff_eq, Bool.false_eq_true] at h
    rw [h]
  | .null, b, h | .undefined, b, h => by
    cases b <;> simp only [beq, Bool.false_eq_true] at h
    rfl

theorem eq_of_beqItems : ∀ {as bs : List Item}, beqItems as bs = true → as = bs
  | [], [], _ => rfl
  | [], _ :: _, h | _ :: _, [], h => by simp [beqItems] at h
  | a :: as, b :: bs, h => by
    simp only [beqItems, Bool.and_eq_true] at h
    rw [eq_of_beq h.1, eq_of_beqItems h.2]

theorem eq_of_beqEntries : ∀ {as bs : List (Item × Item)}, beqEntries as bs = true → as = bs
  | [], [], _ => rfl
  | [], _ :: _, h | _ :: _, [], h => by simp [beqEntries] at h
  | (k, v) :: as, (k', v') :: bs, h => by
    simp only [beqEntries, Bool.and_eq_true] at h
    rw [eq_of_beq h.1.1, eq_of_beq h.1.2, eq_of_beqEntries h.2]

end

mutual

theorem beq_refl : ∀ a : Item, beq a a = true
  | .array as f => by simp [beq, beqItems_refl as]
  | .map as f => by simp [beq, beqEntries_refl as]
  | .tagged t a => by simp [beq, beq_refl a]
  | .epochTime a => by simp [beq, beq_refl a]
  | .unsigned _ | .negative _ | .bytes _ | .byteChunks _ | .text _ | .textChunks _ | .dateTime _ | .encodedCbor _
  | .fullDate _ | .bool _ | .simple _ | .half _ | .single _ | .double _ | .raw _ | .null | .undefined => by simp [beq]

theorem beqItems_refl : ∀ as : List Item, beqItems as as = true
  | [] => by simp [beqItems]
  | a :: as => by simp [beqItems, beq_refl a, beqItems_refl as]

theorem beqEntries_refl : ∀ as : List (Item × Item), beqEntries as as = true
  | [] => by simp [beqEntries]
  | (k, v) :: as => by simp [beqEntries, beq_refl k, beq_refl v, beqEntries_refl as]

end

theorem beq_iff {a b : Item} : beq a b = true ↔ a = b := ⟨eq_of_beq, fun h => h ▸ beq_refl a⟩

instance : DecidableEq Item := fun _ _ => decidable_of_iff _ beq_iff

/-! ## Hashing -/

/-- A piece of the data that a hasher is fed. -/
inductive Piece where
  /-- The number of a variant. -/
  | variant (number : Nat)
  /-- How many bytes, chunks, items or entries follow. -/
  | count (n : Nat)
  | bytes (b : Bytes)
  | text (s : String)
  | flag (b : Bool)
  | word8 (v : UInt8)
  | word16 (v : UInt16)
  | word32 (v : UInt32)
  | word64 (v : UInt64)
deriving DecidableEq, Hashable

/-- A byte string: its length and its bytes. -/
def feedBytes (b : Bytes) : List Piece := [.count b.length, .bytes b]

mutual

/-- What an item feeds to a hasher: the number of its variant, and its content. -/
def feed : Item → List Piece
  | .unsigned v => [.variant 0, .word64 v]
  | .negative m => [.variant 1, .word64 m]
  | .bytes b => .variant 2 :: feedBytes b
  | .byteChunks chunks => .variant 3 :: .count chunks.length :: chunks.flatMap feedBytes
  | .text s => [.variant 4, .text s]
  | .textChunks chunks => .variant 5 :: .count chunks.length :: chunks.map .text
  | .array items indefinite => .variant 6 :: .count items.length :: (feedItems items ++ [.flag indefinite])
  | .map entries indefinite => .variant 7 :: .count entries.length :: (feedEntries entries ++ [.flag indefinite])
  | .tagged tag content => .variant 8 :: .word64 tag :: feed content
  | .dateTime s => [.variant 9, .text s]
  | .epochTime content => .variant 10 :: feed content
  | .encodedCbor b => .variant 11 :: feedBytes b
  | .fullDate s => [.variant 12, .text s]
  | .bool b => [.variant (if b then 14 else 13)]
  | .null => [.variant 15]
  | .undefined => [.variant 16]
  | .simple s => [.variant 17, .word8 s.value]
  | .half x => [.variant 18, .word16 x.bits]
  | .single x => [.variant 19, .word32 x.bits]
  | .double x => [.variant 20, .word64 x.bits]
  | .raw b => .variant 21 :: feedBytes b

/-- What items feed, one after the other. -/
def feedItems : List Item → List Piece
  | [] => []
  | item :: items => feed item ++ feedItems items

/-- What entries feed, one after the other. -/
def feedEntries : List (Item × Item) → List Piece
  | [] => []
  | (key, value) :: entries => feed key ++ (feed value ++ feedEntries entries)

end

/-- A hash of what the item feeds. -/
def hash (x : Item) : UInt64 := x.feed.foldl (fun state piece => mixHash state (Hashable.hash piece)) 7

instance : Hashable Item := ⟨hash⟩

end Cbor.Item
