import Cbor.Item.Map
import Cbor.Proofs.Head

/-!
# The grammar of encoded data

`Encodes D b x`: the bytes `b` are an encoding of the item `x` in which arrays, maps and tags nest at most `D` deep.
An item has many encodings: an argument may be spelled wider than needed, a string or a container may be of
indefinite length, a map may repeat a key.

- `Series L b xs`: words of `L` for the elements of `xs`, one after the other.
- `EncodesString major b content`: a definite string under a major type.
- An encoding is not empty and does not begin with a break (`Encodes.opens`), and it remains one when the limit on the
  nesting is raised (`Encodes.mono`).
-/

namespace Cbor

open Head (Argument initialByte indefiniteInfo breakByte)

/-! ## The grammar -/

/-- Words of a language one after the other, and what they stand for. -/
inductive Series {α : Type} (L : Bytes → α → Prop) : Bytes → List α → Prop
  | nil : Series L [] []
  | cons {b bs : Bytes} {x : α} {xs : List α} : L b x → Series L bs xs → Series L (b ++ bs) (x :: xs)

/-- A definite string of bytes under a major type. -/
inductive EncodesString (major : UInt8) : Bytes → Bytes → Prop
  | mk {info : UInt8} {length : UInt64} {arg content : Bytes} :
      Argument info length arg → content.length = length.toNat →
      EncodesString major (initialByte major info :: (arg ++ content)) content

/-- What has no content: the additional info under major type 7 and the bytes after the initial byte. -/
inductive EncodesSpecial : UInt8 → Bytes → Item → Prop
  | simple {s : Simple} : s.value.toNat < 20 → EncodesSpecial s.value [] (.simple s)
  | simpleByte {s : Simple} : 32 ≤ s.value.toNat → EncodesSpecial 24 [s.value] (.simple s)
  | falseValue : EncodesSpecial 20 [] (.bool false)
  | trueValue : EncodesSpecial 21 [] (.bool true)
  | null : EncodesSpecial 22 [] .null
  | undefined : EncodesSpecial 23 [] .undefined
  | half {x : Binary16} : EncodesSpecial 25 (Bytes.ofNat 2 x.bits.toNat) (.half x)
  | single {x : Binary32} : EncodesSpecial 26 (Bytes.ofNat 4 x.bits.toNat) (.single x)
  | double {x : Binary64} : EncodesSpecial 27 (Bytes.ofNat 8 x.bits.toNat) (.double x)

mutual

/-- The encodings of an item in which arrays, maps and tags nest at most so deep. -/
inductive Encodes : Nat → Bytes → Item → Prop
  | unsigned {D : Nat} {info : UInt8} {v : UInt64} {arg : Bytes} :
      Argument info v arg → Encodes D (initialByte 0 info :: arg) (.unsigned v)
  | negative {D : Nat} {info : UInt8} {m : UInt64} {arg : Bytes} :
      Argument info m arg → Encodes D (initialByte 1 info :: arg) (.negative m)
  | bytes {D : Nat} {b content : Bytes} : EncodesString 2 b content → Encodes D b (.bytes content)
  | byteChunks {D : Nat} {b : Bytes} {chunks : List Bytes} : Series (EncodesString 2) b chunks →
      Encodes D (initialByte 2 indefiniteInfo :: (b ++ [breakByte])) (.byteChunks chunks)
  | text {D : Nat} {b : Bytes} {s : String} : EncodesString 3 b (.ofString s) → Encodes D b (.text s)
  | textChunks {D : Nat} {b : Bytes} {chunks : List String} :
      Series (fun b s => EncodesString 3 b (.ofString s)) b chunks →
      Encodes D (initialByte 3 indefiniteInfo :: (b ++ [breakByte])) (.textChunks chunks)
  | array {D : Nat} {info : UInt8} {count : UInt64} {arg b : Bytes} {items : List Item} :
      Argument info count arg → items.length = count.toNat → EncodesItems D b items →
      Encodes (D + 1) (initialByte 4 info :: (arg ++ b)) (.array items false)
  | arrayToBreak {D : Nat} {b : Bytes} {items : List Item} : EncodesItems D b items →
      Encodes (D + 1) (initialByte 4 indefiniteInfo :: (b ++ [breakByte])) (.array items true)
  | map {D : Nat} {info : UInt8} {count : UInt64} {arg b : Bytes} {entries : List (Item × Item)} :
      Argument info count arg → entries.length = count.toNat → EncodesEntries D b entries →
      Encodes (D + 1) (initialByte 5 info :: (arg ++ b)) (.ofEntries entries false)
  | mapToBreak {D : Nat} {b : Bytes} {entries : List (Item × Item)} : EncodesEntries D b entries →
      Encodes (D + 1) (initialByte 5 indefiniteInfo :: (b ++ [breakByte])) (.ofEntries entries true)
  | tag {D : Nat} {info : UInt8} {tag : UInt64} {arg b : Bytes} {content : Item} :
      Argument info tag arg → Encodes D b content →
      Encodes (D + 1) (initialByte 6 info :: (arg ++ b)) (.ofTag tag content)
  | special {D : Nat} {info : UInt8} {b : Bytes} {x : Item} :
      EncodesSpecial info b x → Encodes D (initialByte 7 info :: b) x

/-- The encodings of items one after the other. -/
inductive EncodesItems : Nat → Bytes → List Item → Prop
  | nil {D : Nat} : EncodesItems D [] []
  | cons {D : Nat} {b bs : Bytes} {x : Item} {xs : List Item} :
      Encodes D b x → EncodesItems D bs xs → EncodesItems D (b ++ bs) (x :: xs)

/-- The encodings of keys and values one after the other. -/
inductive EncodesEntries : Nat → Bytes → List (Item × Item) → Prop
  | nil {D : Nat} : EncodesEntries D [] []
  | cons {D : Nat} {b b' bs : Bytes} {key value : Item} {entries : List (Item × Item)} :
      Encodes D b key → Encodes D b' value → EncodesEntries D bs entries →
      EncodesEntries D (b ++ b' ++ bs) ((key, value) :: entries)

end

/-! ## Series -/

theorem encodesItems_iff {D : Nat} {b : Bytes} {items : List Item} :
    EncodesItems D b items ↔ Series (Encodes D) b items := by
  constructor
  · intro h
    induction items generalizing b with
    | nil => cases h; exact .nil
    | cons x xs ih =>
      cases h with
      | cons hx hxs => exact .cons hx (ih hxs)
  · intro h
    induction h with
    | nil => exact .nil
    | cons hx _ ih => exact .cons hx ih

theorem series_map {α β : Type} {L : Bytes → β → Prop} {f : α → β} {b : Bytes} {xs : List α} :
    Series L b (xs.map f) ↔ Series (fun b x => L b (f x)) b xs := by
  constructor
  · intro h
    induction xs generalizing b with
    | nil => cases h; exact .nil
    | cons x xs ih =>
      cases h with
      | cons hx hxs => exact .cons hx (ih hxs)
  · intro h
    induction h with
    | nil => exact .nil
    | cons hx _ ih => exact .cons hx ih

/-- An encoding of a key and then one of its value. -/
def EncodesEntry (D : Nat) (b : Bytes) (e : Item × Item) : Prop :=
  ∃ b₁ b₂, b = b₁ ++ b₂ ∧ Encodes D b₁ e.1 ∧ Encodes D b₂ e.2

theorem encodesEntries_iff {D : Nat} {b : Bytes} {entries : List (Item × Item)} :
    EncodesEntries D b entries ↔ Series (EncodesEntry D) b entries := by
  constructor
  · intro h
    induction entries generalizing b with
    | nil => cases h; exact .nil
    | cons e es ih =>
      cases h with
      | cons hk hv hes => exact .cons ⟨_, _, rfl, hk, hv⟩ (ih hes)
  · intro h
    induction h with
    | nil => exact .nil
    | cons he _ ih =>
      obtain ⟨b₁, b₂, rfl, hk, hv⟩ := he
      exact .cons hk hv ih

/-! ## First bytes -/

/-- A word that is not empty and does not begin with a break. -/
def Opens (b : Bytes) : Prop := ∃ i t, b = i :: t ∧ i ≠ breakByte

theorem opens_initialByte {major info : UInt8} (hm : major.toNat < 8) (hi : info.toNat < 32)
    (h : major.toNat < 7 ∨ info.toNat < 31) (b : Bytes) : Opens (initialByte major info :: b) :=
  ⟨_, b, rfl, Head.initialByte_ne_breakByte hm hi h⟩

theorem Opens.append {b : Bytes} (h : Opens b) (b' : Bytes) : Opens (b ++ b') := by
  obtain ⟨i, t, rfl, hi⟩ := h
  exact ⟨i, t ++ b', rfl, hi⟩

theorem Opens.length_pos {b : Bytes} (h : Opens b) : 0 < b.length := by
  obtain ⟨i, t, rfl, -⟩ := h
  exact Nat.succ_pos _

theorem Head.Argument.opens {major info : UInt8} {v : UInt64} {arg : Bytes} (h : Argument info v arg)
    (hm : major.toNat < 7) (b : Bytes) : Opens (initialByte major info :: b) := by
  have := h.info_lt
  exact opens_initialByte (by omega) (by omega) (by omega) b

theorem EncodesString.opens {major : UInt8} {b content : Bytes} (hm : major.toNat < 7)
    (h : EncodesString major b content) : Opens b := by
  cases h with
  | mk ha _ => exact ha.opens hm _

theorem EncodesSpecial.info_lt {info : UInt8} {b : Bytes} {x : Item} (h : EncodesSpecial info b x) :
    info.toNat < 28 := by
  cases h with
  | simple hs => omega
  | _ => decide

/-- No encoding is empty or begins with a break. -/
theorem Encodes.opens : ∀ {D : Nat} {b : Bytes} {x : Item}, Encodes D b x → Opens b
  | _, _, _, .unsigned h | _, _, _, .negative h | _, _, _, .array h _ _ | _, _, _, .map h _ _
  | _, _, _, .tag h _ => h.opens (by decide) _
  | _, _, _, .bytes h | _, _, _, .text h => h.opens (by decide)
  | _, _, _, .byteChunks _ | _, _, _, .textChunks _ | _, _, _, .arrayToBreak _ | _, _, _, .mapToBreak _ =>
    opens_initialByte (by decide) (by decide) (by decide) _
  | _, _, _, .special h => by
    have := h.info_lt
    exact opens_initialByte (by decide) (by omega) (by omega) _

/-- Each word takes at least one byte. -/
theorem Series.length_le {α : Type} {L : Bytes → α → Prop} (hL : ∀ {b x}, L b x → Opens b) {b : Bytes} {xs : List α}
    (h : Series L b xs) : xs.length ≤ b.length := by
  induction h with
  | nil => exact Nat.le_refl _
  | cons hx _ ih =>
    have hpos := (hL hx).length_pos
    rw [List.length_cons, List.length_append]
    omega

theorem EncodesEntry.opens {D : Nat} {b : Bytes} {e : Item × Item} (h : EncodesEntry D b e) : Opens b := by
  obtain ⟨b₁, b₂, rfl, hk, -⟩ := h
  exact hk.opens.append b₂

/-! ## The limit on the nesting -/

mutual

/-- A greater limit admits no fewer encodings. -/
theorem Encodes.mono : ∀ {D D' : Nat} {b : Bytes} {x : Item}, D ≤ D' → Encodes D b x → Encodes D' b x
  | _, _, _, _, _, .unsigned h => .unsigned h
  | _, _, _, _, _, .negative h => .negative h
  | _, _, _, _, _, .bytes h => .bytes h
  | _, _, _, _, _, .byteChunks h => .byteChunks h
  | _, _, _, _, _, .text h => .text h
  | _, _, _, _, _, .textChunks h => .textChunks h
  | _, _ + 1, _, _, hd, .array ha hl h => .array ha hl (EncodesItems.mono (Nat.le_of_succ_le_succ hd) h)
  | _, _ + 1, _, _, hd, .arrayToBreak h => .arrayToBreak (EncodesItems.mono (Nat.le_of_succ_le_succ hd) h)
  | _, _ + 1, _, _, hd, .map ha hl h => .map ha hl (EncodesEntries.mono (Nat.le_of_succ_le_succ hd) h)
  | _, _ + 1, _, _, hd, .mapToBreak h => .mapToBreak (EncodesEntries.mono (Nat.le_of_succ_le_succ hd) h)
  | _, _ + 1, _, _, hd, .tag ha h => .tag ha (Encodes.mono (Nat.le_of_succ_le_succ hd) h)
  | _, _, _, _, _, .special h => .special h

theorem EncodesItems.mono : ∀ {D D' : Nat} {b : Bytes} {items : List Item}, D ≤ D' → EncodesItems D b items →
    EncodesItems D' b items
  | _, _, _, _, _, .nil => .nil
  | _, _, _, _, hd, .cons h hs => .cons (Encodes.mono hd h) (EncodesItems.mono hd hs)

theorem EncodesEntries.mono : ∀ {D D' : Nat} {b : Bytes} {entries : List (Item × Item)}, D ≤ D' →
    EncodesEntries D b entries → EncodesEntries D' b entries
  | _, _, _, _, _, .nil => .nil
  | _, _, _, _, hd, .cons hk hv hs =>
    .cons (Encodes.mono hd hk) (Encodes.mono hd hv) (EncodesEntries.mono hd hs)

end

end Cbor
