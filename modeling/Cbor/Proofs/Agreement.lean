import Cbor.Decode.Item
import Cbor.Proofs.Recognition

/-!
# Readers in other surroundings

A reader looks at no more than the bytes it takes, and at offsets only to name them. `Agrees p s excused r r'`: what
`r` gives, `r'` gives with `p` more bytes before and with the bytes `s` behind, but for the faults of `r` that are
excused.

- Bytes behind make a difference only where `r` runs out of data (`Tolerant`), and bytes before only to the offsets
  (`Agrees.readAt`).
- A greater limit on the nesting makes a difference only where `r` meets its own (`agrees_item`,
  `decodeWithDepth_of_le`).
-/

namespace Cbor

/-- The same fault with more bytes before. -/
def DecodeError.shift (p : Nat) : DecodeError → DecodeError
  | .outOfData offset => .outOfData (offset + p)
  | .reservedInfo info offset => .reservedInfo info (offset + p)
  | .strayBreak offset => .strayBreak (offset + p)
  | .invalidChunk offset => .invalidChunk (offset + p)
  | .invalidUtf8 offset => .invalidUtf8 (offset + p)
  | .stalled offset => .stalled (offset + p)
  | .reservedSimple value => .reservedSimple value
  | .tooDeep => .tooDeep
  | .trailing count => .trailing count

theorem DecodeError.shift_zero (e : DecodeError) : e.shift 0 = e := by
  cases e <;> rfl

/-- The same place with more bytes before and behind. -/
def Cursor.within (p : Nat) (s : Bytes) (c : Cursor) : Cursor := ⟨c.offset + p, c.rest ++ s⟩

theorem Cursor.within_zero (c : Cursor) : c.within 0 [] = c := by rw [within, Nat.add_zero, List.append_nil]

namespace Reader

variable {α β : Type} {p : Nat} {s : Bytes} {excused : DecodeError → Prop}

/-! ## Agreement -/

/-- Two outcomes are the same but for the surroundings, or the first is a fault that is excused. -/
inductive Same (p : Nat) (s : Bytes) (excused : DecodeError → Prop) :
    Except DecodeError (α × Cursor) → Except DecodeError (α × Cursor) → Prop
  | ok (x : α) (c : Cursor) : Same p s excused (.ok (x, c)) (.ok (x, c.within p s))
  | error (e : DecodeError) : Same p s excused (.error e) (.error (e.shift p))
  | excused {e : DecodeError} (y : Except DecodeError (α × Cursor)) : excused e → Same p s excused (.error e) y

/-- The second reader does in the surroundings what the first does without. -/
def Agrees (p : Nat) (s : Bytes) (excused : DecodeError → Prop) (r r' : Reader α) : Prop :=
  ∀ c, Same p s excused (r c) (r' (c.within p s))

/-- If bytes stand behind, that the data ends is excused. -/
def Tolerant (s : Bytes) (excused : DecodeError → Prop) : Prop :=
  s = [] ∨ ∀ o, excused (.outOfData o) ∧ excused (.stalled o)

/-! ## Laws -/

theorem agrees_pure (x : α) : Agrees p s excused (pure x) (pure x) := fun c => .ok x c

theorem agrees_throw (e : DecodeError) : Agrees p s excused (throw e : Reader α) (throw (e.shift p)) := fun _ =>
  .error e

theorem Agrees.bind {r r' : Reader α} {f f' : α → Reader β} (hr : Agrees p s excused r r')
    (hf : ∀ x, Agrees p s excused (f x) (f' x)) : Agrees p s excused (r >>= f) (r' >>= f') := fun c => by
  show Same p s excused (r c >>= fun q => f q.1 q.2) (r' (c.within p s) >>= fun q => f' q.1 q.2)
  have h := hr c
  generalize r c = o, r' (c.within p s) = o' at h
  cases h with
  | ok x c' => exact hf x c'
  | error e => exact .error e
  | excused _ he => exact .excused _ he

theorem Agrees.map {r r' : Reader α} (f : α → β) (hr : Agrees p s excused r r') :
    Agrees p s excused (r >>= fun x => pure (f x)) (r' >>= fun x => pure (f x)) := hr.bind fun x => agrees_pure (f x)

/-- Offsets differ by the number of bytes before. -/
theorem agrees_offset {f f' : Nat → Reader α} (hf : ∀ o, Agrees p s excused (f o) (f' (o + p))) :
    Agrees p s excused (offset >>= f) (offset >>= f') := fun c => hf c.offset c

/-! ## Bytes and arguments -/

theorem agrees_byte (hs : Tolerant s excused) : Agrees p s excused byte byte := fun ⟨o, rest⟩ => by
  cases rest with
  | nil =>
    rcases hs with rfl | hs
    · exact .error (.outOfData o)
    · exact .excused _ (hs o).1
  | cons b rest =>
    have h : Same p s excused (.ok (b, ⟨o + 1, rest⟩)) (.ok (b, ⟨o + 1 + p, rest ++ s⟩)) := .ok b _
    rwa [Nat.add_right_comm] at h

theorem agrees_take (hs : Tolerant s excused) (n : Nat) : Agrees p s excused (take n) (take n) := fun ⟨o, rest⟩ => by
  have hl : (rest.take n).length = n ↔ n ≤ rest.length := by
    rw [List.length_take]
    omega
  by_cases h : n ≤ rest.length
  · have ht : (rest ++ s).take n = rest.take n := List.take_append_of_le_length h
    have hd : (rest ++ s).drop n = rest.drop n ++ s := List.drop_append_of_le_length h
    simp only [take, Cursor.within, ht, hd, if_pos (hl.mpr h), Nat.add_right_comm o p n]
    exact .ok _ ⟨o + n, rest.drop n⟩
  · have he : take n ⟨o, rest⟩ = .error (.outOfData o) := if_neg (mt hl.mp h)
    rw [he]
    rcases hs with rfl | hs
    · have he' : take n (Cursor.within p [] ⟨o, rest⟩) = .error (.outOfData (o + p)) := by
        rw [Cursor.within, List.append_nil]
        exact if_neg (mt hl.mp h)
      rw [he']
      exact .error (.outOfData o)
    · exact .excused _ (hs o).1

theorem agrees_argument (hs : Tolerant s excused) (start info : Nat) :
    Agrees p s excused (argument start info) (argument (start + p) info) := by
  unfold argument
  split
  · exact agrees_pure _
  split
  · exact (agrees_take hs _).map _
  · exact agrees_throw _

theorem agrees_content (hs : Tolerant s excused) (start info : Nat) :
    Agrees p s excused (content start info) (content (start + p) info) :=
  (agrees_argument hs start info).bind fun length => agrees_take hs length.toNat

theorem agrees_text (start : Nat) (b : Bytes) : Agrees p s excused (text start b) (text (start + p) b) := by
  unfold text
  split
  · exact agrees_pure _
  · exact agrees_throw _

/-! ## Repetition -/

theorem Agrees.times {r r' : Reader α} (hr : Agrees p s excused r r') :
    ∀ n, Agrees p s excused (times r n) (times r' n)
  | 0 => agrees_pure []
  | n + 1 => hr.bind fun x => (hr.times n).map (x :: ·)

theorem Agrees.untilBreakWithin (hs : Tolerant s excused) {r r' : Reader α} (hr : Agrees p s excused r r') :
    ∀ {limit limit' : Nat}, limit ≤ limit' → (s = [] → limit = limit') →
      Agrees p s excused (untilBreakWithin r limit) (untilBreakWithin r' limit')
  | 0, limit', _, he => fun c => by
    -- With nothing behind, the two limits are the same and both are used up here.
    rcases hs with rfl | hs
    · obtain rfl := he rfl
      exact .error (.stalled c.offset)
    · exact .excused _ (hs c.offset).2
  | limit + 1, limit' + 1, hl, he => fun ⟨o, rest⟩ => by
    cases rest with
    | nil =>
      rcases hs with rfl | hs
      · exact .error (.outOfData o)
      · exact .excused _ (hs o).1
    | cons b rest =>
      by_cases hb : b = Head.breakByte
      · have h : Reader.untilBreakWithin r (limit + 1) ⟨o, b :: rest⟩ = .ok ([], ⟨o + 1, rest⟩) := if_pos hb
        have h' : Reader.untilBreakWithin r' (limit' + 1) (Cursor.within p s ⟨o, b :: rest⟩) =
            .ok ([], Cursor.within p s ⟨o + 1, rest⟩) := by
          rw [Cursor.within, Cursor.within, Nat.add_right_comm]
          exact if_pos hb
        rw [h, h']
        exact .ok _ _
      · have ih := hr.untilBreakWithin hs (Nat.le_of_succ_le_succ hl) fun h => Nat.succ.inj (he h)
        have h := hr.bind (fun x => ih.map (x :: ·)) ⟨o, b :: rest⟩
        have hc : Reader.untilBreakWithin r (limit + 1) ⟨o, b :: rest⟩ =
            (r >>= fun x => Reader.untilBreakWithin r limit >>= fun xs => pure (x :: xs)) ⟨o, b :: rest⟩ := if_neg hb
        have hc' : Reader.untilBreakWithin r' (limit' + 1) (Cursor.within p s ⟨o, b :: rest⟩) =
            (r' >>= fun x => Reader.untilBreakWithin r' limit' >>= fun xs => pure (x :: xs))
              (Cursor.within p s ⟨o, b :: rest⟩) := if_neg hb
        rwa [hc, hc']

theorem Agrees.untilBreak (hs : Tolerant s excused) {r r' : Reader α} (hr : Agrees p s excused r r') :
    Agrees p s excused (untilBreak r) (untilBreak r') := fun c => by
  have hl : c.rest.length + 1 ≤ (c.rest ++ s).length + 1 := by
    rw [List.length_append]
    omega
  refine hr.untilBreakWithin hs hl ?_ c
  rintro rfl
  rw [List.append_nil]

/-- Bytes behind would be read too, so there are none. -/
theorem Agrees.untilEnd {r r' : Reader α} (hr : Agrees p [] excused r r') :
    Agrees p [] excused (untilEnd r) (untilEnd r') := by
  have hw (limit : Nat) : Agrees p [] excused (untilEndWithin r limit) (untilEndWithin r' limit) := by
    induction limit with
    | zero =>
      intro c
      exact .error (.stalled c.offset)
    | succ limit ih =>
      intro c
      obtain ⟨o, rest⟩ := c
      cases rest with
      | nil => exact .ok [] ⟨o, []⟩
      | cons b rest => exact (hr.bind fun x => ih.map (x :: ·)) ⟨o, b :: rest⟩
  intro c
  have hl : (c.within p []).rest.length = c.rest.length := by rw [Cursor.within, List.append_nil]
  rw [Reader.untilEnd, Reader.untilEnd, hl]
  exact hw _ c

/-! ## Items -/

theorem agrees_chunk (hs : Tolerant s excused) (major : Nat) : Agrees p s excused (chunk major) (chunk major) :=
  agrees_offset fun start => (agrees_byte hs).bind fun i => by
    dsimp only
    split
    · exact (agrees_throw (.invalidChunk start)).bind fun _ => agrees_content hs _ _
    · exact agrees_content hs _ _

theorem Agrees.entry {r r' : Reader Item} (hr : Agrees p s excused r r') : Agrees p s excused (entry r) (entry r') :=
  hr.bind fun key => hr.map fun value => (key, value)

theorem Agrees.elements (hs : Tolerant s excused) {r r' : Reader α} (hr : Agrees p s excused r r')
    (start info : Nat) : Agrees p s excused (elements r start info) (elements r' (start + p) info) := by
  unfold Reader.elements
  split
  · exact hr.untilBreak hs
  · exact (agrees_argument hs start info).bind fun count => hr.times count.toNat

theorem agrees_texts (start : Nat) : ∀ chunks : List Bytes,
    Agrees p s excused (chunks.mapM (text start)) (chunks.mapM (text (start + p)))
  | [] => agrees_pure []
  | chunk :: chunks => by
    rw [List.mapM_cons, List.mapM_cons]
    exact (agrees_text start chunk).bind fun t => (agrees_texts start chunks).map (t :: ·)

theorem agrees_simple (v : UInt8) : Agrees p s excused (simple v) (simple v) := by
  unfold simple
  split
  · exact agrees_pure _
  · exact agrees_throw _

theorem agrees_special (hs : Tolerant s excused) (start info : Nat) :
    Agrees p s excused (special start info) (special (start + p) info) := by
  unfold special
  split
  · exact agrees_pure _
  · exact agrees_pure _
  · exact agrees_pure _
  · exact agrees_pure _
  · refine (agrees_byte hs).bind fun v => ?_
    split
    · exact agrees_throw _
    · exact agrees_simple v
  · exact (agrees_take hs 2).map _
  · exact (agrees_take hs 4).map _
  · exact (agrees_take hs 8).map _
  · exact agrees_throw _
  · split
    · exact agrees_simple _
    · exact agrees_throw _

/-- The readers one level deeper agree, or the first limit is met and that is excused. -/
inductive AgreesDeeper (p : Nat) (s : Bytes) (excused : DecodeError → Prop) :
    Option (Reader Item) → Option (Reader Item) → Prop
  | none : AgreesDeeper p s excused none none
  | some {r r' : Reader Item} : Agrees p s excused r r' → AgreesDeeper p s excused (some r) (some r')
  | excused (inner : Option (Reader Item)) : excused .tooDeep → AgreesDeeper p s excused none inner

section Body

variable {inner inner' : Option (Reader Item)}

theorem AgreesDeeper.bind (hd : AgreesDeeper p s excused inner inner') {f f' : Reader Item → Reader α}
    (hf : ∀ r r', Agrees p s excused r r' → Agrees p s excused (f r) (f' r')) :
    Agrees p s excused (deeper inner >>= f) (deeper inner' >>= f') := by
  cases hd with
  | none => exact fun c => .error .tooDeep
  | some hr => exact hf _ _ hr
  | excused _ he => exact fun c => .excused _ he

theorem agrees_body (hs : Tolerant s excused) (hd : AgreesDeeper p s excused inner inner') (start major info : Nat) :
    Agrees p s excused (body inner start major info) (body inner' (start + p) major info) := by
  unfold body
  split
  · exact (agrees_argument hs start info).map _
  · exact (agrees_argument hs start info).map _
  · split
    · exact ((agrees_chunk hs 2).untilBreak hs).map _
    · exact (agrees_content hs start info).map _
  · split
    · exact ((agrees_chunk hs 3).untilBreak hs).bind fun chunks => (agrees_texts start chunks).map _
    · exact (agrees_content hs start info).bind fun b => (agrees_text start b).map _
  · exact hd.bind fun r r' hr => (hr.elements hs start info).map _
  · exact hd.bind fun r r' hr => (hr.entry.elements hs start info).map _
  · exact (agrees_argument hs start info).bind fun tag => hd.bind fun r r' hr => hr.map _
  · exact agrees_special hs start info

theorem agrees_itemWith (hs : Tolerant s excused) (hd : AgreesDeeper p s excused inner inner') :
    Agrees p s excused (itemWith inner) (itemWith inner') :=
  agrees_offset fun start => (agrees_byte hs).bind fun _ => agrees_body hs hd start _ _

end Body

/-- **Items in other surroundings**: more bytes before only shift the offsets, more bytes behind change nothing unless
the data ends too early, and a greater limit changes nothing unless the nesting goes beyond the first. -/
theorem agrees_item (hs : Tolerant s excused) : ∀ {D D' : Nat}, D ≤ D' → (D = D' ∨ excused .tooDeep) →
    Agrees p s excused (item D) (item D')
  | 0, 0, _, _ => agrees_itemWith hs .none
  | 0, D' + 1, _, h => agrees_itemWith hs (.excused _ (h.resolve_left (by omega)))
  | D + 1, D' + 1, hl, h =>
    agrees_itemWith hs (.some (agrees_item hs (Nat.le_of_succ_le_succ hl) (h.imp_left Nat.succ.inj)))

theorem agrees_length (hs : Tolerant s excused) :
    Agrees p s excused decodeLength.readLength decodeLength.readLength := by
  refine agrees_offset fun start => (agrees_byte hs).bind fun initial => ?_
  dsimp only
  split
  · exact agrees_pure 0
  · exact agrees_argument hs start _

/-! ## At an offset -/

/-- The same outcome with more bytes before. -/
def moved (p : Nat) : Except DecodeError (α × Nat) → Except DecodeError (α × Nat)
  | .ok (x, next) => .ok (x, next + p)
  | .error e => .error (e.shift p)

theorem moved_zero (o : Except DecodeError (α × Nat)) : moved 0 o = o := by
  cases o with
  | ok q => rfl
  | error e => rw [moved, DecodeError.shift_zero]

/-- Readers that agree give the same at places that are the same but for the surroundings. -/
theorem Agrees.readAt {r r' : Reader α} (hr : Agrees p s excused r r') {d d' : Bytes} {offset offset' : Nat}
    (hc : Cursor.at d' offset' = (Cursor.at d offset).within p s) :
    (∃ e, excused e ∧ r.readAt d offset = .error e) ∨ r'.readAt d' offset' = moved p (r.readAt d offset) := by
  have h := hr (.at d offset)
  rw [Reader.readAt, Reader.readAt, hc]
  generalize r (.at d offset) = o, r' ((Cursor.at d offset).within p s) = o' at h
  cases h with
  | ok x c => exact .inr rfl
  | error e => exact .inr rfl
  | excused _ he => exact .inl ⟨_, he, rfl⟩

end Reader

/-! ## The limit on the nesting -/

/-- Under a greater limit the outcome is the same, unless the nesting goes beyond the limit. -/
theorem decodeWithDepth_of_le {D D' : Nat} (h : D ≤ D') (data : Bytes) (offset : Nat) :
    decodeWithDepth data offset D = .error .tooDeep ∨
      decodeWithDepth data offset D = decodeWithDepth data offset D' := by
  have hi : Reader.Agrees 0 [] (· = .tooDeep) (Reader.item D) (Reader.item D') :=
    Reader.agrees_item (.inl rfl) h (.inr rfl)
  rcases hi.readAt (Cursor.within_zero (.at data offset)).symm with ⟨_, rfl, hd⟩ | hd
  · exact .inl hd
  · rw [Reader.moved_zero] at hd
    exact .inr hd.symm

end Cbor
