import Cbor.Proofs.Bytes
import Cbor.Proofs.Machine

/-!
# The machine never panics

`Follows`: a run on the machine does what a reader does. It has the same result at the same place within the data, or
the same error of the data, so it has not panicked.

- Sums of offsets within the data stay far below the bound of 64 bits, and a loop makes no more rounds than there are
  bytes from its start, and one: each element takes at least one byte (`Advances`, `Advances.untilBreakWithin`,
  `Advances.timesWithin`).
- An item follows its reader at every offset and limit, and takes at least one byte (`advances_item`).
- So every entry point returns what its function says (`Machine.decoders_return`).
-/

namespace Cbor

namespace Machine

open Run

variable {α β : Type}

/-! ## Runs beside readers -/

/-- The fault lies in the data. -/
def Proper : DecodeError → Prop
  | .stalled _ => False
  | _ => True

/-- A run has the result of a reader, at a place from `low` to the end of the data, or its error of the data. -/
inductive Follows (data : Bytes) (low : Nat) : Run (α × Nat) → Except DecodeError (α × Cursor) → Prop
  | ok (x : α) {next : Nat} : low ≤ next → next ≤ data.length →
      Follows data low (.ok (x, next)) (.ok (x, .at data next))
  | error {e : DecodeError} : Proper e → Follows data low (.error (.error e)) (.error e)

/-- Wherever it begins, a run follows the reader, and its result lies past the beginning. -/
def Advances (data : Bytes) (r : Nat → Run (α × Nat)) (r' : Reader α) : Prop :=
  ∀ offset, Follows data (offset + 1) (r offset) (r' (.at data offset))

variable {data : Bytes} {low low' : Nat}

theorem Follows.mono {run : Run (α × Nat)} {outcome : Except DecodeError (α × Cursor)}
    (h : Follows data low run outcome) (hl : low' ≤ low) : Follows data low' run outcome := by
  cases h with
  | ok x hx hn => exact .ok x (Nat.le_trans hl hx) hn
  | error he => exact .error he

theorem Follows.bind {run : Run (α × Nat)} {r : Reader α} {c : Cursor} {f : α × Nat → Run (β × Nat)}
    {g : α → Reader β} (h : Follows data low run (r c))
    (hf : ∀ x next, low ≤ next → next ≤ data.length → Follows data low' (f (x, next)) (g x (.at data next))) :
    Follows data low' (run >>= f) ((r >>= g) c) := by
  show Follows data low' (run >>= f) (r c >>= fun p => g p.1 p.2)
  generalize r c = outcome at h
  cases h with
  | ok x hl hn => exact hf x _ hl hn
  | error he => exact .error he

/-- A result that is only put into another shape. -/
theorem Follows.map {run : Run (α × Nat)} {r : Reader α} {c : Cursor} (f : α → β) (h : Follows data low run (r c)) :
    Follows data low (run >>= fun p => .ok (f p.1, p.2)) ((r >>= fun x => pure (f x)) c) :=
  h.bind fun _ _ hl hn => .ok _ hl hn

/-! ## Cursors -/

theorem cursor_at_cons {offset : Nat} (h : offset < data.length) :
    Cursor.at data offset = ⟨offset, data[offset] :: data.drop (offset + 1)⟩ := by
  rw [Cursor.at, List.drop_eq_getElem_cons h]

theorem cursor_at_nil {offset : Nat} (h : data.length ≤ offset) : Cursor.at data offset = ⟨offset, []⟩ := by
  rw [Cursor.at, List.drop_eq_nil_of_le h]

theorem take_at {offset : Nat} (n : Nat) (h : offset ≤ data.length) :
    Reader.take n (.at data offset) = if offset + n ≤ data.length
      then .ok (data.extract offset (offset + n), .at data (offset + n)) else .error (.outOfData offset) := by
  have hl : ((data.drop offset).take n).length = n ↔ offset + n ≤ data.length := by
    rw [List.length_take, List.length_drop]
    omega
  simp only [Reader.take, Cursor.at, hl, List.drop_drop, List.extract_eq_take_drop, Nat.add_sub_cancel_left]

variable {m : Machine}

theorem follows_byte {offset : Nat} {f : UInt8 → Run (α × Nat)} {g : UInt8 → Reader α}
    (hf : ∀ b, offset < m.data.length → Follows m.data low (f b) (g b (.at m.data (offset + 1)))) :
    Follows m.data low (m.byte offset >>= f) ((Reader.byte >>= g) (.at m.data offset)) := by
  by_cases h : offset < m.data.length
  · rw [byte, List.getElem?_eq_getElem h, cursor_at_cons h]
    exact hf _ h
  · rw [byte, List.getElem?_eq_none (Nat.le_of_not_lt h), cursor_at_nil (Nat.le_of_not_lt h)]
    exact .error trivial

/-- An initial byte, with its offset. -/
theorem follows_initial {offset : Nat} {f : UInt8 → Run (α × Nat)} {g : Nat → UInt8 → Reader α}
    (hf : ∀ b, offset < m.data.length → Follows m.data low (f b) (g offset b (.at m.data (offset + 1)))) :
    Follows m.data low (m.byte offset >>= f)
      ((Reader.offset >>= fun start => Reader.byte >>= g start) (.at m.data offset)) :=
  follows_byte hf

theorem follows_text (start : Nat) (b : Bytes) {c : Cursor} {f : String → Run (α × Nat)} {g : String → Reader α}
    (hf : ∀ s, Follows m.data low (f s) (g s c)) :
    Follows m.data low (text start b >>= f) ((Reader.text start b >>= g) c) := by
  rw [text, Reader.text]
  cases b.toString? with
  | some s => exact hf s
  | none => exact .error trivial

theorem follows_texts (start : Nat) (chunks : List Bytes) {c : Cursor} {f : List String → Run (α × Nat)}
    {g : List String → Reader α} (hf : ∀ ss, Follows m.data low (f ss) (g ss c)) :
    Follows m.data low (chunks.mapM (text start) >>= f) ((chunks.mapM (Reader.text start) >>= g) c) := by
  induction chunks generalizing f g with
  | nil => exact hf []
  | cons b chunks ih =>
    simp only [List.mapM_cons, bind_assoc, pure_bind]
    exact follows_text start b fun s => ih fun ss => hf (s :: ss)

/-! ## Entries and counted elements -/

theorem Advances.entry {r : Nat → Run (Item × Nat)} {r' : Reader Item} (hr : Advances m.data r r') :
    Advances m.data (entry r) (Reader.entry r') := fun offset => by
  refine (hr offset).bind fun key next hl _ => ?_
  refine (hr next).bind fun value stop hl' hn => ?_
  exact .ok _ (by omega) hn

/-- However great the count, there are no more rounds than bytes, and one. -/
theorem Advances.timesWithin {r : Nat → Run (α × Nat)} {r' : Reader α} (hr : Advances m.data r r') :
    ∀ {limit : Nat} (count : Nat) {offset : Nat}, m.data.length - offset < limit → offset ≤ m.data.length →
      Follows m.data offset (Run.timesWithin r limit count offset) (Reader.times r' count (.at m.data offset))
  | _ + 1, 0, _, _, ho => .ok [] (Nat.le_refl _) ho
  | limit + 1, count + 1, offset, hl, ho => by
    refine (hr offset).bind fun x next hx hn => ?_
    exact ((hr.timesWithin count (by omega) hn).mono (by omega)).map (x :: ·)

/-! ## One level deeper -/

/-- What reads one level deeper on the machine follows what does so in the reader. -/
inductive Nested (data : Bytes) : Option (Nat → Run (Item × Nat)) → Option (Reader Item) → Prop
  | none : Nested data none none
  | some {r : Nat → Run (Item × Nat)} {r' : Reader Item} : Advances data r r' → Nested data (some r) (some r')

theorem Nested.bind {inner : Option (Nat → Run (Item × Nat))} {inner' : Option (Reader Item)}
    (h : Nested m.data inner inner') {c : Cursor} {f : (Nat → Run (Item × Nat)) → Run (α × Nat)}
    {g : Reader Item → Reader α} (hf : ∀ r r', Advances m.data r r' → Follows m.data low (f r) (g r' c)) :
    Follows m.data low (deeper inner >>= f) ((Reader.deeper inner' >>= g) c) := by
  cases h with
  | none => exact .error trivial
  | some hr => exact hf _ _ hr

/-! ## Sums and slices -/

section

variable (hd : m.data.length < 2 ^ 63)
include hd

/-- Sums of an offset within the data and a small width do not overflow. -/
theorem checkedSum_of_le {offset width : Nat} (ho : offset ≤ m.data.length) (hw : width ≤ 9) :
    checkedSum offset width = some (offset + width) := by
  refine if_pos ?_
  simp only [UInt64.size]
  omega

theorem sum_of_le {offset width : Nat} (ho : offset ≤ m.data.length) (hw : width ≤ 9) :
    sum offset width = .ok (offset + width) := by rw [sum, checkedSum_of_le hd ho hw]

theorem follows_spanning {offset width : Nat} (x : α) (ho : offset + width ≤ m.data.length) (hw : width ≤ 9)
    (hl : low ≤ offset + width) :
    Follows m.data low (spanning offset width x) (.ok (x, .at m.data (offset + width))) := by
  rw [spanning, sum_of_le hd (by omega) hw]
  exact .ok x hl ho

theorem follows_number {offset width : Nat} (ho : offset ≤ m.data.length) (hw : width ≤ 8)
    {f : Nat → Run (α × Nat)} {g : Bytes → Reader α}
    (hf : ∀ b, offset + width ≤ m.data.length →
      Follows m.data low (f b.toNat) (g b (.at m.data (offset + width)))) :
    Follows m.data low (m.number width offset >>= f) ((Reader.take width >>= g) (.at m.data offset)) := by
  have hs : checkedSum offset width = some (offset + width) := checkedSum_of_le hd ho (by omega)
  show Follows _ _ _ (Reader.take width (.at m.data offset) >>= fun p => g p.1 p.2)
  rw [number, hs, take_at width ho, Option.bind_some, slice?]
  by_cases h : offset + width ≤ m.data.length
  · rw [if_pos ⟨Nat.le_add_right _ _, h⟩, if_pos h]
    exact hf _ h
  · rw [if_neg (mt And.right h), if_neg h]
    exact .error trivial

theorem follows_argument {info offset : Nat} (ho : offset < m.data.length) (hi : info ≠ 31) :
    Follows m.data (offset + 1) (m.argument info offset) (Reader.argument offset info (.at m.data (offset + 1))) := by
  rw [argument, sum_of_le hd (Nat.le_of_lt ho) (by decide), Reader.argument]
  show Follows _ _ (if info < 24 then _ else _) _
  split
  · exact .ok _ (Nat.le_refl _) ho
  split
  · have hw : 1 <<< (info - 24) ≤ 8 := by
      rw [Nat.one_shiftLeft]
      exact Nat.pow_le_pow_right (by decide : 0 < 2) (by omega : info - 24 ≤ 3)
    refine follows_number hd ho hw fun b hb => ?_
    rw [sum_of_le hd ho (Nat.le_succ_of_le hw)]
    exact .ok _ (Nat.le_add_right _ _) hb
  · exact .error trivial

/-- The head of something of indefinite length has no argument. -/
theorem argument_indefinite {offset : Nat} (ho : offset < m.data.length) :
    m.argument 31 offset = .ok (0, offset + 1) := by
  rw [argument, sum_of_le hd (Nat.le_of_lt ho) (by decide)]
  rfl

theorem follows_content {info offset : Nat} (ho : offset < m.data.length) (hi : info ≠ 31) :
    Follows m.data (offset + 1) (m.content info offset) (Reader.content offset info (.at m.data (offset + 1))) := by
  refine (follows_argument hd ho hi).bind fun length start hl hn => ?_
  rw [take_at length.toNat hn]
  by_cases h : start + length.toNat ≤ m.data.length
  · have hs : checkedSum start length.toNat = some (start + length.toNat) := if_pos (by
      simp only [UInt64.size]
      omega)
    have hb : m.slice? start (start + length.toNat) = some (m.data.extract start (start + length.toNat)) :=
      if_pos ⟨Nat.le_add_right _ _, h⟩
    simp only [hs, Option.filter_some, decide_eq_true h, if_true, if_pos h, slice, hb]
    exact .ok _ (by omega) h
  · -- The sum may be too great for 64 bits; if it is not, it lies beyond the data.
    have hs : (checkedSum start length.toNat).filter (· ≤ m.data.length) = none := by
      unfold checkedSum
      split
      · simp only [Option.filter_some, decide_eq_false h, Bool.false_eq_true, if_false]
      · rfl
    simp only [hs, if_neg h]
    exact .error trivial

/-! ## Up to a break -/

theorem advances_chunk (major : Nat) : Advances m.data (m.chunk major) (Reader.chunk major) := fun offset => by
  unfold chunk Reader.chunk
  refine follows_initial fun initial ho => ?_
  dsimp only
  split
  · exact .error trivial
  · rename_i h
    exact follows_content hd ho fun hi => h (.inr hi)

/-- Up to a break there are no more rounds than bytes, and one. -/
theorem Advances.untilBreakWithin {r : Nat → Run (α × Nat)} {r' : Reader α} (hr : Advances m.data r r') :
    ∀ {limit limit' offset : Nat}, m.data.length - offset < limit → m.data.length - offset < limit' →
      Follows m.data (offset + 1) (m.untilBreakWithin r limit offset)
        (Reader.untilBreakWithin r' limit' (.at m.data offset))
  | limit + 1, limit' + 1, offset, hl, hl' => by
    by_cases ho : offset < m.data.length
    · rw [cursor_at_cons ho, Machine.untilBreakWithin, byte, List.getElem?_eq_getElem ho, Reader.untilBreakWithin]
      show Follows _ _ (if _ then _ else _) (if _ then _ else _)
      split
      · exact follows_spanning hd [] ho (by decide) (Nat.le_refl _)
      · rw [← cursor_at_cons ho]
        refine (hr offset).bind fun x next hx hn => ?_
        exact ((hr.untilBreakWithin (by omega) (by omega)).mono (by omega)).map (x :: ·)
    · rw [cursor_at_nil (Nat.le_of_not_lt ho), Machine.untilBreakWithin, byte,
        List.getElem?_eq_none (Nat.le_of_not_lt ho)]
      exact .error trivial

/-! ## Major type 7 -/

/-- A float, made from the number of its bytes. -/
theorem follows_float {offset width : Nat} (ho : offset < m.data.length) (hw : width ≤ 8) (f : Nat → Item) :
    Follows m.data (offset + 1)
      (sum offset 1 >>= fun start => m.number width start >>= fun v => spanning offset (width + 1) (f v))
      ((Reader.take width >>= fun b => pure (f b.toNat)) (.at m.data (offset + 1))) := by
  have ho' : offset + 1 ≤ m.data.length := ho
  rw [sum_of_le hd (Nat.le_of_lt ho) (by decide)]
  refine follows_number hd ho' hw fun b hb => ?_
  rw [Nat.add_right_comm] at hb ⊢
  exact follows_spanning hd _ hb (Nat.succ_le_succ hw) (by omega)

/-- A simple value, in an encoding of the given width. -/
theorem follows_simple {offset width : Nat} (value : UInt8) (ho : offset + width ≤ m.data.length) (hw : width ≤ 9)
    (hl : low ≤ offset + width) :
    Follows m.data low (simple value >>= spanning offset width)
      (Reader.simple value (.at m.data (offset + width))) := by
  rw [simple, Reader.simple]
  cases Simple.ofByte? value with
  | some s => exact follows_spanning hd _ ho hw hl
  | none => exact .error trivial

/-- A number of one byte is the byte. -/
theorem number_one {offset : Nat} (ho : offset ≤ m.data.length) :
    m.number 1 offset = m.byte offset >>= fun b => .ok b.toNat := by
  rw [number, checkedSum_of_le hd ho (by decide), Option.bind_some, slice?, byte]
  by_cases h : offset < m.data.length
  · have hb : m.data.extract offset (offset + 1) = [m.data[offset]] := by
      rw [List.extract_eq_take_drop, List.drop_eq_getElem_cons h, Nat.add_sub_cancel_left]
      rfl
    rw [if_pos ⟨Nat.le_succ _, h⟩, hb, List.getElem?_eq_getElem h]
    simp only [Bytes.toNat, List.foldl_cons, List.foldl_nil, Nat.zero_mul, Nat.zero_add]
    rfl
  · rw [if_neg (by omega), List.getElem?_eq_none (Nat.le_of_not_lt h)]
    rfl

/-- A simple value in two bytes, the second of them not below 32. -/
theorem follows_simpleByte {offset : Nat} (ho : offset < m.data.length) :
    Follows m.data (offset + 1) (m.special 24 offset) (Reader.special offset 24 (.at m.data (offset + 1))) := by
  have ho' : offset + 1 ≤ m.data.length := ho
  show Follows _ _ (sum offset 1 >>= fun start => m.number 1 start >>= _) ((Reader.byte >>= _) _)
  rw [sum_of_le hd (Nat.le_of_lt ho) (by decide)]
  show Follows _ _ (m.number 1 (offset + 1) >>= _) _
  rw [number_one hd ho', bind_assoc]
  refine follows_byte fun b hb => ?_
  show Follows _ _ (if UInt8.ofNat b.toNat < 32 then _ else _) ((if b < 32 then _ else _ : Reader Item) _)
  rw [UInt8.ofNat_toNat]
  split
  · exact .error trivial
  · exact follows_simple hd b hb (by decide) (Nat.le_succ _)

theorem follows_special {offset : Nat} (ho : offset < m.data.length) (info : Nat) :
    Follows m.data (offset + 1) (m.special info offset) (Reader.special offset info (.at m.data (offset + 1))) := by
  have hp : ∀ x : Item, Follows m.data (offset + 1) (spanning offset 1 x)
      ((pure x : Reader Item) (.at m.data (offset + 1))) := fun x =>
    follows_spanning hd x ho (by decide) (Nat.le_refl _)
  unfold special
  split
  · exact hp _
  · exact hp _
  · exact hp _
  · exact hp _
  · exact follows_simpleByte hd ho
  · exact follows_float hd ho (by decide) fun v => .half ⟨.ofNat v⟩
  · exact follows_float hd ho (by decide) fun v => .single ⟨.ofNat v⟩
  · exact follows_float hd ho (by decide) fun v => .double ⟨.ofNat v⟩
  · exact .error trivial
  · -- Neither side singles out the additional info that is left.
    have hr : Reader.special offset info =
        if info < 20 then Reader.simple (.ofNat info) else throw (.reservedInfo info offset) := by
      unfold Reader.special
      split <;> first | rfl | contradiction
    rw [hr]
    split
    · exact follows_simple hd _ ho (by decide) (Nat.le_refl _)
    · exact .error trivial

/-! ## Heads alone -/

section

variable (hm : ∀ start, m.data.length - start + 1 ≤ m.rounds start)
include hm

theorem Advances.untilBreak {r : Nat → Run (α × Nat)} {r' : Reader α} (hr : Advances m.data r r') (start : Nat) :
    Follows m.data (start + 1) (m.untilBreak r start) (Reader.untilBreak r' (.at m.data start)) := by
  refine hr.untilBreakWithin hd (hm start) ?_
  rw [Cursor.at, List.length_drop]
  exact Nat.lt_succ_self _

theorem Advances.elements {r : Nat → Run (α × Nat)} {r' : Reader α} (hr : Advances m.data r r') {offset : Nat}
    (ho : offset < m.data.length) (info : Nat) :
    Follows m.data (offset + 1) (m.elements r info offset)
      (Reader.elements r' offset info (.at m.data (offset + 1))) := by
  by_cases hi : info = 31
  · subst hi
    rw [Machine.elements, argument_indefinite hd ho]
    exact (hr.untilBreak hd hm (offset + 1)).mono (Nat.le_succ _)
  · rw [Reader.elements, if_neg hi]
    refine (follows_argument hd ho hi).bind fun count start hl hn => ?_
    dsimp only
    rw [if_neg hi]
    exact (hr.timesWithin count.toNat (hm start) hn).mono hl

theorem follows_body {inner : Option (Nat → Run (Item × Nat))} {inner' : Option (Reader Item)}
    (hn : Nested m.data inner inner') {offset : Nat} (ho : offset < m.data.length) {major : Nat} (hj : major < 8)
    (info : Nat) : Follows m.data (offset + 1) (m.body inner offset major info)
      (Reader.body inner' offset major info (.at m.data (offset + 1))) := by
  unfold body
  split
  · rename_i h
    obtain ⟨rfl, rfl | rfl | rfl⟩ := h <;> exact .error trivial
  rename_i h
  rw [not_and] at h
  match major, hj with
  | 0, _ => exact (follows_argument hd ho fun hi => h hi (.inl rfl)).map Item.unsigned
  | 1, _ => exact (follows_argument hd ho fun hi => h hi (.inr (.inl rfl))).map Item.negative
  | 2, _ =>
    show Follows _ _ (if _ then _ else _) ((if _ then _ else _ : Reader Item) _)
    split
    · rw [sum_of_le hd (Nat.le_of_lt ho) (by decide)]
      exact (((advances_chunk hd 2).untilBreak hd hm (offset + 1)).mono (Nat.le_succ _)).map Item.byteChunks
    · rename_i hi
      exact (follows_content hd ho hi).map Item.bytes
  | 3, _ =>
    show Follows _ _ (if _ then _ else _) ((if _ then _ else _ : Reader Item) _)
    split
    · rw [sum_of_le hd (Nat.le_of_lt ho) (by decide)]
      refine (((advances_chunk hd 3).untilBreak hd hm (offset + 1)).mono (Nat.le_succ _)).bind
        fun chunks next hl hn => ?_
      exact follows_texts offset chunks fun ss => .ok _ hl hn
    · rename_i hi
      refine (follows_content hd ho hi).bind fun b next hl hn => ?_
      exact follows_text offset b fun s => .ok _ hl hn
  | 4, _ => exact hn.bind fun r r' hr => (hr.elements hd hm ho info).map (Item.array · (info = 31))
  | 5, _ => exact hn.bind fun r r' hr => (hr.entry.elements hd hm ho info).map (Item.ofEntries · (info = 31))
  | 6, _ =>
    refine (follows_argument hd ho fun hi => h hi (.inr (.inr rfl))).bind fun tag next hl _ => ?_
    refine hn.bind fun r r' hr => ?_
    exact ((hr next).mono (Nat.le_succ_of_le hl)).map (Item.ofTag tag)
  | 7, _ => exact follows_special hd ho info

theorem advances_itemWith {inner : Option (Nat → Run (Item × Nat))} {inner' : Option (Reader Item)}
    (hn : Nested m.data inner inner') : Advances m.data (m.itemWith inner) (Reader.itemWith inner') := fun offset => by
  unfold itemWith Reader.itemWith
  refine follows_initial fun initial ho => ?_
  have hj : initial.toNat / 32 < 8 := by have := initial.toNat_lt; omega
  have hb := follows_body hd hm hn ho hj (initial.toNat % 32)
  generalize m.body inner offset _ _ = run, Reader.body inner' offset _ _ _ = outcome at hb ⊢
  cases hb with
  | ok x hl hn =>
    -- The assertion that the offset has grown.
    show Follows _ _ (if offset < _ then _ else _) _
    rw [if_pos (Nat.lt_of_succ_le hl)]
    exact .ok x hl hn
  | error he => exact .error he

/-- **On the machine an item follows its reader**, and takes at least one byte. -/
theorem advances_item : ∀ depth, Advances m.data (m.item depth) (Reader.item depth)
  | 0 => advances_itemWith hd hm .none
  | depth + 1 => advances_itemWith hd hm (.some (advances_item depth))

end

end

/-! ## Runs that return -/

/-- A run returns: it ends with the result or the error of the data that a function gives, and without a panic. -/
structure Returns (run : Run α) (outcome : Except DecodeError α) : Prop where
  same : run = outcome.mapError .error
  noPanic : ∀ p, run ≠ panic p
  notStalled : ∀ o, outcome ≠ .error (.stalled o)

/-- A run from an offset returns, and the offset after its result lies past it, within the data. -/
structure ReturnsPast (data : Bytes) (offset : Nat) (run : Run (α × Nat)) (outcome : Except DecodeError (α × Nat)) :
    Prop extends Returns run outcome where
  past : ∀ x next, run = .ok (x, next) → offset < next ∧ next ≤ data.length

theorem returns_ok (x : α) : Returns (.ok x) (.ok x) := ⟨rfl, nofun, nofun⟩

theorem returns_error {e : DecodeError} (he : Proper e) : Returns (.error (.error e) : Run α) (.error e) where
  same := rfl
  noPanic := nofun
  notStalled o h := by
    rw [Except.error.inj h] at he
    exact he

theorem Returns.bind {run : Run α} {outcome : Except DecodeError α} {f : α → Run β} {g : α → Except DecodeError β}
    (h : Returns run outcome) (hf : ∀ x, run = .ok x → Returns (f x) (g x)) :
    Returns (run >>= f) (outcome >>= g) := by
  obtain ⟨rfl, -, hs⟩ := h
  cases outcome with
  | ok x => exact hf x rfl
  | error e =>
    refine returns_error ?_
    cases e with
    | stalled o => exact hs o rfl
    | _ => trivial

theorem Follows.returnsPast {offset : Nat} {run : Run (α × Nat)} {outcome : Except DecodeError (α × Cursor)}
    (h : Follows data (offset + 1) run outcome) :
    ReturnsPast data offset run (outcome >>= fun p => .ok (p.1, p.2.offset)) := by
  cases h with
  | @ok x next hl hn =>
    refine ⟨returns_ok (x, next), fun y n he => ?_⟩
    obtain ⟨-, rfl⟩ := Prod.mk.inj (Except.ok.inj he)
    exact ⟨hl, hn⟩
  | error he => exact ⟨returns_error he, nofun⟩

end Machine

end Cbor
