import Cbor.Decode.Reader
import Cbor.Proofs.Grammar

/-!
# Readers and the languages they recognize

`r.Recognizes L`: the reader `r` succeeds exactly on the words of `L`, takes the word and leaves the rest. The
offset at which the word stands makes no difference.

Each way of putting readers together has a law that gives the language of the whole (`bind`, `map`, `times`,
`untilBreak`), and each basic reader has a language (`recognizes_byte`, `recognizes_take`, `recognizes_argument`,
`recognizes_content`, `recognizes_text`). What a reader gives at an offset of the data (`readAt`) is told by the word
that stands there (`Recognizes.readAt_eq_ok_iff`).
-/

namespace Cbor

/-- The bytes `b` lead from one cursor to another. -/
structure Cursor.Past (c : Cursor) (b : Bytes) (c' : Cursor) : Prop where
  rest : c.rest = b ++ c'.rest
  offset : c'.offset = c.offset + b.length

namespace Cursor.Past

variable {c c' c'' : Cursor} {b b' : Bytes}

theorem nil_iff : c.Past [] c' ↔ c' = c := by
  constructor
  · rintro ⟨hr, ho⟩
    cases c
    cases c'
    simp_all
  · rintro rfl
    exact ⟨rfl, rfl⟩

/-- The cursor after a word. -/
theorem eq (h : c.Past b c') : (⟨c.offset + b.length, c'.rest⟩ : Cursor) = c' := by
  obtain ⟨o, rest⟩ := c'
  rw [← h.offset]

theorem trans (h : c.Past b c') (h' : c'.Past b' c'') : c.Past (b ++ b') c'' :=
  ⟨by rw [h.rest, h'.rest, List.append_assoc], by rw [h'.offset, h.offset, List.length_append, Nat.add_assoc]⟩

/-- A way past two words stops between them. -/
theorem split (h : c.Past (b ++ b') c') : ∃ m, c.Past b m ∧ m.Past b' c' :=
  ⟨⟨c.offset + b.length, b' ++ c'.rest⟩, ⟨by rw [h.rest, List.append_assoc], rfl⟩,
    ⟨rfl, by rw [h.offset, List.length_append, Nat.add_assoc]⟩⟩

end Cursor.Past

namespace Reader

variable {α β : Type}

/-- The reader succeeds exactly on the words of the language. -/
def Recognizes (r : Reader α) (L : Bytes → α → Prop) : Prop :=
  ∀ c x c', r c = .ok (x, c') ↔ ∃ b, c.Past b c' ∧ L b x

/-! ## Runs -/

theorem pure_eq_ok {x y : α} {c c' : Cursor} : (pure x : Reader α) c = .ok (y, c') ↔ y = x ∧ c' = c := by
  show (Except.ok (x, c) : Except DecodeError (α × Cursor)) = .ok (y, c') ↔ _
  constructor
  · rintro ⟨⟩
    exact ⟨rfl, rfl⟩
  · rintro ⟨rfl, rfl⟩
    rfl

theorem bind_eq_ok {r : Reader α} {f : α → Reader β} {c c' : Cursor} {y : β} :
    (r >>= f) c = .ok (y, c') ↔ ∃ x m, r c = .ok (x, m) ∧ f x m = .ok (y, c') := by
  show (r c >>= fun p => f p.1 p.2) = .ok (y, c') ↔ _
  cases r c with
  | error e =>
    constructor
    · rintro ⟨⟩
    · intro hw
      obtain ⟨x, m, ⟨⟩, -⟩ := hw
  | ok p =>
    constructor
    · intro h
      exact ⟨p.1, p.2, rfl, h⟩
    · intro hw
      obtain ⟨x, m, h, hf⟩ := hw
      cases h
      exact hf

theorem bind_apply (r : Reader α) (f : α → Reader β) (c : Cursor) :
    (r >>= f) c = r c >>= fun q => f q.1 q.2 := rfl

theorem bind_of_ok {r : Reader α} (f : α → Reader β) {c c' : Cursor} {x : α} (h : r c = .ok (x, c')) :
    (r >>= f) c = f x c' := by
  rw [bind_apply, h]
  rfl

theorem bind_of_error {r : Reader α} (f : α → Reader β) {c : Cursor} {e : DecodeError} (h : r c = .error e) :
    (r >>= f) c = .error e := by
  rw [bind_apply, h]
  rfl

/-! ## Laws -/

theorem Recognizes.congr {r : Reader α} {L L' : Bytes → α → Prop} (h : r.Recognizes L) (hl : ∀ b x, L b x ↔ L' b x) :
    r.Recognizes L' := fun c x c' => by simp only [h c x c', hl]

theorem recognizes_pure (x : α) : (pure x : Reader α).Recognizes fun b y => b = [] ∧ y = x := fun c y c' => by
  rw [pure_eq_ok]
  constructor
  · rintro ⟨rfl, rfl⟩
    exact ⟨[], Cursor.Past.nil_iff.mpr rfl, rfl, rfl⟩
  · intro hw
    obtain ⟨b, hp, rfl, rfl⟩ := hw
    exact ⟨rfl, Cursor.Past.nil_iff.mp hp⟩

theorem recognizes_throw (e : DecodeError) : (throw e : Reader α).Recognizes fun _ _ => False := fun c y c' => by
  constructor
  · rintro ⟨⟩
  · rintro ⟨_, _, ⟨⟩⟩

theorem recognizes_throw_bind (e : DecodeError) (f : α → Reader β) :
    ((throw e : Reader α) >>= f).Recognizes fun _ _ => False := fun c y c' => by
  constructor
  · rintro ⟨⟩
  · rintro ⟨_, _, ⟨⟩⟩

theorem Recognizes.bind {r : Reader α} {f : α → Reader β} {L : Bytes → α → Prop} {M : α → Bytes → β → Prop}
    (hr : r.Recognizes L) (hf : ∀ x, (f x).Recognizes (M x)) :
    (r >>= f).Recognizes fun b y => ∃ b₁ b₂ x, b = b₁ ++ b₂ ∧ L b₁ x ∧ M x b₂ y := fun c y c' => by
  rw [bind_eq_ok]
  constructor
  · intro hw
    obtain ⟨x, m, h, h'⟩ := hw
    obtain ⟨b₁, hp, hl⟩ := (hr c x m).mp h
    obtain ⟨b₂, hp', hm⟩ := (hf x m y c').mp h'
    exact ⟨b₁ ++ b₂, hp.trans hp', b₁, b₂, x, rfl, hl, hm⟩
  · intro hw
    obtain ⟨_, hp, b₁, b₂, x, rfl, hl, hm⟩ := hw
    obtain ⟨m, hp₁, hp₂⟩ := hp.split
    exact ⟨x, m, (hr c x m).mpr ⟨b₁, hp₁, hl⟩, (hf x m y c').mpr ⟨b₂, hp₂, hm⟩⟩

theorem Recognizes.map {r : Reader α} {L : Bytes → α → Prop} (f : α → β) (hr : r.Recognizes L) :
    (r >>= fun x => pure (f x)).Recognizes fun b y => ∃ x, L b x ∧ y = f x :=
  (hr.bind fun x => recognizes_pure (f x)).congr fun b y => by
    constructor
    · intro hw
      obtain ⟨b₁, _, x, rfl, hl, rfl, rfl⟩ := hw
      rw [List.append_nil]
      exact ⟨x, hl, rfl⟩
    · rintro ⟨x, hl, rfl⟩
      exact ⟨b, [], x, (List.append_nil b).symm, hl, rfl, rfl⟩

/-- The offset of a word makes no difference to what is read. -/
theorem recognizes_offset {f : Nat → Reader α} {L : Bytes → α → Prop} (hf : ∀ o, (f o).Recognizes L) :
    (offset >>= f).Recognizes L := fun c x c' => hf c.offset c x c'

/-! ## Bytes -/

theorem recognizes_byte : byte.Recognizes fun b x => b = [x] := fun ⟨o, rest⟩ x c' => by
  cases rest with
  | nil =>
    constructor
    · rintro ⟨⟩
    · intro hw
      obtain ⟨_, ⟨hr, -⟩, rfl⟩ := hw
      cases hr
  | cons i t =>
    constructor
    · intro h
      cases h
      exact ⟨[_], ⟨rfl, rfl⟩, rfl⟩
    · rintro ⟨_, hp, rfl⟩
      obtain ⟨rfl, rfl⟩ := List.cons.inj hp.rest
      rw [← hp.eq]
      rfl

theorem recognizes_take (n : Nat) : (take n).Recognizes fun b x => b = x ∧ x.length = n := fun c x c' => by
  simp only [take]
  split
  · rename_i h
    constructor
    · intro he
      cases he
      exact ⟨c.rest.take n, ⟨(List.take_append_drop n c.rest).symm, by rw [h]⟩, rfl, h⟩
    · intro hw
      obtain ⟨_, hp, rfl, rfl⟩ := hw
      rw [← hp.eq, hp.rest, List.take_left, List.drop_left]
  · rename_i h
    constructor
    · rintro ⟨⟩
    · intro hw
      obtain ⟨_, hp, rfl, rfl⟩ := hw
      rw [hp.rest, List.take_left] at h
      exact absurd rfl h

/-! ## Arguments and strings -/

theorem recognizes_argument (start : Nat) {info : Nat} (hi : info < 32) :
    (argument start info).Recognizes fun b v => Head.Argument (.ofNat info) v b := by
  unfold argument
  split
  · rename_i h
    exact (recognizes_pure _).congr fun b v => (Head.argument_inline_iff h).symm
  split
  · rename_i h h'
    obtain ⟨k, rfl⟩ : ∃ k, info = 24 + k := ⟨info - 24, by omega⟩
    rw [Nat.add_sub_cancel_left, Nat.one_shiftLeft]
    refine ((recognizes_take (2 ^ k)).map _).congr fun b v => ?_
    rw [Head.argument_following_iff (by omega)]
    constructor
    · intro hw
      obtain ⟨_, ⟨rfl, hl⟩, hv⟩ := hw
      exact ⟨hl, hv⟩
    · rintro ⟨hl, hv⟩
      exact ⟨b, ⟨rfl, hl⟩, hv⟩
  · rename_i h
    refine (recognizes_throw _).congr fun b v => ⟨False.elim, fun ha => ?_⟩
    have := ha.info_lt
    rw [Bytes.toNat_byte (by omega)] at this
    omega

theorem recognizes_content (start : Nat) {info : Nat} (hi : info < 32) :
    (content start info).Recognizes fun b s => ∃ length arg, b = arg ++ s ∧ Head.Argument (.ofNat info) length arg ∧
      s.length = length.toNat := by
  refine ((recognizes_argument start hi).bind fun length => recognizes_take length.toNat).congr fun b s => ?_
  constructor
  · intro hw
    obtain ⟨arg, _, length, rfl, ha, rfl, hl⟩ := hw
    exact ⟨length, arg, rfl, ha, hl⟩
  · intro hw
    obtain ⟨length, arg, rfl, ha, hl⟩ := hw
    exact ⟨arg, s, length, rfl, ha, rfl, hl⟩

theorem recognizes_text (start : Nat) (b : Bytes) :
    (text start b).Recognizes fun b' s => b' = [] ∧ Bytes.ofString s = b := by
  unfold text
  split
  · rename_i s hs
    refine (recognizes_pure s).congr fun b' s' => and_congr_right fun _ => ?_
    rw [← Bytes.toString?_eq_some_iff, hs, Option.some_inj, eq_comm]
  · rename_i hs
    refine (recognizes_throw _).congr fun b' s' => ⟨False.elim, fun h => ?_⟩
    rw [← Bytes.toString?_eq_some_iff, hs] at h
    cases h.2

/-! ## Repetition -/

theorem Recognizes.times {r : Reader α} {L : Bytes → α → Prop} (hr : r.Recognizes L) :
    ∀ n, (times r n).Recognizes fun b xs => Series L b xs ∧ xs.length = n
  | 0 => (recognizes_pure []).congr fun b xs => by
    constructor
    · rintro ⟨rfl, rfl⟩
      exact ⟨.nil, rfl⟩
    · rintro ⟨h, hl⟩
      cases h with
      | nil => exact ⟨rfl, rfl⟩
      | cons _ _ => cases hl
  | n + 1 => (hr.bind fun x => (hr.times n).map (x :: ·)).congr fun b ys => by
    constructor
    · intro hw
      obtain ⟨b₁, b₂, x, rfl, hx, xs, ⟨hs, hl⟩, rfl⟩ := hw
      exact ⟨.cons hx hs, congrArg Nat.succ hl⟩
    · rintro ⟨h, hl⟩
      cases h with
      | nil => cases hl
      | cons hx hs => exact ⟨_, _, _, rfl, hx, _, ⟨hs, Nat.succ.inj hl⟩, rfl⟩

/-- An element and what follows it up to the break. -/
theorem untilBreakWithin_cons {r : Reader α} {limit o : Nat} {i : UInt8} {t : Bytes} (hi : i ≠ Head.breakByte) :
    untilBreakWithin r (limit + 1) ⟨o, i :: t⟩ =
      (r >>= fun x => untilBreakWithin r limit >>= fun xs => pure (x :: xs)) ⟨o, i :: t⟩ := if_neg hi

theorem untilEndWithin_cons (r : Reader α) (limit o : Nat) (i : UInt8) (t : Bytes) :
    untilEndWithin r (limit + 1) ⟨o, i :: t⟩ =
      (r >>= fun x => untilEndWithin r limit >>= fun xs => pure (x :: xs)) ⟨o, i :: t⟩ := rfl

theorem untilBreakWithin_sound {r : Reader α} {L : Bytes → α → Prop} (hr : r.Recognizes L) :
    ∀ {limit : Nat} {c c' : Cursor} {xs : List α}, untilBreakWithin r limit c = .ok (xs, c') →
      ∃ b, c.Past (b ++ [Head.breakByte]) c' ∧ Series L b xs
  | 0, _, _, _, h => by cases h
  | _ + 1, ⟨_, []⟩, _, _, h => by cases h
  | limit + 1, ⟨o, i :: t⟩, c', xs, h => by
    by_cases hi : i = Head.breakByte
    · have he : untilBreakWithin r (limit + 1) ⟨o, i :: t⟩ = .ok ([], ⟨o + 1, t⟩) := if_pos hi
      rw [he] at h
      cases h
      exact ⟨[], ⟨by rw [hi]; rfl, rfl⟩, .nil⟩
    · rw [untilBreakWithin_cons hi, bind_eq_ok] at h
      obtain ⟨x, m, hx, h⟩ := h
      rw [bind_eq_ok] at h
      obtain ⟨ys, m', hys, h⟩ := h
      obtain ⟨rfl, rfl⟩ := pure_eq_ok.mp h
      obtain ⟨b₁, hp₁, hl⟩ := (hr _ x m).mp hx
      obtain ⟨b₂, hp₂, hs⟩ := untilBreakWithin_sound hr hys
      exact ⟨b₁ ++ b₂, by rw [List.append_assoc]; exact hp₁.trans hp₂, .cons hl hs⟩

theorem untilBreakWithin_complete {r : Reader α} {L : Bytes → α → Prop} (hr : r.Recognizes L)
    (hL : ∀ {b x}, L b x → Opens b) {b : Bytes} {xs : List α} (h : Series L b xs) :
    ∀ {limit : Nat} {c c' : Cursor}, b.length < limit → c.Past (b ++ [Head.breakByte]) c' →
      untilBreakWithin r limit c = .ok (xs, c') := by
  -- Every word opens with a byte of its own, which pays for the look that its element takes from the limit.
  induction h with
  | nil =>
    rintro (_ | limit) ⟨o, rest⟩ c' hl hp
    · cases hl
    · have hr : rest = Head.breakByte :: c'.rest := hp.rest
      rw [← hp.eq, hr]
      rfl
  | @cons b₁ b₂ x xs hx _ ih =>
    rintro (_ | limit) ⟨o, rest⟩ c' hl hp
    · cases hl
    · obtain ⟨i, t, rfl, hi⟩ := hL hx
      rw [List.append_assoc] at hp
      obtain ⟨m, hp₁, hp₂⟩ := hp.split
      have hrest : rest = i :: (t ++ m.rest) := hp₁.rest
      subst hrest
      rw [untilBreakWithin_cons hi]
      simp only [List.length_append, List.length_cons] at hl
      exact bind_eq_ok.mpr ⟨x, m, (hr _ x m).mpr ⟨_, hp₁, hx⟩,
        bind_eq_ok.mpr ⟨xs, c', ih (by omega) hp₂, pure_eq_ok.mpr ⟨rfl, rfl⟩⟩⟩

/-- The limit on the number of looks at the next byte is never met: each element takes at least one byte. -/
theorem Recognizes.untilBreak {r : Reader α} {L : Bytes → α → Prop} (hr : r.Recognizes L)
    (hL : ∀ {b x}, L b x → Opens b) :
    (untilBreak r).Recognizes fun b xs => ∃ b₁, b = b₁ ++ [Head.breakByte] ∧ Series L b₁ xs := fun c xs c' => by
  constructor
  · intro h
    obtain ⟨b, hp, hs⟩ := untilBreakWithin_sound hr h
    exact ⟨_, hp, b, rfl, hs⟩
  · intro hw
    obtain ⟨_, hp, b, rfl, hs⟩ := hw
    refine untilBreakWithin_complete hr hL hs ?_ hp
    rw [hp.rest]
    simp only [List.length_append]
    omega

/-! ## At an offset -/

/-- What a reader gives at an offset of the data, and the offset after it. -/
def readAt (r : Reader α) (data : Bytes) (offset : Nat) : Except DecodeError (α × Nat) :=
  r (.at data offset) >>= fun q => .ok (q.1, q.2.offset)

theorem readAt_eq_error_iff {r : Reader α} {data : Bytes} {offset : Nat} {e : DecodeError} :
    r.readAt data offset = .error e ↔ r (.at data offset) = .error e := by
  rw [readAt]
  constructor
  · intro h
    cases hr : r (.at data offset) with
    | error e' =>
      rw [hr] at h
      cases h
      rfl
    | ok q =>
      rw [hr] at h
      cases h
  · intro h
    rw [h]
    rfl

/-- A run in terms of the word that it takes. -/
theorem Recognizes.readAt_eq_ok_iff {r : Reader α} {L : Bytes → α → Prop} (hr : r.Recognizes L) {data : Bytes}
    {offset n : Nat} {x : α} : r.readAt data offset = .ok (x, n) ↔
      ∃ b rest, data.drop offset = b ++ rest ∧ n = offset + b.length ∧ L b x := by
  constructor
  · intro h
    cases hi : r (.at data offset) with
    | error e =>
      rw [readAt, hi] at h
      cases h
    | ok q =>
      obtain ⟨y, c'⟩ := q
      rw [readAt, hi] at h
      cases h
      obtain ⟨b, hp, hb⟩ := (hr _ _ c').mp hi
      exact ⟨b, c'.rest, hp.rest, hp.offset, hb⟩
  · intro hw
    obtain ⟨b, rest, hd, rfl, hb⟩ := hw
    rw [readAt, (hr _ x ⟨offset + b.length, rest⟩).mpr ⟨b, ⟨hd, rfl⟩, hb⟩]
    rfl

/-- A run leaves the rest of the data. -/
theorem Recognizes.at_of_readAt {r : Reader α} {L : Bytes → α → Prop} (hr : r.Recognizes L) {data : Bytes}
    {offset n : Nat} {x : α} (h : r.readAt data offset = .ok (x, n)) : r (.at data offset) = .ok (x, .at data n) := by
  obtain ⟨b, rest, hd, rfl, hb⟩ := hr.readAt_eq_ok_iff.mp h
  refine (hr _ _ _).mpr ⟨b, ⟨?_, rfl⟩, hb⟩
  rw [Cursor.at, Cursor.at, ← List.drop_drop, hd, List.drop_left]

end Reader

end Cbor
