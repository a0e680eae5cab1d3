import Cbor.Proofs.RoundTrip
import Cbor.Proofs.Surroundings

/-!
# Sequences of items

A sequence is its first item and the sequence behind it (`decodeSequence_of_ok`, `decodeSequence_eq_cons_iff`).

- Sequences one after the other are one sequence, and a fault in the second is found where it stands
  (`decodeSequence_append`).
- The encodings of items one after the other are decoded to the items (`decodeSequence_encodeItems`).
- Data encodes one item exactly if it is a sequence of that item alone (`decode_eq_ok_iff_decodeSequence`).
-/

namespace Cbor

theorem DecodeError.shift_shift (e : DecodeError) (p q : Nat) : (e.shift p).shift q = e.shift (p + q) := by
  cases e <;> simp only [shift, Nat.add_assoc]

/-! ## Up to the end -/

namespace Reader

variable {α : Type} {r : Reader α} {L : Bytes → α → Prop}

theorem Recognizes.length_lt (hr : r.Recognizes L) (hL : ∀ {b x}, L b x → Opens b) {c c' : Cursor} {x : α}
    (h : r c = .ok (x, c')) : c'.rest.length < c.rest.length := by
  obtain ⟨b, hp, hb⟩ := (hr c x c').mp h
  have hpos := (hL hb).length_pos
  rw [hp.rest, List.length_append]
  omega

/-- The limit on the number of looks at the next byte makes no difference: each element takes at least one byte. -/
theorem Recognizes.untilEndWithin_eq (hr : r.Recognizes L) (hL : ∀ {b x}, L b x → Opens b) {limit : Nat} {c : Cursor}
    (hl : c.rest.length < limit) : untilEndWithin r limit c = untilEnd r c := by
  have hw : ∀ (limit limit' : Nat) (c : Cursor), c.rest.length < limit → c.rest.length < limit' →
      untilEndWithin r limit c = untilEndWithin r limit' c := by
    intro limit
    induction limit with
    | zero =>
      intro _ c h
      exact absurd h (Nat.not_lt_zero _)
    | succ limit ih =>
      intro limit' c h h'
      obtain ⟨limit', rfl⟩ : ∃ l, limit' = l + 1 := ⟨limit' - 1, by omega⟩
      obtain ⟨o, rest⟩ := c
      cases rest with
      | nil => rfl
      | cons i t =>
        rw [untilEndWithin_cons, untilEndWithin_cons]
        cases hx : r ⟨o, i :: t⟩ with
        | error e => rw [bind_of_error _ hx, bind_of_error _ hx]
        | ok q =>
          have hlt := hr.length_lt hL hx
          simp only [List.length_cons] at h h' hlt
          rw [bind_of_ok _ hx, bind_of_ok _ hx, bind_apply, bind_apply,
            ih limit' q.2 (by omega) (by omega)]
  exact hw _ _ c hl (Nat.lt_succ_self _)

/-- An element, and then the others. -/
theorem Recognizes.untilEnd_of_ok (hr : r.Recognizes L) (hL : ∀ {b x}, L b x → Opens b) {c c' : Cursor} {x : α}
    (h : r c = .ok (x, c')) : untilEnd r c = (untilEnd r c').map fun q => (x :: q.1, q.2) := by
  have hlt := hr.length_lt hL h
  obtain ⟨o, rest⟩ := c
  cases rest with
  | nil => exact absurd hlt (Nat.not_lt_zero _)
  | cons i t =>
    rw [untilEnd, untilEndWithin_cons, bind_of_ok _ h, bind_apply, hr.untilEndWithin_eq hL hlt]
    cases untilEnd r c' <;> rfl

theorem untilEnd_of_error {c : Cursor} {e : DecodeError} (hc : c.rest ≠ []) (h : r c = .error e) :
    untilEnd r c = .error e := by
  obtain ⟨o, rest⟩ := c
  cases rest with
  | nil => exact absurd rfl hc
  | cons i t => rw [untilEnd, untilEndWithin_cons, bind_of_error _ h]

end Reader

/-! ## The first item -/

theorem decodeSequence_eq (data : Bytes) : decodeSequence data =
    (Reader.untilEnd (Reader.item maxDepth) (.at data 0)).map Prod.fst := by
  show (Reader.untilEnd (Reader.item maxDepth) (.at data 0) >>= fun q => .ok q.1) = _
  cases Reader.untilEnd (Reader.item maxDepth) (.at data 0) <;> rfl

theorem decodeSequence_nil : decodeSequence [] = .ok [] := rfl

/-- The sequence behind the first item, read where it stands. -/
theorem untilEnd_at (data : Bytes) (n : Nat) :
    (Reader.untilEnd (Reader.item maxDepth) (.at data n)).map Prod.fst =
      (decodeSequence (data.drop n)).mapError (DecodeError.shift n) := by
  have hc : Cursor.at data n = (Cursor.at (data.drop n) 0).within n [] := by
    rw [Cursor.at, Cursor.at, Cursor.within, List.drop_zero, List.append_nil, Nat.zero_add]
  have hi : Reader.Agrees n [] (fun _ => False) (Reader.item maxDepth) (Reader.item maxDepth) :=
    Reader.agrees_item (.inl rfl) (Nat.le_refl _) (.inl rfl)
  have h := hi.untilEnd (.at (data.drop n) 0)
  rw [decodeSequence_eq, hc]
  generalize Reader.untilEnd (Reader.item maxDepth) (.at (data.drop n) 0) = o,
    Reader.untilEnd (Reader.item maxDepth) ((Cursor.at (data.drop n) 0).within n []) = o' at h
  cases h with
  | ok xs c => rfl
  | error e => rfl
  | excused _ he => exact he.elim

/-- **A sequence is its first item and the sequence behind it.** -/
theorem decodeSequence_of_ok {data : Bytes} {x : Item} {n : Nat} (h : decodeWithOffset data 0 = .ok (x, n)) :
    decodeSequence data = ((decodeSequence (data.drop n)).map (x :: ·)).mapError (DecodeError.shift n) := by
  have hr := Reader.recognizes_item maxDepth
  rw [decodeSequence_eq, hr.untilEnd_of_ok (·.opens) (hr.at_of_readAt h)]
  calc ((Reader.untilEnd (Reader.item maxDepth) (.at data n)).map fun t => (x :: t.1, t.2)).map Prod.fst
      = ((Reader.untilEnd (Reader.item maxDepth) (.at data n)).map Prod.fst).map (x :: ·) := by
        cases Reader.untilEnd (Reader.item maxDepth) (.at data n) <;> rfl
    _ = ((decodeSequence (data.drop n)).mapError (DecodeError.shift n)).map (x :: ·) := by rw [untilEnd_at]
    _ = ((decodeSequence (data.drop n)).map (x :: ·)).mapError (DecodeError.shift n) := by
        cases decodeSequence (data.drop n) <;> rfl

theorem decodeSequence_of_error {data : Bytes} {e : DecodeError} (hd : data ≠ [])
    (h : decodeWithOffset data 0 = .error e) : decodeSequence data = .error e := by
  rw [decodeSequence_eq, Reader.untilEnd_of_error hd (Reader.readAt_eq_error_iff.mp h)]
  rfl

/-- What there is starts with an item, and the sequence behind it has the others. -/
theorem exists_of_decodeSequence {data : Bytes} {xs : List Item} (hd : data ≠ []) (h : decodeSequence data = .ok xs) :
    ∃ x n ys, xs = x :: ys ∧ decodeWithOffset data 0 = .ok (x, n) ∧ decodeSequence (data.drop n) = .ok ys := by
  cases hf : decodeWithOffset data 0 with
  | error e =>
    rw [decodeSequence_of_error hd hf] at h
    cases h
  | ok q =>
    obtain ⟨x, n⟩ := q
    rw [decodeSequence_of_ok hf] at h
    cases hs : decodeSequence (data.drop n) with
    | error e =>
      rw [hs] at h
      cases h
    | ok ys =>
      rw [hs] at h
      cases h
      exact ⟨x, n, ys, rfl, rfl, hs⟩

theorem decodeSequence_eq_nil_iff {data : Bytes} : decodeSequence data = .ok [] ↔ data = [] := by
  constructor
  · intro h
    by_contra hd
    obtain ⟨_, _, _, hx, -⟩ := exists_of_decodeSequence hd h
    cases hx
  · rintro rfl
    rfl

theorem decodeSequence_eq_cons_iff {data : Bytes} {x : Item} {xs : List Item} : decodeSequence data = .ok (x :: xs) ↔
    ∃ n, decodeWithOffset data 0 = .ok (x, n) ∧ decodeSequence (data.drop n) = .ok xs := by
  constructor
  · intro h
    have hd : data ≠ [] := by
      rintro rfl
      rw [decodeSequence_nil] at h
      cases h
    obtain ⟨_, n, _, hx, hf, hs⟩ := exists_of_decodeSequence hd h
    cases hx
    exact ⟨n, hf, hs⟩
  · rintro ⟨n, hf, hs⟩
    rw [decodeSequence_of_ok hf, hs]
    rfl

/-! ## Sequences one after the other -/

/-- What follows a sequence is read as the sequence that it is, and its faults are found where it stands. -/
theorem decodeSequence_append {a : Bytes} {xs : List Item} (h : decodeSequence a = .ok xs) (b : Bytes) :
    decodeSequence (a ++ b) = ((decodeSequence b).map (xs ++ ·)).mapError (DecodeError.shift a.length) := by
  induction xs generalizing a with
  | nil =>
    obtain rfl := decodeSequence_eq_nil_iff.mp h
    rw [List.nil_append]
    cases decodeSequence b with
    | ok ys => rfl
    | error e => exact congrArg Except.error e.shift_zero.symm
  | cons x xs ih =>
    obtain ⟨n, hf, hs⟩ := decodeSequence_eq_cons_iff.mp h
    have hn := (decodeWithDepth_past hf).2
    have hab : decodeWithOffset (a ++ b) 0 = .ok (x, n) := decodeWithDepth_append hf b
    rw [decodeSequence_of_ok hab, List.drop_append_of_le_length hn, ih hs]
    cases decodeSequence b with
    | ok ys => rfl
    | error e =>
      refine congrArg Except.error ?_
      rw [DecodeError.shift_shift, List.length_drop, Nat.sub_add_cancel hn]

/-! ## Encodings one after the other -/

namespace Encoder

theorem foldl_item (items : List Item) (e : Encoder) :
    (items.foldl Encoder.item e).data = e.data ++ Item.encodeItems items := by
  induction items generalizing e with
  | nil => rw [List.foldl_nil, Item.encodeItems, List.append_nil]
  | cons x xs ih => rw [List.foldl_cons, ih, Item.encodeItems, ← List.append_assoc, item, raw]

end Encoder

theorem decodeSequence_encodeItems {items : List Item} (hi : ∀ x ∈ items, x.WellFormed ∧ x.nesting ≤ maxDepth)
    (hl : (Item.encodeItems items).length < 2 ^ 64) : decodeSequence (Item.encodeItems items) = .ok items := by
  induction items with
  | nil => rfl
  | cons x xs ih =>
    rw [Item.encodeItems] at hl ⊢
    obtain ⟨⟨hx, hn⟩, hxs⟩ := List.forall_mem_cons.mp hi
    refine decodeSequence_eq_cons_iff.mpr ⟨x.encode.length, decodeWithDepth_encode hx hl hn, ?_⟩
    rw [List.length_append] at hl
    rw [List.drop_left]
    exact ih hxs (by omega)

/-! ## One item -/

theorem decode_eq_ok_iff_decodeSequence {data : Bytes} {x : Item} :
    decode data = .ok x ↔ decodeSequence data = .ok [x] := by
  rw [decode_eq_ok_iff, decodeSequence_eq_cons_iff]
  constructor
  · intro h
    exact ⟨data.length, h, decodeSequence_eq_nil_iff.mpr List.drop_length⟩
  · rintro ⟨n, h, hs⟩
    have hd := List.drop_eq_nil_iff.mp (decodeSequence_eq_nil_iff.mp hs)
    rwa [Nat.le_antisymm hd (decodeWithDepth_past h).2]

/-- Of several items, those after the first are in the way. -/
theorem decode_of_decodeSequence {data : Bytes} {x : Item} {xs : List Item} (h : decodeSequence data = .ok (x :: xs))
    (hxs : xs ≠ []) :
    ∃ n, decodeWithOffset data 0 = .ok (x, n) ∧ decode data = .error (.trailing (data.length - n)) := by
  obtain ⟨n, hf, hs⟩ := decodeSequence_eq_cons_iff.mp h
  refine ⟨n, hf, decode_of_lt hf (Nat.lt_of_not_le fun hn => hxs ?_)⟩
  rw [List.drop_eq_nil_of_le hn, decodeSequence_nil] at hs
  exact (Except.ok.inj hs).symm

/-- **A sequence is nothing but its items one after the other.**

- What follows a sequence `a` is read as the sequence `b` that it is: its items follow those of `a`, or its fault is the
  fault of the whole, with all offsets greater by the length of `a`.
- What is written item by item into one buffer is read as those items.
- Data is one item exactly if it is a sequence of that item alone; if it is a sequence of more, all bytes after the
  first item are too many. -/
theorem decodeSequence_concat :
    (∀ a b xs, decodeSequence a = .ok xs →
      decodeSequence (a ++ b) = ((decodeSequence b).map (xs ++ ·)).mapError (DecodeError.shift a.length)) ∧
    (∀ items : List Item, (∀ x ∈ items, x.WellFormed ∧ x.nesting ≤ maxDepth) →
      (items.foldl Encoder.item .empty).data.length < 2 ^ 63 →
      decodeSequence (items.foldl Encoder.item .empty).data = .ok items) ∧
    (∀ data x, decode data = .ok x ↔ decodeSequence data = .ok [x]) ∧
    ∀ data x rest, decodeSequence data = .ok (x :: rest) → rest ≠ [] →
      ∃ n, decodeWithOffset data 0 = .ok (x, n) ∧ decode data = .error (.trailing (data.length - n)) := by
  refine ⟨fun a b xs h => decodeSequence_append h b, fun items hi hl => ?_,
    fun data x => decode_eq_ok_iff_decodeSequence, fun data x rest h hr => decode_of_decodeSequence h hr⟩
  have he : (items.foldl Encoder.item .empty).data = Item.encodeItems items := Encoder.foldl_item items .empty
  rw [he] at hl ⊢
  exact decodeSequence_encodeItems hi (Nat.lt_trans hl (by decide))

/-- A number and an array; and an array that lacks its second element. -/
theorem decodeSequence_concat_cutOff :
    decodeSequence [1, 0x81, 2] = .ok [.unsigned 1, .array [.unsigned 2] false] ∧
      decodeSequence ([1, 0x81, 2] ++ [0x82, 3]) = .error (.outOfData 5) ∧
      decode [1, 0x81, 2] = .error (.trailing 2) ∧
      decodeSequence ([Item.nestedMap, .null, Item.nestedMap].foldl Encoder.item .empty).data =
        .ok [Item.nestedMap, .null, Item.nestedMap] := by
  obtain ⟨ha, hi, -, ht⟩ := decodeSequence_concat
  have h : decodeSequence [1, 0x81, 2] = .ok [.unsigned 1, .array [.unsigned 2] false] := rfl
  have hw : Item.nestedMap.WellFormed :=
    ⟨by decide, trivial, ⟨rfl, rfl, trivial, trivial⟩, trivial, trivial, trivial⟩
  have hn : Item.nestedMap.nesting ≤ maxDepth := by decide
  refine ⟨h, (ha _ [0x82, 3] _ h).trans rfl, ?_, hi _ ?_ (by decide)⟩
  · obtain ⟨n, hf, hd⟩ := ht _ _ _ h (by decide)
    have hf' : decodeWithOffset [1, 0x81, 2] 0 = .ok (.unsigned 1, 1) := rfl
    rw [hf'] at hf
    cases hf
    exact hd
  · intro x hx
    simp only [List.mem_cons, List.not_mem_nil, or_false] at hx
    obtain rfl | rfl | rfl := hx
    · exact ⟨hw, hn⟩
    · exact ⟨trivial, Nat.zero_le _⟩
    · exact ⟨hw, hn⟩

end Cbor
