import Cbor.Proofs.Decoding

/-!
# What readers keep

`Keeps P E r`: from a place with `P` the reader `r` comes to a place with `P`, or ends with a fault in `E`.

- `FaultAt c e`: the bytes at the place `c` are at fault, and `e` says how.
- If going on keeps `P`, and what is at fault at places with `P` is in `E` (`Onward P E`), then a reader of items keeps
  to `P` and `E` (`keeps_body`, `keeps_item`); that the nesting is too deep is no fault of any bytes.
- Data that is too short is missed no further on than at its end (`decodeWithDepth_outOfData_le`).
- Each level of nesting takes a byte, so a limit no less than the number of bytes is never met
  (`decodeWithDepth_ne_tooDeep`).
-/

namespace Cbor

open Head (initialByte indefiniteInfo breakByte)

/-! ## Faults -/

/-- An initial byte whose additional info has no meaning under its major type. -/
def Head.ReservedInfo (initial : UInt8) : Prop :=
  28 ≤ initial.toNat % 32 ∧ initial.toNat % 32 ≤ 30 ∨
    initial.toNat % 32 = 31 ∧ (initial.toNat / 32 = 0 ∨ initial.toNat / 32 = 1 ∨ initial.toNat / 32 = 6)

/-- An initial byte that begins no piece of a string of indefinite length under a major type. -/
def Head.NoChunk (major initial : UInt8) : Prop := initial.toNat / 32 ≠ major.toNat ∨ initial.toNat % 32 = 31

/-- A word has the form of a text string, and a string of bytes is its content or one of its pieces. -/
inductive HoldsPiece : Bytes → Bytes → Prop
  | definite {w piece : Bytes} : EncodesString 3 w piece → HoldsPiece w piece
  | chunk {w piece : Bytes} {chunks : List Bytes} : Series (EncodesString 3) w chunks → piece ∈ chunks →
      HoldsPiece (initialByte 3 indefiniteInfo :: (w ++ [breakByte])) piece

/-- What is at fault in the bytes at a place. -/
inductive FaultAt (c : Cursor) : DecodeError → Prop
  | outOfData : FaultAt c (.outOfData c.offset)
  | stalled : FaultAt c (.stalled c.offset)
  | reservedInfo {i : UInt8} {rest : Bytes} : c.rest = i :: rest → Head.ReservedInfo i →
      FaultAt c (.reservedInfo (i.toNat % 32) c.offset)
  | strayBreak {rest : Bytes} : c.rest = breakByte :: rest → FaultAt c (.strayBreak c.offset)
  | reservedSimple {v : UInt8} {rest : Bytes} : c.rest = 0xF8 :: v :: rest → v.toNat < 32 →
      FaultAt c (.reservedSimple v)
  /-- Behind some pieces of a string that begins at the place stands what is no piece of it. -/
  | invalidChunk {major i : UInt8} {b rest : Bytes} {chunks : List Bytes} : major = 2 ∨ major = 3 →
      c.rest = initialByte major indefiniteInfo :: (b ++ i :: rest) → Series (EncodesString major) b chunks →
      i ≠ breakByte → Head.NoChunk major i → FaultAt c (.invalidChunk (c.offset + 1 + b.length))
  | invalidUtf8 {w piece rest : Bytes} : c.rest = w ++ rest → HoldsPiece w piece → piece.toString? = none →
      FaultAt c (.invalidUtf8 c.offset)

theorem Series.concat {α : Type} {L : Bytes → α → Prop} {b b' : Bytes} {xs : List α} {x : α} (h : Series L b xs)
    (hx : L b' x) : Series L (b ++ b') (xs ++ [x]) := by
  induction h with
  | nil =>
    rw [List.nil_append, ← List.append_nil b']
    exact .cons hx .nil
  | cons hy _ ih =>
    rw [List.append_assoc]
    exact .cons hy ih

namespace Reader

variable {α β : Type} {P Q : Cursor → Prop} {E : DecodeError → Prop}

/-- The outcome is a place with `P` or a fault in `E`. -/
inductive Kept (P : Cursor → Prop) (E : DecodeError → Prop) : Except DecodeError (α × Cursor) → Prop
  | ok (x : α) {c : Cursor} : P c → Kept P E (.ok (x, c))
  | error {e : DecodeError} : E e → Kept P E (.error e)

/-- From a place with `P` the reader comes to a place with `P`, or ends with a fault in `E`. -/
def Keeps (P : Cursor → Prop) (E : DecodeError → Prop) (r : Reader α) : Prop := ∀ c, P c → Kept P E (r c)

/-- Places with `P` lead on to places with `P`, and what is at fault at one of them is a fault in `E`. -/
structure Onward (P : Cursor → Prop) (E : DecodeError → Prop) : Prop where
  past : ∀ {c c' : Cursor} {b : Bytes}, c.Past b c' → P c → P c'
  fault : ∀ {c : Cursor} {e : DecodeError}, P c → FaultAt c e → E e

/-! ## Laws -/

/-- What is known of every result is kept too. -/
theorem Kept.of_ok {o : Except DecodeError (α × Cursor)} (h : Kept P E o)
    (hQ : ∀ x c, o = .ok (x, c) → P c → Q c) : Kept Q E o := by
  cases h with
  | ok x hc => exact .ok x (hQ x _ rfl hc)
  | error he => exact .error he

theorem Kept.mono {o : Except DecodeError (α × Cursor)} (h : Kept P E o) (hPQ : ∀ c, P c → Q c) : Kept Q E o :=
  h.of_ok fun _ c _ => hPQ c

theorem Kept.bind {r : Reader α} {f : α → Reader β} {c : Cursor} (h : Kept P E (r c))
    (hf : ∀ x c', r c = .ok (x, c') → P c' → Kept Q E (f x c')) : Kept Q E ((r >>= f) c) := by
  rw [bind_apply]
  generalize r c = o at h hf
  cases h with
  | ok x hc => exact hf x _ rfl hc
  | error he => exact .error he

theorem kept_offset {f : Nat → Reader α} {c : Cursor} (h : Kept P E (f c.offset c)) :
    Kept P E ((offset >>= f) c) := h

theorem keeps_pure (x : α) : Keeps P E (pure x) := by
  intro c hc
  exact .ok x hc

theorem keeps_throw {e : DecodeError} (he : E e) : Keeps P E (throw e : Reader α) := by
  intro c _
  exact .error he

theorem Keeps.bind {r : Reader α} {f : α → Reader β} (hr : Keeps P E r) (hf : ∀ x, Keeps P E (f x)) :
    Keeps P E (r >>= f) := by
  intro c hc
  exact (hr c hc).bind fun x c' _ => hf x c'

theorem Keeps.map {r : Reader α} (f : α → β) (hr : Keeps P E r) : Keeps P E (r >>= fun x => pure (f x)) :=
  hr.bind fun x => keeps_pure (f x)

/-! ## Bytes, arguments, texts and simple values -/

theorem keeps_byte (hP : Onward P E) : Keeps P E byte := by
  intro c hc
  obtain ⟨o, rest⟩ := c
  cases rest with
  | nil => exact .error (hP.fault hc .outOfData)
  | cons b rest => exact .ok b (hP.past (b := [b]) ⟨rfl, rfl⟩ hc)

theorem keeps_take (hP : Onward P E) (n : Nat) : Keeps P E (take n) := by
  intro c hc
  simp only [take]
  split
  · rename_i h
    refine .ok _ (hP.past (b := c.rest.take n) ⟨(List.take_append_drop n c.rest).symm, ?_⟩ hc)
    rw [h]
  · exact .error (hP.fault hc .outOfData)

theorem keeps_argument (hP : Onward P E) {start info : Nat} (he : 28 ≤ info → E (.reservedInfo info start)) :
    Keeps P E (argument start info) := by
  unfold argument
  split
  · exact keeps_pure _
  split
  · exact (keeps_take hP _).map _
  · exact keeps_throw (he (by omega))

theorem keeps_content (hP : Onward P E) {start info : Nat} (he : 28 ≤ info → E (.reservedInfo info start)) :
    Keeps P E (content start info) :=
  (keeps_argument hP he).bind fun length => keeps_take hP length.toNat

theorem keeps_text {start : Nat} {b : Bytes} (he : b.toString? = none → E (.invalidUtf8 start)) :
    Keeps P E (text start b) := by
  unfold text
  split
  · exact keeps_pure _
  · rename_i h
    exact keeps_throw (he h)

theorem keeps_texts {start : Nat} {chunks : List Bytes}
    (he : ∀ b ∈ chunks, b.toString? = none → E (.invalidUtf8 start)) : Keeps P E (chunks.mapM (text start)) := by
  induction chunks with
  | nil => exact keeps_pure []
  | cons chunk chunks ih =>
    obtain ⟨hc, hcs⟩ := List.forall_mem_cons.mp he
    rw [List.mapM_cons]
    exact (keeps_text hc).bind fun t => (ih hcs).map (t :: ·)

theorem keeps_simple {v : UInt8} (hv : v < 20 ∨ 32 ≤ v) : Keeps P E (simple v) := by
  rw [simple, Simple.ofByte?, dif_pos hv]
  exact keeps_pure _

/-! ## Repetition -/

theorem Keeps.times {r : Reader α} (hr : Keeps P E r) (n : Nat) : Keeps P E (times r n) := by
  induction n with
  | zero => exact keeps_pure []
  | succ n ih => exact hr.bind fun x => ih.map (x :: ·)

/-- Up to a break the reader may keep more than `P`, and need only do so where no break stands. -/
theorem kept_untilBreak (hP : Onward P E) (hQ : ∀ c, Q c → P c) {r : Reader α}
    (hr : ∀ o i rest, i ≠ breakByte → Q ⟨o, i :: rest⟩ → Kept Q E (r ⟨o, i :: rest⟩)) {c : Cursor} (hc : Q c) :
    Kept P E (untilBreak r c) := by
  suffices h : ∀ limit c, Q c → Kept P E (untilBreakWithin r limit c) from h _ c hc
  intro limit
  induction limit with
  | zero =>
    intro c hc
    exact .error (hP.fault (hQ c hc) .stalled)
  | succ limit ih =>
    intro c hc
    obtain ⟨o, rest⟩ := c
    cases rest with
    | nil => exact .error (hP.fault (hQ _ hc) .outOfData)
    | cons i rest =>
      by_cases hi : i = breakByte
      · have h : untilBreakWithin r (limit + 1) ⟨o, i :: rest⟩ = .ok ([], ⟨o + 1, rest⟩) := if_pos hi
        rw [h]
        exact .ok [] (hP.past (b := [i]) ⟨rfl, rfl⟩ (hQ _ hc))
      · rw [untilBreakWithin_cons hi]
        refine (hr o i rest hi hc).bind fun x c' _ hc' => ?_
        exact (ih c' hc').bind fun xs _ _ h => .ok (x :: xs) h

theorem Keeps.untilBreak (hP : Onward P E) {r : Reader α} (hr : Keeps P E r) : Keeps P E (untilBreak r) := by
  intro c hc
  exact kept_untilBreak hP (fun _ h => h) (fun _ _ _ _ => hr _) hc

theorem Keeps.elements (hP : Onward P E) {r : Reader α} (hr : Keeps P E r) {start info : Nat}
    (he : 28 ≤ info → info ≠ 31 → E (.reservedInfo info start)) : Keeps P E (elements r start info) := by
  unfold Reader.elements
  split
  · exact hr.untilBreak hP
  · rename_i h
    exact (keeps_argument hP fun hi => he hi h).bind fun count => hr.times count.toNat

theorem Keeps.entry {r : Reader Item} (hr : Keeps P E r) : Keeps P E (entry r) :=
  hr.bind fun key => hr.map fun value => (key, value)

/-! ## Items -/

/-- What reads one level deeper keeps to `P` and `E`; if nothing does, that the nesting is too deep is in `E`. -/
inductive KeepsDeeper (P : Cursor → Prop) (E : DecodeError → Prop) : Option (Reader Item) → Prop
  | none : E .tooDeep → KeepsDeeper P E none
  | some {r : Reader Item} : Keeps P E r → KeepsDeeper P E (some r)

theorem KeepsDeeper.bind {inner : Option (Reader Item)} (hd : KeepsDeeper P E inner) {f : Reader Item → Reader α}
    (hf : ∀ r, Keeps P E r → Keeps P E (f r)) : Keeps P E (deeper inner >>= f) := by
  cases hd with
  | none he =>
    intro c _
    exact .error he
  | some hr => exact hf _ hr

/-- A byte is the initial byte of a major type and an additional info. -/
theorem eq_initialByte {i major info : UInt8} (hm : i.toNat / 32 = major.toNat) (hi : i.toNat % 32 = info.toNat) :
    i = initialByte major info := by
  have he := Head.initialByte_of_div hm
  rw [hi, UInt8.ofNat_toNat] at he
  exact he.symm

section

-- The initial byte `i` stands at `s`, and `c` is the place behind it.
variable (hP : Onward P E) {s c : Cursor} {i : UInt8} (hs : ∀ {e}, FaultAt s e → E e) (hp : s.Past [i] c)
include hs hp

/-- The content of a text string has been read when it is taken for text. -/
theorem fault_content (hm : i.toNat / 32 = 3) {piece : Bytes} {m : Cursor}
    (hx : content s.offset (i.toNat % 32) c = .ok (piece, m)) (hn : piece.toString? = none) :
    E (.invalidUtf8 s.offset) := by
  have hlt : i.toNat % 32 < 32 := Nat.mod_lt _ (by decide)
  obtain ⟨b, hpm, length, arg, hb, ha, hl⟩ := (recognizes_content s.offset hlt c piece m).mp hx
  have he : initialByte 3 (.ofNat (i.toNat % 32)) = i := Head.initialByte_of_div hm
  have hw : EncodesString 3 ([i] ++ b) piece := by
    rw [hb, ← he]
    exact .mk ha hl
  exact hs (.invalidUtf8 (hp.trans hpm).rest (.definite hw) hn)

/-- The pieces of a text string have all been read when they are taken for text. -/
theorem fault_chunks (hi : i = initialByte 3 indefiniteInfo) {chunks : List Bytes} {m : Cursor}
    (hx : untilBreak (chunk 3) c = .ok (chunks, m)) :
    ∀ piece ∈ chunks, piece.toString? = none → E (.invalidUtf8 s.offset) := by
  intro piece hm hn
  have hr := (recognizes_chunk 3 (by decide)).untilBreak (·.opens (by decide))
  obtain ⟨_, hpm, b, rfl, hcs⟩ := (hr c chunks m).mp hx
  rw [hi] at hp
  exact hs (.invalidUtf8 (hp.trans hpm).rest (.chunk hcs hm) hn)

include hP
variable (hc : P c)
include hc

/-- The pieces of a string of indefinite length: each but the first stands behind the ones before it. -/
theorem kept_chunks {major : UInt8} (hm : major = 2 ∨ major = 3) (hi : i = initialByte major indefiniteInfo) :
    Kept P E (untilBreak (chunk major.toNat) c) := by
  let Q : Cursor → Prop := fun m => P m ∧ ∃ b chunks, s.Past (i :: b) m ∧ Series (EncodesString major) b chunks
  have hm' : major.toNat = 2 ∨ major.toNat = 3 := hm.imp (congrArg _) (congrArg _)
  refine kept_untilBreak (Q := Q) hP (fun _ h => h.1) ?_ ⟨hc, [], [], hp, .nil⟩
  rintro o j rest hj ⟨hPm, b, chunks, hpm, hcs⟩
  have hk : Kept P E (chunk major.toNat ⟨o, j :: rest⟩) := by
    refine kept_offset ((keeps_byte hP _ hPm).bind fun j' c' hj' hc' => ?_)
    cases hj'
    dsimp only
    split
    · rename_i hn
      rw [hi] at hpm
      have hf := hs (.invalidChunk hm hpm.rest hcs hj hn)
      have ho : s.offset + 1 + b.length = o := by
        have := hpm.offset
        simp only [List.length_cons] at this
        omega
      rw [ho] at hf
      exact .error hf
    · rename_i hn
      have hr : 28 ≤ j.toNat % 32 → E (.reservedInfo (j.toNat % 32) o) := by
        intro h28
        exact hP.fault hPm (.reservedInfo rfl (.inl (by omega)))
      exact keeps_content hP hr _ hc'
  refine hk.of_ok fun x c' hx hc' => ⟨hc', ?_⟩
  obtain ⟨b', hp', hx'⟩ := (recognizes_chunk major (by omega) _ _ _).mp hx
  exact ⟨b ++ b', chunks ++ [x], hpm.trans hp', hcs.concat hx'⟩

/-- An item of major type 7: what is reserved or out of place is told by its initial byte and the byte behind it. -/
theorem kept_special (hm : i.toNat / 32 = 7) {info : Nat} (hi : i.toNat % 32 = info) :
    Kept P E (special s.offset info c) := by
  have hlt : i.toNat % 32 < 32 := Nat.mod_lt _ (by decide)
  unfold special
  split
  · exact keeps_pure _ c hc
  · exact keeps_pure _ c hc
  · exact keeps_pure _ c hc
  · exact keeps_pure _ c hc
  · refine (keeps_byte hP c hc).bind fun v m hv hm' => ?_
    obtain ⟨_, hpm, rfl⟩ := (recognizes_byte c v m).mp hv
    have hb : i = initialByte 7 24 := eq_initialByte hm hi
    rw [hb] at hp
    split
    · rename_i hlt
      exact .error (hs (.reservedSimple (hp.trans hpm).rest (UInt8.lt_iff_toNat_lt.mp hlt)))
    · rename_i hge
      exact keeps_simple (.inr (UInt8.not_lt.mp hge)) m hm'
  · exact (keeps_take hP 2).map _ c hc
  · exact (keeps_take hP 4).map _ c hc
  · exact (keeps_take hP 8).map _ c hc
  · have hb : i = initialByte 7 indefiniteInfo := eq_initialByte hm hi
    rw [hb] at hp
    exact .error (hs (.strayBreak hp.rest))
  · split
    · rename_i hlt
      refine keeps_simple (.inl ?_) c hc
      rw [UInt8.lt_iff_toNat_lt, Bytes.toNat_byte (by omega)]
      exact hlt
    · simp only [imp_false] at *
      have hri : Head.ReservedInfo i := .inl (by omega)
      have hf := hs (.reservedInfo hp.rest hri)
      rw [hi] at hf
      exact .error hf

/-- An item behind its initial byte. -/
theorem kept_body {inner : Option (Reader Item)} (hd : KeepsDeeper P E inner) {major info : Nat}
    (hm : i.toNat / 32 = major) (hi : i.toNat % 32 = info) : Kept P E (body inner s.offset major info c) := by
  have hlt : i.toNat % 32 < 32 := Nat.mod_lt _ (by decide)
  have hr (h : info ≠ 31 ∨ major = 0 ∨ major = 1 ∨ major = 6) (h28 : 28 ≤ info) : E (.reservedInfo info s.offset) := by
    have hri : Head.ReservedInfo i := by
      unfold Head.ReservedInfo
      omega
    have hf := hs (.reservedInfo hp.rest hri)
    rwa [hi] at hf
  unfold body
  split
  · exact (keeps_argument hP (hr (by simp))).map _ c hc
  · exact (keeps_argument hP (hr (by simp))).map _ c hc
  · split
    · rename_i h31
      subst h31
      have hb : i = initialByte 2 indefiniteInfo := eq_initialByte hm hi
      exact (kept_chunks hP hs hp hc (.inl rfl) hb).bind fun chunks m _ => keeps_pure _ m
    · rename_i h31
      exact (keeps_content hP (hr (.inl h31))).map _ c hc
  · split
    · rename_i h31
      subst h31
      have hb : i = initialByte 3 indefiniteInfo := eq_initialByte hm hi
      exact (kept_chunks hP hs hp hc (.inr rfl) hb).bind fun chunks m hx hPm =>
        (keeps_texts (fault_chunks hs hp hb hx)).map _ m hPm
    · rename_i h31
      refine (keeps_content hP (hr (.inl h31)) c hc).bind fun b m hx hPm => ?_
      rw [← hi] at hx
      exact (keeps_text (fault_content hs hp hm hx)).map _ m hPm
  · exact hd.bind (fun r h => (h.elements hP fun h28 h31 => hr (.inl h31) h28).map _) c hc
  · exact hd.bind (fun r h => (h.entry.elements hP fun h28 h31 => hr (.inl h31) h28).map _) c hc
  · exact ((keeps_argument hP (hr (by simp))).bind fun tag => hd.bind fun r h => h.map _) c hc
  · have hlt' := i.toNat_lt
    simp only [imp_false] at *
    exact kept_special hP hs hp hc (by omega) hi

end

/-- Under every limit a reader of items keeps to `P` and `E`, if meeting the limit is a fault in `E`. -/
theorem keeps_item (hP : Onward P E) (hd : E .tooDeep) (D : Nat) : Keeps P E (item D) := by
  have hw {inner : Option (Reader Item)} (h : KeepsDeeper P E inner) : Keeps P E (itemWith inner) := by
    intro s hs
    refine kept_offset ((keeps_byte hP s hs).bind fun i c hi hc => ?_)
    obtain ⟨_, hp, rfl⟩ := (recognizes_byte s i c).mp hi
    exact kept_body hP (hP.fault hs) hp hc h rfl rfl
  induction D with
  | zero => exact hw (.none hd)
  | succ D ih => exact hw (.some ih)

/-! ## The end of the data -/

/-- Where the data ends at `stop`, that it ends is found no further on. -/
theorem onward_stop (stop : Nat) :
    Onward (fun c => c.offset + c.rest.length = stop) (fun e => ∀ o, e = .outOfData o → o ≤ stop) where
  past h hc := by
    rw [h.rest, List.length_append] at hc
    rw [h.offset]
    omega
  fault {c e} hc hf o ho := by
    subst ho
    cases hf
    omega

theorem item_outOfData_le {D o : Nat} {c : Cursor} (h : item D c = .error (.outOfData o)) :
    o ≤ c.offset + c.rest.length := by
  have hk := keeps_item (onward_stop (c.offset + c.rest.length)) (fun o ho => by cases ho) D c rfl
  rw [h] at hk
  cases hk with
  | error he => exact he o rfl

/-! ## The limit on the nesting -/

/-- That the nesting is too deep is at fault nowhere. -/
theorem onward_left (n : Nat) : Onward (fun c => c.rest.length ≤ n) (· ≠ .tooDeep) where
  past h hc := by
    rw [h.rest, List.length_append] at hc
    omega
  fault _ hf hd := by
    subst hd
    cases hf

/-- Where no more than `D` bytes are left, arrays, maps and tags nest no deeper than `D`: each takes its initial byte
before what is nested in it. -/
theorem keeps_item_left (D : Nat) : Keeps (fun c => c.rest.length ≤ D) (· ≠ .tooDeep) (item D) := by
  induction D with
  | zero =>
    intro c hc
    obtain ⟨o, rest⟩ := c
    obtain rfl : rest = [] := List.eq_nil_of_length_eq_zero (Nat.le_zero.mp hc)
    exact .error ((onward_left 0).fault hc .outOfData)
  | succ D ih =>
    intro c hc
    obtain ⟨o, rest⟩ := c
    cases rest with
    | nil => exact .error ((onward_left (D + 1)).fault hc .outOfData)
    | cons i rest =>
      have hp : (⟨o, i :: rest⟩ : Cursor).Past [i] ⟨o + 1, rest⟩ := ⟨rfl, rfl⟩
      have hb := kept_body (onward_left D) ((onward_left (D + 1)).fault hc) hp (Nat.le_of_succ_le_succ hc) (.some ih)
        rfl rfl
      exact hb.mono fun _ h => Nat.le_succ_of_le h

theorem item_ne_tooDeep {D : Nat} {c : Cursor} (h : c.rest.length ≤ D) : item D c ≠ .error .tooDeep := by
  intro hd
  have hk := keeps_item_left D c h
  rw [hd] at hk
  cases hk with
  | error he => exact he rfl

end Reader

/-! ## Entry points -/

/-- Data that is too short is missed no further on than at its end. -/
theorem decodeWithDepth_outOfData_le {data : Bytes} {offset D o : Nat} (ho : offset ≤ data.length)
    (h : decodeWithDepth data offset D = .error (.outOfData o)) : o ≤ data.length := by
  have hle := Reader.item_outOfData_le (Reader.readAt_eq_error_iff.mp h)
  simp only [Cursor.at, List.length_drop] at hle
  omega

/-- A limit no less than the number of bytes from the offset on is never met. -/
theorem decodeWithDepth_ne_tooDeep {data : Bytes} {offset D : Nat} (h : data.length - offset ≤ D) :
    decodeWithDepth data offset D ≠ .error .tooDeep := by
  intro hd
  refine Reader.item_ne_tooDeep ?_ (Reader.readAt_eq_error_iff.mp hd)
  rwa [Cursor.at, List.length_drop]

end Cbor
