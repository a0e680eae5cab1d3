import Cbor.Decode.Item
import Cbor.Proofs.Recognition

/-!
# The decoder recognizes the grammar

Every reader of a part of an item recognizes the part's grammar, and so does the reader of items under a limit on the
nesting (`recognizes_item`). In terms of the data: an item is decoded at an offset exactly if the data goes on there
with one of its encodings (`decodeWithDepth_ok_iff`), and as the whole of the data if it takes all of it
(`decode_eq_ok_iff`).
-/

namespace Cbor

namespace Reader

open Head (initialByte indefiniteInfo breakByte)

variable {α : Type}

/-! ## Parts of items -/

theorem recognizes_chunk (major : UInt8) (hm : major.toNat < 7) :
    (chunk major.toNat).Recognizes (EncodesString major) := by
  unfold chunk
  refine recognizes_offset fun start => ?_
  refine (recognizes_byte.bind (M := fun i b s => i.toNat / 32 = major.toNat ∧ ∃ length arg, b = arg ++ s ∧
    Head.Argument (.ofNat (i.toNat % 32)) length arg ∧ s.length = length.toNat) fun i => ?_).congr fun b s => ?_
  · have hi : i.toNat % 32 < 32 := Nat.mod_lt _ (by decide)
    dsimp only
    split
    · rename_i hne
      refine (recognizes_throw_bind _ _).congr fun b s => ⟨False.elim, ?_⟩
      intro hw
      obtain ⟨hd, length, arg, -, ha, -⟩ := hw
      have := ha.info_ne hi
      omega
    · rename_i hne
      refine (recognizes_content start hi).congr fun b s => (and_iff_right ?_).symm
      exact Decidable.not_not.mp fun h => hne (.inl h)
  · constructor
    · intro hw
      obtain ⟨_, _, i, rfl, rfl, hd, length, arg, rfl, ha, hl⟩ := hw
      rw [← Head.initialByte_of_div hd]
      exact .mk ha hl
    · rintro ⟨ha, hl⟩
      rename_i info length arg
      have hi := ha.info_lt
      refine ⟨[_], _, _, rfl, rfl, Head.initialByte_div (by omega) (by omega), length, arg, rfl, ?_, hl⟩
      rwa [Head.initialByte_mod (by omega) (by omega), UInt8.ofNat_toNat]

theorem recognizes_entry {r : Reader Item} {D : Nat} (hr : r.Recognizes (Encodes D)) :
    (entry r).Recognizes (EncodesEntry D) := by
  refine (hr.bind fun key => hr.map fun value => (key, value)).congr fun b e => ?_
  constructor
  · intro hw
    obtain ⟨b₁, b₂, key, rfl, hk, value, hv, rfl⟩ := hw
    exact ⟨b₁, b₂, rfl, hk, hv⟩
  · intro hw
    obtain ⟨b₁, b₂, rfl, hk, hv⟩ := hw
    exact ⟨b₁, b₂, e.1, rfl, hk, e.2, hv, rfl⟩

/-- The texts of the pieces of a string, once the pieces are read. -/
theorem recognizes_texts (start : Nat) : ∀ chunks : List Bytes,
    (chunks.mapM (text start)).Recognizes fun b ss => b = [] ∧ ss.map Bytes.ofString = chunks
  | [] => (recognizes_pure []).congr fun b ss => by simp
  | chunk :: chunks => by
    rw [List.mapM_cons]
    refine ((recognizes_text start chunk).bind fun s => (recognizes_texts start chunks).map (s :: ·)).congr
      fun b ss => ?_
    constructor
    · intro hw
      obtain ⟨_, _, s, rfl, ⟨rfl, rfl⟩, ss, ⟨rfl, rfl⟩, rfl⟩ := hw
      exact ⟨rfl, rfl⟩
    · rintro ⟨rfl, h⟩
      obtain ⟨s, ss, rfl, hs, hss⟩ := List.map_eq_cons_iff.mp h
      exact ⟨[], [], s, rfl, ⟨rfl, hs⟩, ss, ⟨rfl, hss⟩, rfl⟩

/-- The elements of a container: as many as its argument says, or up to a break. -/
theorem recognizes_elements {r : Reader α} {L : Bytes → α → Prop} (hr : r.Recognizes L)
    (hL : ∀ {b x}, L b x → Opens b) (start : Nat) {info : Nat} (hi : info < 32) :
    (elements r start info).Recognizes fun b xs =>
      (info = 31 ∧ ∃ b₁, b = b₁ ++ [breakByte] ∧ Series L b₁ xs) ∨
      ∃ count arg b₁, b = arg ++ b₁ ∧ Head.Argument (.ofNat info) count arg ∧ xs.length = count.toNat ∧
        Series L b₁ xs := by
  unfold elements
  split
  · rename_i h
    refine (hr.untilBreak hL).congr fun b xs => ⟨fun hb => .inl ⟨h, hb⟩, ?_⟩
    intro hw
    rcases hw with ⟨-, hb⟩ | ⟨count, arg, -, -, ha, -⟩
    · exact hb
    · exact absurd h (ha.info_ne hi)
  · rename_i h
    refine ((recognizes_argument start hi).bind fun count => hr.times count.toNat).congr fun b xs => ?_
    constructor
    · intro hw
      obtain ⟨arg, b₁, count, rfl, ha, hs, hl⟩ := hw
      exact .inr ⟨count, arg, b₁, rfl, ha, hl, hs⟩
    · intro hw
      rcases hw with ⟨h', -⟩ | ⟨count, arg, b₁, rfl, ha, hl, hs⟩
      · exact absurd h' h
      · exact ⟨arg, b₁, count, rfl, ha, hs, hl⟩

/-! ## Items of major type 7 -/

theorem recognizes_simple (v : UInt8) :
    (simple v).Recognizes fun b x => b = [] ∧ ∃ s : Simple, s.value = v ∧ x = .simple s := by
  unfold simple Simple.ofByte?
  split
  · rename_i s hs
    split at hs
    · cases hs
      refine (recognizes_pure _).congr fun b x => and_congr_right fun _ => ⟨fun hx => ⟨_, rfl, hx⟩, ?_⟩
      intro hw
      obtain ⟨⟨_, _⟩, rfl, rfl⟩ := hw
      rfl
    · cases hs
  · rename_i hs
    split at hs
    · cases hs
    · rename_i hv
      refine (recognizes_throw _).congr fun b x => ⟨False.elim, ?_⟩
      intro hw
      obtain ⟨-, s, rfl, -⟩ := hw
      exact hv s.unassigned

/-- A number of a fixed width, big-endian, under a view of such numbers as something else. -/
theorem recognizes_bits {β : Type} {w : Nat} {f : Nat → α} {g : α → Nat} (mk : α → β) (hg : ∀ a, g a < 256 ^ w)
    (hgf : ∀ n < 256 ^ w, g (f n) = n) (hfg : ∀ a, f (g a) = a) :
    (take w >>= fun b => pure (mk (f (Bytes.toNat b)))).Recognizes fun b x => ∃ a, b = Bytes.ofNat w (g a) ∧ x = mk a :=
  ((recognizes_take w).map _).congr fun b x => by
    constructor
    · intro hw
      obtain ⟨_, ⟨rfl, rfl⟩, rfl⟩ := hw
      exact ⟨_, by rw [hgf _ (Bytes.toNat_lt b), Bytes.ofNat_toNat], rfl⟩
    · rintro ⟨a, rfl, rfl⟩
      exact ⟨_, ⟨rfl, Bytes.length_ofNat _ _⟩, by rw [Bytes.toNat_ofNat (hg a), hfg]⟩

theorem recognizes_half :
    (take 2 >>= fun b => pure (Item.half ⟨.ofNat (Bytes.toNat b)⟩)).Recognizes fun b x =>
      ∃ y : Binary16, b = Bytes.ofNat 2 y.bits.toNat ∧ x = .half y :=
  recognizes_bits (f := fun n => (⟨.ofNat n⟩ : Binary16)) (g := fun y => y.bits.toNat) Item.half
    (fun y => y.bits.toNat_lt) (fun _ hn => UInt16.toNat_ofNat_of_lt' hn) fun _ => by rw [UInt16.ofNat_toNat]

theorem recognizes_single :
    (take 4 >>= fun b => pure (Item.single ⟨.ofNat (Bytes.toNat b)⟩)).Recognizes fun b x =>
      ∃ y : Binary32, b = Bytes.ofNat 4 y.bits.toNat ∧ x = .single y :=
  recognizes_bits (f := fun n => (⟨.ofNat n⟩ : Binary32)) (g := fun y => y.bits.toNat) Item.single
    (fun y => y.bits.toNat_lt) (fun _ hn => UInt32.toNat_ofNat_of_lt' hn) fun _ => by rw [UInt32.ofNat_toNat]

theorem recognizes_double :
    (take 8 >>= fun b => pure (Item.double ⟨.ofNat (Bytes.toNat b)⟩)).Recognizes fun b x =>
      ∃ y : Binary64, b = Bytes.ofNat 8 y.bits.toNat ∧ x = .double y :=
  recognizes_bits (f := fun n => (⟨.ofNat n⟩ : Binary64)) (g := fun y => y.bits.toNat) Item.double
    (fun y => y.bits.toNat_lt) (fun _ hn => UInt64.toNat_ofNat_of_lt' hn) fun _ => by rw [UInt64.ofNat_toNat]

theorem special_sound {start info : Nat} (hi : info < 32) {c c' : Cursor} {x : Item}
    (h : special start info c = .ok (x, c')) : ∃ b, c.Past b c' ∧ EncodesSpecial (.ofNat info) b x := by
  unfold special at h
  split at h
  · obtain ⟨rfl, rfl⟩ := pure_eq_ok.mp h
    exact ⟨[], Cursor.Past.nil_iff.mpr rfl, .falseValue⟩
  · obtain ⟨rfl, rfl⟩ := pure_eq_ok.mp h
    exact ⟨[], Cursor.Past.nil_iff.mpr rfl, .trueValue⟩
  · obtain ⟨rfl, rfl⟩ := pure_eq_ok.mp h
    exact ⟨[], Cursor.Past.nil_iff.mpr rfl, .null⟩
  · obtain ⟨rfl, rfl⟩ := pure_eq_ok.mp h
    exact ⟨[], Cursor.Past.nil_iff.mpr rfl, .undefined⟩
  · obtain ⟨v, m, hv, h⟩ := bind_eq_ok.mp h
    obtain ⟨_, hp, rfl⟩ := (recognizes_byte c v m).mp hv
    split at h
    · cases h
    · rename_i hlt
      obtain ⟨_, hp', rfl, s, rfl, rfl⟩ := (recognizes_simple v m x c').mp h
      obtain rfl := Cursor.Past.nil_iff.mp hp'
      exact ⟨[s.value], hp, .simpleByte (Nat.not_lt.mp fun hs => hlt (UInt8.lt_iff_toNat_lt.mpr hs))⟩
  · obtain ⟨_, hp, y, rfl, rfl⟩ := (recognizes_half c x c').mp h
    exact ⟨_, hp, .half⟩
  · obtain ⟨_, hp, y, rfl, rfl⟩ := (recognizes_single c x c').mp h
    exact ⟨_, hp, .single⟩
  · obtain ⟨_, hp, y, rfl, rfl⟩ := (recognizes_double c x c').mp h
    exact ⟨_, hp, .double⟩
  · cases h
  · split at h
    · rename_i hlt
      obtain ⟨_, hp, rfl, s, hs, rfl⟩ := (recognizes_simple _ c x c').mp h
      exact ⟨[], hp, hs ▸ .simple (by rw [hs, Bytes.toNat_byte (by omega)]; exact hlt)⟩
    · cases h

theorem special_of_lt {start info : Nat} (h : info < 20) : special start info = simple (.ofNat info) := by
  unfold special
  split <;> first | omega | exact if_pos h

theorem special_complete {start info : Nat} (hi : info < 32) {c c' : Cursor} {b : Bytes} {x : Item}
    (hp : c.Past b c') (h : EncodesSpecial (.ofNat info) b x) : special start info c = .ok (x, c') := by
  generalize hx : UInt8.ofNat info = i at h
  have hn : info = i.toNat := by rw [← hx, Bytes.toNat_byte (by omega)]
  subst hn
  cases h with
  | simple hs =>
    rw [special_of_lt hs, UInt8.ofNat_toNat]
    exact (recognizes_simple _ _ _ _).mpr ⟨[], hp, rfl, _, rfl, rfl⟩
  | simpleByte hs =>
    have hlt : ¬ _ < (32 : UInt8) := fun h => Nat.not_lt.mpr hs (UInt8.lt_iff_toNat_lt.mp h)
    refine bind_eq_ok.mpr ⟨_, c', (recognizes_byte _ _ _).mpr ⟨_, hp, rfl⟩, ?_⟩
    rw [if_neg hlt]
    exact (recognizes_simple _ _ _ _).mpr ⟨[], Cursor.Past.nil_iff.mpr rfl, rfl, _, rfl, rfl⟩
  | falseValue | trueValue | null | undefined => exact pure_eq_ok.mpr ⟨rfl, Cursor.Past.nil_iff.mp hp⟩
  | half => exact (recognizes_half _ _ _).mpr ⟨_, hp, _, rfl, rfl⟩
  | single => exact (recognizes_single _ _ _).mpr ⟨_, hp, _, rfl, rfl⟩
  | double => exact (recognizes_double _ _ _).mpr ⟨_, hp, _, rfl, rfl⟩

theorem recognizes_special (start : Nat) {info : Nat} (hi : info < 32) :
    (special start info).Recognizes (EncodesSpecial (.ofNat info)) := fun _ _ _ =>
  ⟨special_sound hi, fun ⟨_, hp, h⟩ => special_complete hi hp h⟩

/-! ## Items -/

/-- What reads one level deeper under a limit of `D`: nothing at zero, and otherwise the grammar of the limit below. -/
inductive ReadsDeeper : Option (Reader Item) → Nat → Prop
  | none : ReadsDeeper none 0
  | some {r : Reader Item} {d : Nat} : r.Recognizes (Encodes d) → ReadsDeeper (some r) (d + 1)

theorem recognizes_deeper {inner : Option (Reader Item)} {D : Nat} (hd : ReadsDeeper inner D)
    {f : Reader Item → Reader α} {M : Nat → Bytes → α → Prop}
    (hf : ∀ r d, r.Recognizes (Encodes d) → (f r).Recognizes (M d)) :
    (deeper inner >>= f).Recognizes fun b x => ∃ d, D = d + 1 ∧ M d b x := by
  cases hd with
  | none => exact (recognizes_throw_bind _ f).congr fun b x => ⟨False.elim, fun ⟨_, h, _⟩ => by cases h⟩
  | @some r d hr =>
    refine Recognizes.congr (hf r d hr) fun b x => ⟨fun h => ⟨d, rfl, h⟩, ?_⟩
    rintro ⟨_, ⟨⟩, h⟩
    exact h

section Body

variable {inner : Option (Reader Item)} {D start info : Nat}

theorem recognizes_bytes (hi : info < 32) :
    (body inner start 2 info).Recognizes fun b x =>
      (info = 31 ∧ ∃ b₁ chunks, b = b₁ ++ [breakByte] ∧ Series (EncodesString 2) b₁ chunks ∧ x = .byteChunks chunks) ∨
      ∃ length arg s, b = arg ++ s ∧ Head.Argument (.ofNat info) length arg ∧ s.length = length.toNat ∧
        x = .bytes s := by
  show (ite _ _ _ : Reader Item).Recognizes _
  split
  · rename_i h
    have hc := (recognizes_chunk 2 (by decide)).untilBreak (·.opens (by decide))
    refine (hc.map Item.byteChunks).congr fun b x => ?_
    constructor
    · intro hw
      obtain ⟨chunks, ⟨b₁, rfl, hs⟩, rfl⟩ := hw
      exact .inl ⟨h, b₁, chunks, rfl, hs, rfl⟩
    · intro hw
      rcases hw with ⟨-, b₁, chunks, rfl, hs, rfl⟩ | ⟨length, arg, s, -, ha, -⟩
      · exact ⟨chunks, ⟨b₁, rfl, hs⟩, rfl⟩
      · exact absurd h (ha.info_ne hi)
  · rename_i h
    refine ((recognizes_content start hi).map Item.bytes).congr fun b x => ?_
    constructor
    · intro hw
      obtain ⟨s, ⟨length, arg, rfl, ha, hl⟩, rfl⟩ := hw
      exact .inr ⟨length, arg, s, rfl, ha, hl, rfl⟩
    · intro hw
      rcases hw with ⟨h', -⟩ | ⟨length, arg, s, rfl, ha, hl, rfl⟩
      · exact absurd h' h
      · exact ⟨s, ⟨length, arg, rfl, ha, hl⟩, rfl⟩

theorem recognizes_textString (hi : info < 32) :
    (body inner start 3 info).Recognizes fun b x =>
      (info = 31 ∧ ∃ b₁ chunks, b = b₁ ++ [breakByte] ∧ Series (fun b s => EncodesString 3 b (.ofString s)) b₁ chunks ∧
        x = .textChunks chunks) ∨
      ∃ length arg s, b = arg ++ .ofString s ∧ Head.Argument (.ofNat info) length arg ∧
        (Bytes.ofString s).length = length.toNat ∧ x = .text s := by
  show (ite _ _ _ : Reader Item).Recognizes _
  split
  · rename_i h
    have hc := (recognizes_chunk 3 (by decide)).untilBreak (·.opens (by decide))
    refine (hc.bind fun chunks => (recognizes_texts start chunks).map Item.textChunks).congr fun b x => ?_
    constructor
    · intro hw
      obtain ⟨_, _, _, rfl, ⟨b₁, rfl, hs⟩, ss, ⟨rfl, rfl⟩, rfl⟩ := hw
      exact .inl ⟨h, b₁, ss, List.append_nil _, series_map.mp hs, rfl⟩
    · intro hw
      rcases hw with ⟨-, b₁, ss, rfl, hs, rfl⟩ | ⟨length, arg, s, -, ha, -⟩
      · exact ⟨_, [], _, (List.append_nil _).symm, ⟨b₁, rfl, series_map.mpr hs⟩, ss, ⟨rfl, rfl⟩, rfl⟩
      · exact absurd h (ha.info_ne hi)
  · rename_i h
    refine ((recognizes_content start hi).bind fun s => (recognizes_text start s).map Item.text).congr fun b x => ?_
    constructor
    · intro hw
      obtain ⟨_, _, _, rfl, ⟨length, arg, rfl, ha, hl⟩, s, ⟨rfl, rfl⟩, rfl⟩ := hw
      exact .inr ⟨length, arg, s, List.append_nil _, ha, hl, rfl⟩
    · intro hw
      rcases hw with ⟨h', -⟩ | ⟨length, arg, s, rfl, ha, hl, rfl⟩
      · exact absurd h' h
      · exact ⟨_, [], _, (List.append_nil _).symm, ⟨length, arg, rfl, ha, hl⟩, s, ⟨rfl, rfl⟩, rfl⟩

theorem recognizes_array (hd : ReadsDeeper inner D) (hi : info < 32) :
    (body inner start 4 info).Recognizes fun b x => ∃ d, D = d + 1 ∧ ∃ items, x = .array items (info = 31) ∧
      ((info = 31 ∧ ∃ b₁, b = b₁ ++ [breakByte] ∧ EncodesItems d b₁ items) ∨
      ∃ count arg b₁, b = arg ++ b₁ ∧ Head.Argument (.ofNat info) count arg ∧ items.length = count.toNat ∧
        EncodesItems d b₁ items) :=
  recognizes_deeper hd fun r d hr => ((recognizes_elements hr (·.opens) start hi).map _).congr fun b x => by
    simp only [encodesItems_iff]
    exact exists_congr fun items => and_comm

theorem recognizes_map (hd : ReadsDeeper inner D) (hi : info < 32) :
    (body inner start 5 info).Recognizes fun b x => ∃ d, D = d + 1 ∧ ∃ entries, x = .ofEntries entries (info = 31) ∧
      ((info = 31 ∧ ∃ b₁, b = b₁ ++ [breakByte] ∧ EncodesEntries d b₁ entries) ∨
      ∃ count arg b₁, b = arg ++ b₁ ∧ Head.Argument (.ofNat info) count arg ∧ entries.length = count.toNat ∧
        EncodesEntries d b₁ entries) :=
  recognizes_deeper hd fun r d hr =>
    ((recognizes_elements (recognizes_entry hr) (·.opens) start hi).map _).congr fun b x => by
      simp only [encodesEntries_iff]
      exact exists_congr fun entries => and_comm

theorem recognizes_tag (hd : ReadsDeeper inner D) (hi : info < 32) :
    (body inner start 6 info).Recognizes fun b x => ∃ d, D = d + 1 ∧ ∃ arg b₁ tag content, b = arg ++ b₁ ∧
      x = .ofTag tag content ∧ Head.Argument (.ofNat info) tag arg ∧ Encodes d b₁ content :=
  ((recognizes_argument start hi).bind fun tag => recognizes_deeper hd fun r d hr =>
    hr.map (Item.ofTag tag)).congr fun b x => by
      constructor
      · intro hw
        obtain ⟨arg, b₁, tag, rfl, ha, d, rfl, content, h, rfl⟩ := hw
        exact ⟨d, rfl, arg, b₁, tag, content, rfl, rfl, ha, h⟩
      · intro hw
        obtain ⟨d, rfl, arg, b₁, tag, content, rfl, rfl, ha, h⟩ := hw
        exact ⟨arg, b₁, tag, rfl, ha, d, rfl, content, h, rfl⟩

theorem body_sound (hd : ReadsDeeper inner D) {major : Nat} (hm : major < 8) (hi : info < 32) {c c' : Cursor}
    {x : Item} (h : body inner start major info c = .ok (x, c')) :
    ∃ b, c.Past b c' ∧ Encodes D (initialByte (.ofNat major) (.ofNat info) :: b) x := by
  match major, hm with
  | 0, _ =>
    obtain ⟨b, hp, v, ha, rfl⟩ := ((recognizes_argument start hi).map Item.unsigned _ _ _).mp h
    exact ⟨b, hp, .unsigned ha⟩
  | 1, _ =>
    obtain ⟨b, hp, m, ha, rfl⟩ := ((recognizes_argument start hi).map Item.negative _ _ _).mp h
    exact ⟨b, hp, .negative ha⟩
  | 2, _ =>
    obtain ⟨_, hp, ⟨rfl, b, chunks, rfl, hs, rfl⟩ | ⟨length, arg, s, rfl, ha, hl, rfl⟩⟩ :=
      (recognizes_bytes hi _ _ _).mp h
    · exact ⟨_, hp, .byteChunks hs⟩
    · exact ⟨_, hp, .bytes (.mk ha hl)⟩
  | 3, _ =>
    obtain ⟨_, hp, ⟨rfl, b, chunks, rfl, hs, rfl⟩ | ⟨length, arg, s, rfl, ha, hl, rfl⟩⟩ :=
      (recognizes_textString hi _ _ _).mp h
    · exact ⟨_, hp, .textChunks hs⟩
    · exact ⟨_, hp, .text (.mk ha hl)⟩
  | 4, _ =>
    obtain ⟨_, hp, d, rfl, items, rfl, ⟨rfl, b, rfl, hs⟩ | ⟨count, arg, b, rfl, ha, hl, hs⟩⟩ :=
      (recognizes_array hd hi _ _ _).mp h
    · exact ⟨_, hp, .arrayToBreak hs⟩
    · exact ⟨_, hp, decide_eq_false (ha.info_ne hi) ▸ .array ha hl hs⟩
  | 5, _ =>
    obtain ⟨_, hp, d, rfl, entries, rfl, ⟨rfl, b, rfl, hs⟩ | ⟨count, arg, b, rfl, ha, hl, hs⟩⟩ :=
      (recognizes_map hd hi _ _ _).mp h
    · exact ⟨_, hp, .mapToBreak hs⟩
    · exact ⟨_, hp, decide_eq_false (ha.info_ne hi) ▸ .map ha hl hs⟩
  | 6, _ =>
    obtain ⟨_, hp, d, rfl, arg, b, tag, content, rfl, rfl, ha, hs⟩ := (recognizes_tag hd hi _ _ _).mp h
    exact ⟨_, hp, .tag ha hs⟩
  | 7, _ =>
    obtain ⟨b, hp, hs⟩ := (recognizes_special start hi _ _ _).mp h
    exact ⟨b, hp, .special hs⟩

theorem body_complete (start : Nat) (hd : ReadsDeeper inner D) : ∀ {w : Bytes} {x : Item}, Encodes D w x →
    ∃ major info b, w = initialByte major info :: b ∧ major.toNat < 8 ∧ info.toNat < 32 ∧
      ∀ {c c' : Cursor}, c.Past b c' → body inner start major.toNat info.toNat c = .ok (x, c')
  | _, _, .unsigned ha => ⟨0, _, _, rfl, by decide, ha.info_lt_32, fun hp =>
      ((recognizes_argument start ha.info_lt_32).map _ _ _ _).mpr ⟨_, hp, _, ha.ofNat_toNat, rfl⟩⟩
  | _, _, .negative ha => ⟨1, _, _, rfl, by decide, ha.info_lt_32, fun hp =>
      ((recognizes_argument start ha.info_lt_32).map _ _ _ _).mpr ⟨_, hp, _, ha.ofNat_toNat, rfl⟩⟩
  | _, _, .bytes (.mk ha hl) => ⟨2, _, _, rfl, by decide, ha.info_lt_32, fun hp =>
      (recognizes_bytes ha.info_lt_32 _ _ _).mpr ⟨_, hp, .inr ⟨_, _, _, rfl, ha.ofNat_toNat, hl, rfl⟩⟩⟩
  | _, _, .byteChunks hs => ⟨2, _, _, rfl, by decide, by decide, fun hp =>
      (recognizes_bytes (by decide) _ _ _).mpr ⟨_, hp, .inl ⟨rfl, _, _, rfl, hs, rfl⟩⟩⟩
  | _, _, .text (.mk ha hl) => ⟨3, _, _, rfl, by decide, ha.info_lt_32, fun hp =>
      (recognizes_textString ha.info_lt_32 _ _ _).mpr ⟨_, hp, .inr ⟨_, _, _, rfl, ha.ofNat_toNat, hl, rfl⟩⟩⟩
  | _, _, .textChunks hs => ⟨3, _, _, rfl, by decide, by decide, fun hp =>
      (recognizes_textString (by decide) _ _ _).mpr ⟨_, hp, .inl ⟨rfl, _, _, rfl, hs, rfl⟩⟩⟩
  | _, _, .array ha hl hs => ⟨4, _, _, rfl, by decide, ha.info_lt_32, fun hp =>
      (recognizes_array hd ha.info_lt_32 _ _ _).mpr ⟨_, hp, _, rfl, _,
        by rw [decide_eq_false (ha.ofNat_toNat.info_ne ha.info_lt_32)],
        .inr ⟨_, _, _, rfl, ha.ofNat_toNat, hl, hs⟩⟩⟩
  | _, _, .arrayToBreak hs => ⟨4, _, _, rfl, by decide, by decide, fun hp =>
      (recognizes_array hd (by decide) _ _ _).mpr ⟨_, hp, _, rfl, _, rfl, .inl ⟨rfl, _, rfl, hs⟩⟩⟩
  | _, _, .map ha hl hs => ⟨5, _, _, rfl, by decide, ha.info_lt_32, fun hp =>
      (recognizes_map hd ha.info_lt_32 _ _ _).mpr ⟨_, hp, _, rfl, _,
        by rw [decide_eq_false (ha.ofNat_toNat.info_ne ha.info_lt_32)],
        .inr ⟨_, _, _, rfl, ha.ofNat_toNat, hl, hs⟩⟩⟩
  | _, _, .mapToBreak hs => ⟨5, _, _, rfl, by decide, by decide, fun hp =>
      (recognizes_map hd (by decide) _ _ _).mpr ⟨_, hp, _, rfl, _, rfl, .inl ⟨rfl, _, rfl, hs⟩⟩⟩
  | _, _, .tag ha hs => ⟨6, _, _, rfl, by decide, ha.info_lt_32, fun hp =>
      (recognizes_tag hd ha.info_lt_32 _ _ _).mpr ⟨_, hp, _, rfl, _, _, _, _, rfl, rfl, ha.ofNat_toNat, hs⟩⟩
  | _, _, .special hs => ⟨7, _, _, rfl, by decide, Nat.lt_trans hs.info_lt (by decide), fun hp =>
      (recognizes_special start (Nat.lt_trans hs.info_lt (by decide)) _ _ _).mpr
        ⟨_, hp, by rwa [UInt8.ofNat_toNat]⟩⟩

end Body

theorem recognizes_itemWith {inner : Option (Reader Item)} {D : Nat} (hd : ReadsDeeper inner D) :
    (itemWith inner).Recognizes (Encodes D) := recognizes_offset fun start c x c' => by
  rw [bind_eq_ok]
  constructor
  · intro hw
    obtain ⟨i, m, hi, h⟩ := hw
    obtain ⟨_, hp, rfl⟩ := (recognizes_byte c i m).mp hi
    have hi := i.toNat_lt
    obtain ⟨b, hp', he⟩ := body_sound hd (by omega) (Nat.mod_lt _ (by decide)) h
    rw [Head.initialByte_eta] at he
    exact ⟨_, hp.trans hp', he⟩
  · rintro ⟨w, hp, h⟩
    obtain ⟨major, info, b, rfl, hm, hi, hb⟩ := body_complete start hd h
    obtain ⟨m, hp₁, hp₂⟩ := Cursor.Past.split (b := [_]) hp
    refine ⟨_, m, (recognizes_byte _ _ _).mpr ⟨_, hp₁, rfl⟩, ?_⟩
    rw [Head.initialByte_div hm hi, Head.initialByte_mod hm hi]
    exact hb hp₂

/-- **The reader of items recognizes the grammar.** -/
theorem recognizes_item : ∀ D, (item D).Recognizes (Encodes D)
  | 0 => recognizes_itemWith .none
  | D + 1 => recognizes_itemWith (.some (recognizes_item D))

end Reader

/-! ## Entry points -/

/-- A run of the decoder in terms of the word that it takes. -/
theorem decodeWithDepth_ok_iff {data : Bytes} {offset D : Nat} {x : Item} {n : Nat} :
    decodeWithDepth data offset D = .ok (x, n) ↔
      ∃ b rest, data.drop offset = b ++ rest ∧ n = offset + b.length ∧ Encodes D b x :=
  (Reader.recognizes_item D).readAt_eq_ok_iff

/-- An item ends past its start, within the data. -/
theorem decodeWithDepth_past {d : Bytes} {offset D n : Nat} {x : Item} (h : decodeWithDepth d offset D = .ok (x, n)) :
    offset < n ∧ n ≤ d.length := by
  obtain ⟨b, rest, hb, rfl, he⟩ := decodeWithDepth_ok_iff.mp h
  have hpos := he.opens.length_pos
  have hlen := Bytes.length_of_drop_eq hb
  omega

theorem decode_of_ok {data : Bytes} {x : Item} {n : Nat} (h : decodeWithOffset data 0 = .ok (x, n)) :
    decode data = if n < data.length then .error (.trailing (data.length - n)) else .ok x := by
  rw [decode_eq, ← decodeWithOffset, h]
  rfl

theorem decode_of_error {data : Bytes} {e : DecodeError} (h : decodeWithOffset data 0 = .error e) :
    decode data = .error e := by
  rw [decode_eq, ← decodeWithOffset, h]
  rfl

theorem decode_of_lt {data : Bytes} {x : Item} {n : Nat} (h : decodeWithOffset data 0 = .ok (x, n))
    (hn : n < data.length) : decode data = .error (.trailing (data.length - n)) := by
  rw [decode_of_ok h, if_pos hn]

/-- The item takes all of the data. -/
theorem decode_eq_ok_iff {data : Bytes} {x : Item} :
    decode data = .ok x ↔ decodeWithOffset data 0 = .ok (x, data.length) := by
  constructor
  · intro h
    cases hf : decodeWithOffset data 0 with
    | error e =>
      rw [decode_of_error hf] at h
      cases h
    | ok q =>
      obtain ⟨y, n⟩ := q
      rw [decode_of_ok hf] at h
      split at h
      · cases h
      · rename_i hlt
        cases h
        rw [Nat.le_antisymm (decodeWithDepth_past hf).2 (Nat.le_of_not_lt hlt)]
  · intro h
    rw [decode_of_ok h, if_neg (Nat.lt_irrefl _)]

/-- **Exactly the encodings are decoded**: an item with an offset after it is the result at an offset if and only if
the bytes between the two offsets encode the item. -/
theorem decodeWithDepth_eq_ok_iff_encodes (data : Bytes) (offset D : Nat) (x : Item) (n : Nat) :
    decodeWithDepth data offset D = .ok (x, n) ↔
      offset < n ∧ n ≤ data.length ∧ Encodes D (data.extract offset n) x := by
  rw [decodeWithDepth_ok_iff]
  constructor
  · intro hw
    obtain ⟨b, rest, hb, rfl, he⟩ := hw
    have hl := Bytes.length_of_drop_eq hb
    have hpos := he.opens.length_pos
    refine ⟨by omega, by omega, ?_⟩
    rwa [Bytes.extract_of_drop_eq hb]
  · rintro ⟨hn, hl, he⟩
    refine ⟨data.extract offset n, data.drop n, ?_, ?_, he⟩
    · have hd : data.drop n = (data.drop offset).drop (n - offset) := by
        rw [List.drop_drop, Nat.add_sub_cancel' (Nat.le_of_lt hn)]
      rw [List.extract_eq_take_drop, hd, List.take_append_drop]
    · rw [List.extract_eq_take_drop, List.length_take, List.length_drop]
      omega

end Cbor
