import Cbor.Proofs.RoundTrip

/-!
# What tells items apart

Equal items feed the same data to a hasher and have the same encoding, and other items do not.

- What an item feeds can be cancelled in front of anything (`feed_append_inj`): each part says how many parts follow it.
  So two items that no hasher tells apart are equal (`beq_iff_forall_hasher`).
- An encoding is decoded under a limit that is great enough for two items, so it belongs to one of them only
  (`encode_inj`); in a map, keys have encodings of their own (`nodup_map_encode`).
-/

namespace Cbor.Item

/-! ## What is fed to a hasher -/

theorem feedBytes_append_inj {a b : Bytes} {s t : List Piece} (h : feedBytes a ++ s = feedBytes b ++ t) :
    a = b ∧ s = t := by
  simp only [feedBytes, List.cons_append, List.nil_append, List.cons.injEq, Piece.bytes.injEq] at h
  exact h.2

/-- As many parts in front of something can be cancelled if each of them can. -/
theorem flatMap_append_inj {α : Type} {f : α → List Piece} (hf : ∀ {a b s t}, f a ++ s = f b ++ t → a = b ∧ s = t)
    {as bs : List α} {s t : List Piece} (hl : as.length = bs.length) (h : as.flatMap f ++ s = bs.flatMap f ++ t) :
    as = bs ∧ s = t := by
  induction as generalizing bs with
  | nil =>
    obtain rfl := List.length_eq_zero_iff.mp hl.symm
    exact ⟨rfl, h⟩
  | cons a as ih =>
    cases bs with
    | nil => cases hl
    | cons b bs =>
      rw [List.flatMap_cons, List.flatMap_cons, List.append_assoc, List.append_assoc] at h
      obtain ⟨rfl, hr⟩ := hf h
      obtain ⟨rfl, rfl⟩ := ih (Nat.succ.inj hl) hr
      exact ⟨rfl, rfl⟩

mutual

/-- What an item feeds says itself where it ends, so it can be cancelled in front of something else. -/
theorem feed_append_inj : ∀ {a b : Item} {s t : List Piece}, feed a ++ s = feed b ++ t → a = b ∧ s = t
  | .array as f, b, s, t, h => by
    cases b with
    | array bs g =>
      simp only [feed, List.cons_append, List.append_assoc, List.nil_append, List.cons.injEq, Piece.count.injEq,
        true_and] at h
      obtain ⟨rfl, hr⟩ := feedItems_append_inj h.1 h.2
      simp only [List.cons.injEq, Piece.flag.injEq] at hr
      exact ⟨hr.1 ▸ rfl, hr.2⟩
    | bool v => cases v <;> simp [feed] at h
    | _ => simp [feed] at h
  | .map as f, b, s, t, h => by
    cases b with
    | map bs g =>
      simp only [feed, List.cons_append, List.append_assoc, List.nil_append, List.cons.injEq, Piece.count.injEq,
        true_and] at h
      obtain ⟨rfl, hr⟩ := feedEntries_append_inj h.1 h.2
      simp only [List.cons.injEq, Piece.flag.injEq] at hr
      exact ⟨hr.1 ▸ rfl, hr.2⟩
    | bool v => cases v <;> simp [feed] at h
    | _ => simp [feed] at h
  | .byteChunks as, b, s, t, h => by
    cases b with
    | byteChunks bs =>
      simp only [feed, List.cons_append, List.cons.injEq, Piece.count.injEq, true_and] at h
      obtain ⟨rfl, hr⟩ := flatMap_append_inj feedBytes_append_inj h.1 h.2
      exact ⟨rfl, hr⟩
    | bool v => cases v <;> simp [feed] at h
    | _ => simp [feed] at h
  | .textChunks as, b, s, t, h => by
    cases b with
    | textChunks bs =>
      simp only [feed, List.cons_append, List.cons.injEq, Piece.count.injEq, true_and] at h
      obtain ⟨hm, hr⟩ := List.append_inj h.2 (by simpa using h.1)
      exact ⟨congrArg _ ((List.map_inj_right fun _ _ => Piece.text.inj).mp hm), hr⟩
    | bool v => cases v <;> simp [feed] at h
    | _ => simp [feed] at h
  | .tagged tag a, b, s, t, h => by
    cases b with
    | tagged tag' b =>
      simp only [feed, List.cons_append, List.cons.injEq, Piece.word64.injEq, true_and] at h
      obtain ⟨rfl, hr⟩ := feed_append_inj h.2
      exact ⟨h.1 ▸ rfl, hr⟩
    | bool v => cases v <;> simp [feed] at h
    | _ => simp [feed] at h
  | .epochTime a, b, s, t, h => by
    cases b with
    | epochTime b =>
      simp only [feed, List.cons_append, List.cons.injEq, true_and] at h
      obtain ⟨rfl, hr⟩ := feed_append_inj h
      exact ⟨rfl, hr⟩
    | bool v => cases v <;> simp [feed] at h
    | _ => simp [feed] at h
  | .bool a, b, s, t, h => by
    cases b with
    | bool b => cases a <;> cases b <;> simp_all [feed]
    | _ => cases a <;> simp [feed] at h
  | .simple ⟨a, _⟩, b, _, _, h | .half ⟨a⟩, b, _, _, h | .single ⟨a⟩, b, _, _, h | .double ⟨a⟩, b, _, _, h => by
    cases b with
    | bool v => cases v <;> simp [feed] at h
    | _ => simp_all [feed]
  | .unsigned _, b, _, _, h | .negative _, b, _, _, h | .bytes _, b, _, _, h | .text _, b, _, _, h
  | .dateTime _, b, _, _, h | .encodedCbor _, b, _, _, h | .fullDate _, b, _, _, h | .null, b, _, _, h
  | .undefined, b, _, _, h | .raw _, b, _, _, h => by
    cases b with
    | bool v => cases v <;> simp [feed] at h
    | _ => simp_all [feed, feedBytes]

theorem feedItems_append_inj : ∀ {as bs : List Item} {s t : List Piece}, as.length = bs.length →
    feedItems as ++ s = feedItems bs ++ t → as = bs ∧ s = t
  | [], [], _, _, _, h => ⟨rfl, h⟩
  | [], _ :: _, _, _, hl, _ | _ :: _, [], _, _, hl, _ => by cases hl
  | a :: as, b :: bs, s, t, hl, h => by
    rw [feedItems, feedItems, List.append_assoc, List.append_assoc] at h
    obtain ⟨rfl, hr⟩ := feed_append_inj h
    obtain ⟨rfl, rfl⟩ := feedItems_append_inj (Nat.succ.inj hl) hr
    exact ⟨rfl, rfl⟩

theorem feedEntries_append_inj : ∀ {as bs : List (Item × Item)} {s t : List Piece}, as.length = bs.length →
    feedEntries as ++ s = feedEntries bs ++ t → as = bs ∧ s = t
  | [], [], _, _, _, h => ⟨rfl, h⟩
  | [], _ :: _, _, _, hl, _ | _ :: _, [], _, _, hl, _ => by cases hl
  | (k, v) :: as, (k', v') :: bs, s, t, hl, h => by
    simp only [feedEntries, List.append_assoc] at h
    obtain ⟨rfl, hv⟩ := feed_append_inj h
    obtain ⟨rfl, hr⟩ := feed_append_inj hv
    obtain ⟨rfl, rfl⟩ := feedEntries_append_inj (Nat.succ.inj hl) hr
    exact ⟨rfl, rfl⟩

end

theorem feed_inj {a b : Item} : feed a = feed b ↔ a = b := by
  refine ⟨fun h => (feed_append_inj (s := []) (t := []) ?_).1, fun h => h ▸ rfl⟩
  rw [h]

/-- Two items are equal if and only if every hasher ends in the same state behind them. -/
theorem beq_iff_forall_hasher {a b : Item} : beq a b = true ↔
    ∀ {σ : Type} (step : σ → Piece → σ) (start : σ), a.feed.foldl step start = b.feed.foldl step start := by
  rw [beq_iff]
  constructor
  · rintro rfl σ step start
    rfl
  · intro h
    -- a hasher that keeps all that it is fed
    have hk := h (fun kept piece => piece :: kept) []
    rw [List.foldl_flip_cons_eq_append, List.foldl_flip_cons_eq_append] at hk
    exact feed_inj.mp (by simpa using hk)

/-! ## What is encoded -/

theorem encode_inj {a b : Item} (ha : a.WellFormed) (hb : b.WellFormed) (hla : a.encode.length < 2 ^ 64)
    (hlb : b.encode.length < 2 ^ 64) : a.encode = b.encode ↔ a = b := by
  refine ⟨fun h => ?_, fun h => h ▸ rfl⟩
  have hda := decodeWithDepth_encode ha (s := []) (by rwa [List.append_nil]) (Nat.le_max_left a.nesting b.nesting)
  have hdb := decodeWithDepth_encode hb (s := []) (by rwa [List.append_nil]) (Nat.le_max_right a.nesting b.nesting)
  rw [h, hdb] at hda
  exact (Prod.mk.inj (Except.ok.inj hda)).1.symm

theorem beq_iff_encode {a b : Item} (ha : a.WellFormed) (hb : b.WellFormed) (hla : a.encode.length < 2 ^ 63)
    (hlb : b.encode.length < 2 ^ 63) : beq a b = true ↔ a.encode = b.encode := by
  rw [beq_iff, encode_inj ha hb (Nat.lt_trans hla (by decide)) (Nat.lt_trans hlb (by decide))]

theorem nodup_map_encode {entries : List (Item × Item)} {indefinite : Bool} (hw : (map entries indefinite).WellFormed)
    (hl : ∀ key ∈ keysOf entries, key.encode.length < 2 ^ 63) : ((keysOf entries).map encode).Nodup := by
  have hk : ∀ key ∈ keysOf entries, key.WellFormed := by
    intro key hm
    obtain ⟨e, he, rfl⟩ := List.mem_map.mp hm
    exact (wellFormedEntries_iff.mp hw.2 e he).1
  refine List.pairwise_map.mpr (hw.1.imp_of_mem fun ha hb hne h => hne ?_)
  exact beq_iff.mp ((beq_iff_encode (hk _ ha) (hk _ hb) (hl _ ha) (hl _ hb)).mpr h)

/-- **Equality, hashes and encodings tell the same items apart.** -/
theorem equality_agrees :
    (Equivalence fun a b : Item => beq a b = true) ∧
    (∀ a b : Item, beq a b = true ↔
      ∀ {σ : Type} (step : σ → Piece → σ) (start : σ), a.feed.foldl step start = b.feed.foldl step start) ∧
    (∀ a b : Item, a.WellFormed → b.WellFormed → a.encode.length < 2 ^ 63 → b.encode.length < 2 ^ 63 →
      (beq a b = true ↔ a.encode = b.encode)) ∧
    ∀ (entries : List (Item × Item)) (indefinite : Bool), (map entries indefinite).WellFormed →
      (∀ key ∈ keysOf entries, key.encode.length < 2 ^ 63) → ((keysOf entries).map encode).Nodup := by
  refine ⟨⟨beq_refl, fun h => ?_, fun h h' => ?_⟩, fun _ _ => beq_iff_forall_hasher,
    fun _ _ => beq_iff_encode, fun _ _ => nodup_map_encode⟩
  · rw [beq_iff.mp h]
    exact beq_refl _
  · rw [beq_iff.mp h, beq_iff.mp h']
    exact beq_refl _

/-- Two arrays with the same element, one of them open; a map with a float that is not a number for a key. -/
theorem equality_agrees_open :
    ¬beq (.array [.null] false) (.array [.null] true) = true ∧ [[0xF9, 0x7E, 0x01], ([0xF5] : Bytes)].Nodup := by
  obtain ⟨-, -, he, hk⟩ := equality_agrees
  have hb := he (.array [.null] false) (.array [.null] true) ⟨trivial, trivial⟩ ⟨trivial, trivial⟩ (by decide)
    (by decide)
  refine ⟨fun h => absurd (hb.mp h) (by decide), ?_⟩
  refine hk [(.half ⟨0x7E01⟩, .null), (.bool true, .encodedCbor [0xF6])] false ⟨by decide, ?_⟩ (by decide)
  exact ⟨trivial, trivial, trivial, trivial, trivial⟩

end Cbor.Item
