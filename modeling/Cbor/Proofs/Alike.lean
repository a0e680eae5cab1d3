import Cbor.Proofs.Rendering

/-!
# Items that no text tells apart

- `Item.Alike R`: two items of one structure, which differ only where `R` relates what stands in the one to what stands
  in its place in the other. An item with a place left open is a `Item.Context`; it makes alike what it makes of items
  that are related (`Item.Context.alike_fill`).
- `Diagnostic.Indistinct o`: under the options `o`, two items have the same text wherever they are printed, and are laid
  out in the same way. This passes from what is related to all that is alike (`Diagnostic.Indistinct.of_alike`).
- On one line, data is indistinct from the item that it encodes (`indistinct_raw`), wherever the one stands in place of
  the other (`Item.diagnostic_fill_raw`).
- Where byte strings are shown by their length alone, nothing is told of what is in them, also in chunks and in data
  that encodes no item (`indistinct_of_concealed`, `Item.diagnostic_eq_of_concealed`).
-/

namespace Cbor

namespace Item

/-! ## Items of one structure -/

mutual

/-- Two items of one structure, the same but for what `R` relates. -/
inductive Alike (R : Item → Item → Prop) : Item → Item → Prop
  | related {x y : Item} : R x y → Alike R x y
  | same (x : Item) : Alike R x x
  | array {items items' : List Item} {indefinite : Bool} : AlikeItems R items items' →
      Alike R (.array items indefinite) (.array items' indefinite)
  | map {entries entries' : List (Item × Item)} {indefinite : Bool} : AlikeEntries R entries entries' →
      Alike R (.map entries indefinite) (.map entries' indefinite)
  | tagged {tag : UInt64} {x y : Item} : Alike R x y → Alike R (.tagged tag x) (.tagged tag y)
  | epochTime {x y : Item} : Alike R x y → Alike R (.epochTime x) (.epochTime y)

/-- Lists of items that are alike one by one. -/
inductive AlikeItems (R : Item → Item → Prop) : List Item → List Item → Prop
  | nil : AlikeItems R [] []
  | cons {x y : Item} {items items' : List Item} : Alike R x y → AlikeItems R items items' →
      AlikeItems R (x :: items) (y :: items')

/-- Lists of entries whose keys and whose values are alike one by one. -/
inductive AlikeEntries (R : Item → Item → Prop) : List (Item × Item) → List (Item × Item) → Prop
  | nil : AlikeEntries R [] []
  | cons {key key' value value' : Item} {entries entries' : List (Item × Item)} : Alike R key key' →
      Alike R value value' → AlikeEntries R entries entries' →
      AlikeEntries R ((key, value) :: entries) ((key', value') :: entries')

end

section Lists

variable {R : Item → Item → Prop} {x y key key' value value' : Item}

theorem alikeItems_refl (items : List Item) : AlikeItems R items items := by
  induction items with
  | nil => exact .nil
  | cons x _ ih => exact .cons (.same x) ih

theorem alikeItems_surround (before after : List Item) (h : Alike R x y) :
    AlikeItems R (before ++ x :: after) (before ++ y :: after) := by
  induction before with
  | nil => exact .cons h (alikeItems_refl after)
  | cons z _ ih => exact .cons (.same z) ih

theorem alikeEntries_refl (entries : List (Item × Item)) : AlikeEntries R entries entries := by
  induction entries with
  | nil => exact .nil
  | cons e _ ih => exact .cons (.same e.1) (.same e.2) ih

theorem alikeEntries_surround (before after : List (Item × Item)) (hk : Alike R key key') (hv : Alike R value value') :
    AlikeEntries R (before ++ (key, value) :: after) (before ++ (key', value') :: after) := by
  induction before with
  | nil => exact .cons hk hv (alikeEntries_refl after)
  | cons e _ ih => exact .cons (.same e.1) (.same e.2) ih

theorem AlikeItems.map_eq {α : Type} {f : Item → α} (hf : ∀ {x y}, Alike R x y → f x = f y) {items items' : List Item}
    (h : AlikeItems R items items') : items.map f = items'.map f := by
  induction items generalizing items' with
  | nil =>
    cases h
    rfl
  | cons x xs ih =>
    cases h with
    | cons hx hxs => rw [List.map_cons, List.map_cons, hf hx, ih hxs]

theorem AlikeEntries.map_eq {α : Type} {f : Item → Item → α}
    (hf : ∀ {key key' value value'}, Alike R key key' → Alike R value value' → f key value = f key' value')
    {entries entries' : List (Item × Item)} (h : AlikeEntries R entries entries') :
    entries.map (fun e => f e.1 e.2) = entries'.map fun e => f e.1 e.2 := by
  induction entries generalizing entries' with
  | nil =>
    cases h
    rfl
  | cons e es ih =>
    cases h with
    | cons hk hv hes => rw [List.map_cons, List.map_cons, ih hes, hf hk hv]

/-- Keys and values in one list. -/
theorem AlikeEntries.parts {entries entries' : List (Item × Item)} (h : AlikeEntries R entries entries') :
    AlikeItems R (entries.flatMap fun e => [e.1, e.2]) (entries'.flatMap fun e => [e.1, e.2]) := by
  induction entries generalizing entries' with
  | nil =>
    cases h
    exact .nil
  | cons e es ih =>
    cases h with
    | cons hk hv hes => exact .cons hk (.cons hv (ih hes))

end Lists

/-! ## Contexts -/

/-- An item with a place left open in it. -/
inductive Context where
  /-- The place is all there is. -/
  | hole
  | element (before : List Item) (inner : Context) (after : List Item) (indefinite : Bool)
  | key (before : List (Item × Item)) (inner : Context) (value : Item) (after : List (Item × Item)) (indefinite : Bool)
  | value (before : List (Item × Item)) (key : Item) (inner : Context) (after : List (Item × Item)) (indefinite : Bool)
  | content (tag : UInt64) (inner : Context)
  | time (inner : Context)

namespace Context

/-- The item with something in the open place. -/
def fill : Context → Item → Item
  | .hole, x => x
  | .element before inner after indefinite, x => .array (before ++ inner.fill x :: after) indefinite
  | .key before inner v after indefinite, x => .map (before ++ (inner.fill x, v) :: after) indefinite
  | .value before k inner after indefinite, x => .map (before ++ (k, inner.fill x) :: after) indefinite
  | .content tag inner, x => .tagged tag (inner.fill x)
  | .time inner, x => .epochTime (inner.fill x)

theorem alike_fill {R : Item → Item → Prop} {x y : Item} (c : Context) (h : R x y) :
    Alike R (c.fill x) (c.fill y) := by
  induction c with
  | hole => exact .related h
  | element before _ after _ ih => exact .array (alikeItems_surround before after ih)
  | key before _ v after _ ih => exact .map (alikeEntries_surround before after ih (.same v))
  | value before k _ after _ ih => exact .map (alikeEntries_surround before after (.same k) ih)
  | content _ _ ih => exact .tagged ih
  | time _ ih => exact .epochTime ih

end Context

end Item

/-! ## Texts -/

namespace Diagnostic

open Item (Alike AlikeItems AlikeEntries)

/-- Two items have the same text under every budget at every indentation and, where several lines are allowed, both of
them keep a container from standing on one line or neither does. -/
def Indistinct (o : Options) (x y : Item) : Prop :=
  (∀ budget indent, item o budget indent x = item o budget indent y) ∧
    (o.pretty = true → x.isCompound = y.isCompound)

section Indistinct

variable {o : Options} {R : Item → Item → Prop} {x y : Item}

theorem Alike.isCompound_eq (hR : ∀ {x y}, R x y → x.isCompound = y.isCompound) :
    ∀ {x y : Item}, Alike R x y → x.isCompound = y.isCompound
  | _, _, .related h => hR h
  | _, _, .same _ | _, _, .array _ | _, _, .map _ => rfl
  | _, _, .tagged h | _, _, .epochTime h => (Alike.isCompound_eq hR h :)

/-- Only which of the parts are containers counts. -/
theorem isInline_congr (o : Options) {parts parts' : List Item}
    (h : parts.map Item.isCompound = parts'.map Item.isCompound) (count : Nat) :
    isInline o parts count = isInline o parts' count := by
  have ha : ∀ parts : List Item, parts.all (!·.isCompound) = (parts.map Item.isCompound).all (!·) := fun parts => by
    rw [List.all_map]
    rfl
  rw [isInline, isInline, ha, ha, h]

/-- Lists of items that are alike take one line, or several. -/
theorem isInline_alike (hR : ∀ {x y}, R x y → Indistinct o x y) {items items' : List Item}
    (h : AlikeItems R items items') (count : Nat) : isInline o items count = isInline o items' count := by
  cases hp : o.pretty with
  | false => simp only [isInline, hp, Bool.not_false, Bool.true_or]
  | true =>
    exact isInline_congr o (h.map_eq fun hx => Alike.isCompound_eq (fun hr => (hR hr).2 hp) hx) count

theorem shape_array_alike (hR : ∀ {x y}, R x y → Indistinct o x y) {p : Printer} {indent : Nat}
    (hp : ∀ {x y}, Alike R x y → p (indent + 1) x = p (indent + 1) y) {items items' : List Item} {indefinite : Bool}
    (h : AlikeItems R items items') :
    shape o (some p) indent (.array items indefinite) = shape o (some p) indent (.array items' indefinite) := by
  have ht := h.map_eq hp
  have hl : items.length = items'.length := by simpa using congrArg List.length ht
  show container _ _ _ (isInline o items _) _ (items.map _) = container _ _ _ (isInline o items' _) _ (items'.map _)
  rw [ht, hl, isInline_alike hR h]

theorem shape_map_alike (hR : ∀ {x y}, R x y → Indistinct o x y) {p : Printer} {indent : Nat}
    (hp : ∀ {x y}, Alike R x y → p (indent + 1) x = p (indent + 1) y) {entries entries' : List (Item × Item)}
    {indefinite : Bool} (h : AlikeEntries R entries entries') :
    shape o (some p) indent (.map entries indefinite) = shape o (some p) indent (.map entries' indefinite) := by
  have ht := h.map_eq (f := fun k v => p (indent + 1) k ++ ':' :: ' ' :: p (indent + 1) v) fun hk hv => by
    rw [hp hk, hp hv]
  have hl : entries.length = entries'.length := by simpa using congrArg List.length ht
  show container _ _ _ (isInline o _ entries.length) _ (entries.map fun e => _) =
    container _ _ _ (isInline o _ entries'.length) _ (entries'.map fun e => _)
  rw [ht, hl, isInline_alike hR h.parts]

/-- **What is alike has the same text if what is related has.** -/
theorem item_alike (hR : ∀ {x y}, R x y → Indistinct o x y) {budget indent : Nat} {x y : Item} (h : Alike R x y) :
    item o budget indent x = item o budget indent y := by
  induction budget generalizing indent x y with
  | zero =>
    cases h with
    | related h => exact (hR h).1 0 indent
    | same | array _ | map _ | tagged _ | epochTime _ => rfl
  | succ budget ih =>
    cases h with
    | related h => exact (hR h).1 _ indent
    | same => rfl
    | array h => exact shape_array_alike hR ih h
    | map h => exact shape_map_alike hR ih h
    | tagged h => exact congrArg (tagged _) (ih h)
    | epochTime h => exact congrArg (tagged _) (ih h)

theorem Indistinct.of_alike (hR : ∀ {x y}, R x y → Indistinct o x y) (h : Alike R x y) : Indistinct o x y :=
  ⟨fun _ _ => item_alike hR h, fun hp => Alike.isCompound_eq (fun hr => (hR hr).2 hp) h⟩

theorem Indistinct.diagnostic_eq (h : Indistinct o x y) : x.diagnostic o = y.diagnostic o :=
  congrArg String.ofList (h.1 maxDepth 0)

end Indistinct

/-! ## Encoded data -/

/-- Data is printed as the item that it encodes, but it is laid out as no container. -/
theorem indistinct_raw {o : Options} {b : Bytes} {x : Item} (h : decode b = .ok x)
    (hc : o.pretty = true → x.isCompound = false) : Indistinct o (.raw b) x := by
  have hs : (Item.raw b).shown = x := by rw [Item.shown, h]
  refine ⟨fun budget indent => ?_, fun hp => (hc hp).symm⟩
  rw [← item_shown, hs]

end Diagnostic

/-- **On one line, encoded data is printed as the item in its place would be**, wherever that stands. -/
theorem Item.diagnostic_fill_raw (c : Item.Context) {x : Item} (hx : x.WellFormed) (hn : x.nesting ≤ maxDepth)
    (hl : x.encode.length < 2 ^ 63) (bytesLengthOnly : Bool) :
    (c.fill (.raw x.encode)).diagnostic ⟨false, bytesLengthOnly⟩ = (c.fill x).diagnostic ⟨false, bytesLengthOnly⟩ := by
  have hd : decode x.encode = .ok x := decode_encode hx (Nat.lt_trans hl (by decide)) hn
  have hr : ∀ {y z}, y = .raw x.encode ∧ z = x → Diagnostic.Indistinct ⟨false, bytesLengthOnly⟩ y z := by
    rintro _ _ ⟨rfl, rfl⟩
    exact Diagnostic.indistinct_raw hd fun hp => Bool.noConfusion hp
  exact (Diagnostic.Indistinct.of_alike hr (c.alike_fill ⟨rfl, rfl⟩)).diagnostic_eq

/-- Data for a tagged value of a map that stands in an array; what it encodes nests further. -/
theorem Item.diagnostic_fill_raw_nested :
    let c : Item.Context := .element [.null] (.value [] (.text "k") (.content 5 .hole) [] true) [] false
    let x : Item := .array [.bytes [1, 2], .tagged 9 (.array [] true)] false
    x.WellFormed ∧ x.nesting ≤ maxDepth ∧ x.encode.length < 2 ^ 63 ∧
      (c.fill (.raw x.encode)).diagnostic ⟨false, true⟩ = "[null, \x7b_ \"k\": 5([<2 bytes>, 9([_])])\x7d]" := by
  intro c x
  have hx : x.WellFormed := ⟨trivial, ⟨rfl, trivial⟩, trivial⟩
  have hn : x.nesting ≤ maxDepth := by decide
  have hl : x.encode.length < 2 ^ 63 := by decide
  refine ⟨hx, hn, hl, (Item.diagnostic_fill_raw c hx hn hl true).trans ?_⟩
  decide +kernel

/-! ## Contents of byte strings -/

/-- Two items that differ in the bytes of a byte string, of its chunks or of data that encodes no item, and not in how
many they are. -/
inductive Item.Concealed : Item → Item → Prop
  | bytes {b b' : Bytes} : b.length = b'.length → Concealed (.bytes b) (.bytes b')
  | byteChunks {chunks chunks' : List Bytes} : chunks.map List.length = chunks'.map List.length →
      Concealed (.byteChunks chunks) (.byteChunks chunks')
  | raw {b b' : Bytes} {e e' : DecodeError} : decode b = .error e → decode b' = .error e' → b.length = b'.length →
      Concealed (.raw b) (.raw b')

namespace Diagnostic

variable {o : Options}

/-- By its length alone a byte string is shown as one of as many zeros. -/
theorem bytes_eq_of_lengthOnly (h : o.bytesLengthOnly = true) (b : Bytes) :
    bytes o b = bytes o (List.replicate b.length 0) := by
  rw [bytes, bytes, if_pos h, if_pos h, List.length_replicate]

theorem bytes_congr (h : o.bytesLengthOnly = true) {b b' : Bytes} (hl : b.length = b'.length) :
    bytes o b = bytes o b' := by
  rw [bytes_eq_of_lengthOnly h b, hl, ← bytes_eq_of_lengthOnly h]

theorem map_bytes_congr (h : o.bytesLengthOnly = true) {chunks chunks' : List Bytes}
    (hl : chunks.map List.length = chunks'.map List.length) : chunks.map (bytes o) = chunks'.map (bytes o) := by
  have he : ∀ chunks : List Bytes,
      chunks.map (bytes o) = (chunks.map List.length).map fun n => bytes o (List.replicate n 0) := fun chunks => by
    rw [List.map_map]
    exact List.map_congr_left fun b _ => bytes_eq_of_lengthOnly h b
  rw [he, he, hl]

theorem item_raw_of_error {b : Bytes} {e : DecodeError} (h : decode b = .error e) (budget indent : Nat) :
    item o budget indent (.raw b) = bytes o b := by
  rw [item_eq, Item.shown, h]
  rfl

theorem indistinct_of_concealed (h : o.bytesLengthOnly = true) {x y : Item} (hc : x.Concealed y) :
    Indistinct o x y := by
  cases hc with
  | bytes hl =>
    refine ⟨fun budget indent => ?_, fun _ => rfl⟩
    rw [item_eq, item_eq]
    exact bytes_congr h hl
  | byteChunks hl =>
    refine ⟨fun budget indent => ?_, fun _ => rfl⟩
    rw [item_eq, item_eq]
    exact congrArg chunks (map_bytes_congr h hl)
  | raw he he' hl =>
    refine ⟨fun budget indent => ?_, fun _ => rfl⟩
    rw [item_raw_of_error he, item_raw_of_error he', bytes_congr h hl]

end Diagnostic

/-- **What is shown by its length alone is not shown**: items that differ in such bytes only, wherever they stand, have
the same text on one line as on several. -/
theorem Item.diagnostic_eq_of_concealed {x y : Item} (h : x.Alike Concealed y) (pretty : Bool) :
    x.diagnostic ⟨pretty, true⟩ = y.diagnostic ⟨pretty, true⟩ :=
  (Diagnostic.Indistinct.of_alike (Diagnostic.indistinct_of_concealed rfl) h).diagnostic_eq

/-- A key, chunks under a tag, and data that no item begins with: shown in full, the two are told apart. -/
theorem Item.diagnostic_eq_of_concealed_everywhere :
    let x : Item := .map [(.bytes [1], .tagged 5 (.byteChunks [[1, 2], [3]])), (.null, .array [.raw [0xFF]] true)] false
    let y : Item := .map [(.bytes [7], .tagged 5 (.byteChunks [[0, 0], [9]])), (.null, .array [.raw [0x1C]] true)] false
    x.Alike Concealed y ∧ x.diagnostic ⟨true, true⟩ = y.diagnostic ⟨true, true⟩ ∧
      x.diagnostic ⟨false, true⟩ = y.diagnostic ⟨false, true⟩ ∧ x.diagnostic .default ≠ y.diagnostic .default := by
  intro x y
  have hr : AlikeItems Concealed [.raw [0xFF]] [.raw [0x1C]] := .cons (.related (.raw rfl rfl rfl)) .nil
  have h : x.Alike Concealed y :=
    .map (.cons (.related (.bytes rfl)) (.tagged (.related (.byteChunks rfl))) (.cons (.same _) (.array hr) .nil))
  exact ⟨h, Item.diagnostic_eq_of_concealed h true, Item.diagnostic_eq_of_concealed h false, by decide +kernel⟩

end Cbor
