import Cbor.Proofs.Rendering

/-!
# Printing onto a page

The diagnostic text as it is printed, piece by piece, onto a page that also holds the budget. Items call for the
printing of other items; a run ends without a result if it would need a chain of calls that is longer than allowed.

- `Press`, the steps of printing, and `Press.item`, an item.
- `Press.Appends`: a step ends, adds a text behind whatever the page holds, and leaves the budget as it was. The steps
  have this one after the other (`Press.Appends.seq`), in loops (`Press.appends_each`, `Press.appends_sequence`) and
  one level deeper (`Press.appends_nested`).
- What is decoded holds no encoded data of that kind, so a chain of calls is at most one call longer than the chain of
  levels (`Press.appends_item_wellFormed`, `Press.appends_item`, `Press.run_item`).
-/

namespace Cbor

namespace Diagnostic

/-- What printing changes. -/
structure Page where
  /-- The text so far. -/
  out : List Char
  /-- How many arrays, maps and tags may still nest. -/
  remaining : Nat

/-- A step of printing; it has no result if a chain of calls would grow too long. -/
abbrev Press := StateT Page Option

namespace Press

/-! ## Steps -/

/-- Adds text to the page. -/
def write (s : List Char) : Press Unit := modify fun page => { page with out := page.out ++ s }

/-- Prints one level deeper, or an error if the budget is spent. -/
def nested (content : Press Unit) : Press Unit := do
  match (← get).remaining with
  | 0 => write (error DecodeError.tooDeep.message)
  | remaining + 1 => do
    modify fun page => { page with remaining }
    content
    modify fun page => { page with remaining := page.remaining + 1 }

section Loops

variable {α : Type}

/-- Prints parts in order, each after what leads to it; that may differ for the first. -/
def each (lead : (first : Bool) → List Char) (print : α → Press Unit) : (first : Bool) → List α → Press Unit
  | _, [] => pure ()
  | first, x :: xs => do
    write (lead first)
    print x
    each lead print false xs

/-- A comma leads to every part but the first. -/
def comma (first : Bool) : List Char := if first then [] else [',', ' ']

/-- On one line a comma leads to every element but the first, and a space to the first behind a mark; else each begins
a line. -/
def leadTo (indefinite inline : Bool) (indent : Nat) (first : Bool) : List Char :=
  if inline then if first && indefinite then [' '] else comma first
  else (if first then [] else [',']) ++ newline (indent + 1)

/-- Prints a container. -/
def sequence (opening closing : Char) (indefinite inline : Bool) (indent : Nat) (xs : List α) (print : α → Press Unit) :
    Press Unit := do
  write [opening]
  write (if indefinite then ['_'] else [])
  each (leadTo indefinite inline indent) print true xs
  write (if !inline && !xs.isEmpty then newline indent else [])
  write [closing]

end Loops

/-! ## Items -/

/-- An item that calls for others by `call`. -/
def itemWith (o : Options) (call : Nat → Item → Press Unit) (indent : Nat) : Item → Press Unit
  | .unsigned v => write (number v.toNat)
  | .negative m => write (number (-1 - m.toNat))
  | .bytes b => write (bytes o b)
  | .byteChunks pieces => do
    write "(_ ".toList
    each comma (fun b => write (bytes o b)) true pieces
    write [')']
  | .text s => write (text s)
  | .textChunks pieces => do
    write "(_ ".toList
    each comma (fun s => write (text s)) true pieces
    write [')']
  | .array items indefinite =>
    nested (sequence '[' ']' indefinite (isInline o items items.length) indent items (call (indent + 1)))
  | .map entries indefinite =>
    nested (sequence '\x7b' '\x7d' indefinite (isInline o (entries.flatMap fun e => [e.1, e.2]) entries.length) indent
      entries fun (k, v) => do
        call (indent + 1) k
        write [':', ' ']
        call (indent + 1) v)
  | .tagged tag content => do
    write (number tag.toNat ++ ['('])
    nested (call indent content)
    write [')']
  | .dateTime s => do
    write (number dateTimeTag.toNat ++ ['('])
    write (text s)
    write [')']
  | .epochTime content => do
    write (number epochTimeTag.toNat ++ ['('])
    nested (call indent content)
    write [')']
  | .encodedCbor b => do
    write (number encodedCborTag.toNat ++ ['(', '<', '<'])
    nested (match decodeSequence b with
      | .ok items => each comma (call indent) true items
      | .error e => write (error e.message))
    write ['>', '>', ')']
  | .fullDate s => do
    write (number fullDateTag.toNat ++ ['('])
    write (text s)
    write [')']
  | .bool b => write (if b then "true" else "false").toList
  | .null => write "null".toList
  | .undefined => write "undefined".toList
  | .simple s => write s.text.toList
  | .half x => write (float .binary32 x.toBinary32.bits.toNat)
  | .single x => write (float .binary32 x.bits.toNat)
  | .double x => write (float .binary64 x.bits.toNat)
  | .raw b =>
    match decode b with
    | .ok y => call indent y
    | .error _ => write (bytes o b)

/-- An item, with chains of at most `calls` calls of items within one another, this one included. -/
def item (o : Options) : (calls indent : Nat) → Item → Press Unit
  | 0, _, _ => fun _ => none
  | calls + 1, indent, x => itemWith o (item o calls) indent x

/-! ## Appending -/

/-- Under the budget the step ends, adds the text to the page, whatever is there, and leaves the budget. -/
def Appends (act : Press Unit) (remaining : Nat) (text : List Char) : Prop :=
  ∀ out, act ⟨out, remaining⟩ = some ((), ⟨out ++ text, remaining⟩)

variable {act act' : Press Unit} {r : Nat} {s t : List Char}

theorem Appends.seq (h : Appends act r s) (h' : Appends act' r t) : Appends (act >>= fun _ => act') r (s ++ t) := by
  intro out
  show (act ⟨out, r⟩).bind (fun q => act' q.2) = _
  rw [h, Option.bind_some, h', List.append_assoc]

theorem appends_pure (r : Nat) : Appends (pure ()) r [] := fun out => by
  rw [List.append_nil]
  rfl

theorem appends_write (r : Nat) (s : List Char) : Appends (write s) r s := fun _ => rfl

theorem Appends.congr (h : Appends act r s) (hs : s = t) : Appends act r t := hs ▸ h

/-- One level deeper, the budget is less by one, and as it was behind. -/
theorem appends_nested {o : Options} {content : Printer → List Char}
    (h : ∀ r', r = r' + 1 → Appends act r' (content (Diagnostic.item o r'))) :
    Appends (nested act) r (deeper (within o r) content) := by
  intro out
  cases r with
  | zero => rfl
  | succ r =>
    show (act ⟨out, r⟩).bind (fun q => some ((), { q.2 with remaining := q.2.remaining + 1 })) = _
    rw [h r rfl]
    rfl

theorem appends_tagged {tag : UInt64} (h : Appends act r s) :
    Appends (write (number tag.toNat ++ ['(']) >>= fun _ => act >>= fun _ => write [')']) r (tagged tag s) := by
  refine ((appends_write r _).seq (h.seq (appends_write r _))).congr ?_
  rw [tagged, List.append_assoc]
  rfl

section Loops

variable {α : Type} {print : α → Press Unit} {text : α → List Char} {xs : List α}

theorem appends_each_next (lead : Bool → List Char) (h : ∀ x ∈ xs, Appends (print x) r (text x)) :
    Appends (each lead print false xs) r (xs.flatMap fun x => lead false ++ text x) := by
  induction xs with
  | nil => exact appends_pure r
  | cons x xs ih =>
    obtain ⟨hx, hxs⟩ := List.forall_mem_cons.mp h
    refine ((appends_write r _).seq (hx.seq (ih hxs))).congr ?_
    rw [List.flatMap_cons, List.append_assoc]

theorem appends_each {lead : Bool → List Char} (h : ∀ x ∈ xs, Appends (print x) r (text x)) (ht : xs = [] → t = [])
    (hc : ∀ y ys, xs = y :: ys → t = lead true ++ (text y ++ ys.flatMap fun x => lead false ++ text x)) :
    Appends (each lead print true xs) r t := by
  cases xs with
  | nil => exact (appends_pure r).congr (ht rfl).symm
  | cons x xs =>
    obtain ⟨hx, hxs⟩ := List.forall_mem_cons.mp h
    exact ((appends_write r _).seq (hx.seq (appends_each_next lead hxs))).congr (hc x xs rfl).symm

theorem appends_commas (h : ∀ x ∈ xs, Appends (print x) r (text x)) :
    Appends (each comma print true xs) r (commaSeparated (xs.map text)) := by
  refine appends_each h ?_ ?_
  · rintro rfl
    rfl
  · rintro x xs rfl
    rw [List.map_cons, commaSeparated, intercalate_cons, List.flatMap_map]
    rfl

theorem appends_onOneLine (indefinite : Bool) (indent : Nat) (h : ∀ x ∈ xs, Appends (print x) r (text x)) :
    Appends (each (leadTo indefinite true indent) print true xs) r (onOneLine indefinite (xs.map text)) := by
  refine appends_each h ?_ ?_
  · rintro rfl
    cases indefinite <;> rfl
  · rintro x xs rfl
    rw [List.map_cons, onOneLine, commaSeparated, intercalate_cons, List.flatMap_map]
    cases indefinite <;> rfl

theorem appends_onLines (indefinite : Bool) (indent : Nat) (h : ∀ x ∈ xs, Appends (print x) r (text x)) :
    Appends (each (leadTo indefinite false indent) print true xs) r
      ([','].intercalate ((xs.map text).map (newline (indent + 1) ++ ·))) := by
  refine appends_each h ?_ ?_
  · rintro rfl
    rfl
  · rintro x xs rfl
    rw [List.map_cons, List.map_cons, intercalate_cons, List.flatMap_map, List.flatMap_map, List.append_assoc]
    simp only [leadTo, Bool.false_eq_true, if_false, if_true, List.nil_append, List.append_assoc]

theorem appends_chunks (pieces : List α) (text : α → List Char) :
    Appends (write "(_ ".toList >>= fun _ => each comma (fun p => write (text p)) true pieces >>= fun _ => write [')'])
      r (chunks (pieces.map text)) := by
  refine ((appends_write r _).seq ((appends_commas fun p _ => appends_write r (text p)).seq
    (appends_write r _))).congr ?_
  rw [chunks, List.append_assoc]

theorem appends_sequence (opening closing : Char) (indefinite inline : Bool) (indent : Nat)
    (h : ∀ x ∈ xs, Appends (print x) r (text x)) :
    Appends (sequence opening closing indefinite inline indent xs print) r
      (container opening closing indefinite inline indent (xs.map text)) := by
  have hs : ∀ {t : List Char}, Appends (each (leadTo indefinite inline indent) print true xs) r t →
      t ++ (if !inline && !xs.isEmpty then newline indent else []) =
        (if inline then onOneLine indefinite (xs.map text) else onLines indent (xs.map text)) →
      Appends (sequence opening closing indefinite inline indent xs print) r
        (container opening closing indefinite inline indent (xs.map text)) := by
    intro t ht he
    refine ((appends_write r _).seq ((appends_write r _).seq
      (ht.seq ((appends_write r _).seq (appends_write r [closing]))))).congr ?_
    rw [container, ← he, ← List.append_assoc t, ← List.append_assoc (if indefinite then ['_'] else [])]
    rfl
  cases inline with
  | true => exact hs (appends_onOneLine indefinite indent h) (List.append_nil _)
  | false =>
    refine hs (appends_onLines indefinite indent h) ?_
    cases xs <;> rfl

end Loops

/-! ## Chains of calls -/

variable {o : Options} {indent : Nat} {x : Item}

/-- An item is printed if its parts are, with one less in the budget. -/
theorem appends_itemWith {call : Nat → Item → Press Unit} (hr : ∀ b, x ≠ .raw b)
    (hc : ∀ r', r = r' + 1 → ∀ s y, Part s y x →
      Appends (call (indent + s) y) r' (Diagnostic.item o r' (indent + s) y)) :
    Appends (itemWith o call indent x) r (shape o (within o r) indent x) := by
  cases x with
  | byteChunks pieces => exact appends_chunks pieces (bytes o)
  | textChunks pieces => exact appends_chunks pieces text
  | array items indefinite =>
    exact appends_nested fun r' h => appends_sequence _ _ _ _ _ fun y hy => hc r' h 1 y (.element hy)
  | map entries indefinite =>
    refine appends_nested fun r' h => appends_sequence _ _ _ _ _ fun e he => ?_
    exact (hc r' h 1 e.1 (.key he)).seq ((appends_write r' [':', ' ']).seq (hc r' h 1 e.2 (.value he)))
  | tagged tag y => exact appends_tagged (appends_nested fun r' h => hc r' h 0 y .content)
  | epochTime y => exact appends_tagged (appends_nested fun r' h => hc r' h 0 y .time)
  | dateTime s | fullDate s => exact appends_tagged (appends_write r _)
  | encodedCbor b =>
    have he : ∀ r', r = r' + 1 → Appends (match decodeSequence b with
        | .ok items => each comma (call indent) true items
        | .error e => write (error e.message)) r' (shape.embedded indent b (Diagnostic.item o r')) := by
      intro r' h
      rw [shape.embedded]
      cases hd : decodeSequence b with
      | ok items => exact appends_commas fun y hy => hc r' h 0 y (.embedded hd hy)
      | error e => exact appends_write r' _
    refine ((appends_write r _).seq ((appends_nested he).seq (appends_write r ['>', '>', ')']))).congr ?_
    show _ = number encodedCborTag.toNat ++ '(' :: ('<' :: '<' :: (deeper _ _ ++ ['>', '>']) ++ [')'])
    simp only [List.append_assoc, List.cons_append, List.nil_append]
  | raw b => exact absurd rfl (hr b)
  | _ => exact appends_write r _

/-- A chain of calls from a well-formed item has one call for each level. -/
theorem appends_item_wellFormed {calls : Nat} (hn : r + 1 ≤ calls) (hx : x.WellFormed) :
    Appends (item o calls indent x) r (Diagnostic.item o r indent x) := by
  induction calls generalizing r indent x with
  | zero => omega
  | succ calls ih =>
    rw [item_eq, hx.shown_eq]
    have hr : ∀ b, x ≠ .raw b := fun b h => (h ▸ hx : (Item.raw b).WellFormed)
    exact appends_itemWith hr fun r' h s y hy => ih (by omega) (hy.wellFormed hx)

/-- Encoded data takes one call more: the chain goes on to the item that it encodes, which holds none. -/
theorem appends_item {calls : Nat} (hn : r + 2 ≤ calls) :
    Appends (item o calls indent x) r (Diagnostic.item o r indent x) := by
  induction calls generalizing r indent x with
  | zero => omega
  | succ calls ih =>
    rw [item_eq]
    cases x with
    | raw b =>
      rw [item, itemWith, Item.shown]
      cases hd : decode b with
      | ok y =>
        have hy := decode_wellFormed hd
        have ha : Appends (item o calls indent y) r (Diagnostic.item o r indent y) :=
          appends_item_wellFormed (Nat.le_of_succ_le_succ hn) hy
        rwa [item_eq, hy.shown_eq] at ha
      | error e => exact appends_write r _
    | _ => exact appends_itemWith (fun b h => by cases h) fun r' h s y hy => ih (by omega)

/-- **Printing an item under a budget of `r` ends within `r + 2` calls in one another.** It adds a text to the page that
does not depend on what the page holds, and leaves the budget as it was; so an item prints behind another one as it
does without it. -/
theorem run_item (o : Options) (r indent : Nat) (x : Item) (extra : Nat) (out : List Char) :
    item o (r + 2 + extra) indent x ⟨out, r⟩ = some ((), ⟨out ++ Diagnostic.item o r indent x, r⟩) ∧
    ∀ (indent' : Nat) (y : Item),
      (do item o (r + 2 + extra) indent' y; item o (r + 2 + extra) indent x) ⟨out, r⟩ =
        some ((), ⟨out ++ Diagnostic.item o r indent' y ++ Diagnostic.item o r indent x, r⟩) := by
  have ha : ∀ indent x, Appends (item o (r + 2 + extra) indent x) r (Diagnostic.item o r indent x) :=
    fun _ _ => appends_item (Nat.le_add_right _ _)
  refine ⟨ha indent x out, fun indent' y => ?_⟩
  rw [List.append_assoc]
  exact (ha indent' y).seq (ha indent x) out

/-- No chain is shorter for encoded data that nests as deep as the budget allows. -/
example : item .compact 2 0 (.array [.raw [0x00]] false) ⟨[], 1⟩ = none := rfl

end Press

end Diagnostic

end Cbor
