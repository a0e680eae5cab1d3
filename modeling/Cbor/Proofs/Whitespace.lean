import Cbor.Command.Directory
import Cbor.Proofs.Rendering

/-!
# Layout is white space

- The two layouts of an item have the same text but for spaces and line breaks (`unspaced_item`): in a container they
  differ only around the commas and before the closing bracket (`unspaced_container`), whatever the indentation.
- On one line nothing is a control, so there is no line break either (`legible_item`).
- So the command that shows a sequence on single lines writes one line for each item (`inspect_eq`,
  `Item.diagnostic_layouts`).
-/

namespace Cbor

namespace Diagnostic

/-! ## Text without white space -/

/-- The text without its spaces and line breaks. -/
def unspaced (s : List Char) : List Char := s.filter fun c => c ≠ ' ' && c ≠ '\n'

@[simp] theorem unspaced_nil : unspaced [] = [] := rfl

@[simp] theorem unspaced_append (s t : List Char) : unspaced (s ++ t) = unspaced s ++ unspaced t :=
  List.filter_append s t

theorem unspaced_cons (c : Char) (s : List Char) :
    unspaced (c :: s) = if c ≠ ' ' && c ≠ '\n' then c :: unspaced s else unspaced s := List.filter_cons

theorem unspaced_intercalate (sep : List Char) (parts : List (List Char)) :
    unspaced (sep.intercalate parts) = (unspaced sep).intercalate (parts.map unspaced) := by
  cases parts with
  | nil => simp
  | cons part parts =>
    have h : unspaced (parts.flatMap (sep ++ ·)) = parts.flatMap fun p => unspaced sep ++ unspaced p := by
      simp only [unspaced, List.filter_flatMap, List.filter_append]
    rw [List.map_cons, intercalate_cons, intercalate_cons, unspaced_append, h, List.flatMap_map]

/-- Parts between separators, with one more at the end, are parts that each are ended. -/
theorem intercalate_concat (sep : List Char) {parts : List (List Char)} (h : parts ≠ []) :
    sep.intercalate parts ++ sep = parts.flatMap (· ++ sep) := by
  obtain ⟨part, parts, rfl⟩ := List.exists_cons_of_ne_nil h
  rw [intercalate_cons, List.flatMap_cons, List.append_assoc, List.append_assoc]
  congr 1
  clear h
  induction parts with
  | nil => simp
  | cons part parts ih =>
    rw [List.flatMap_cons, List.flatMap_cons, List.append_assoc, ih]
    simp only [List.append_assoc]

theorem count_lines {parts : List (List Char)} (h : ∀ part ∈ parts, '\n' ∉ part) :
    (parts.flatMap (· ++ ['\n'])).count '\n' = parts.length := by
  induction parts with
  | nil => rfl
  | cons part parts ih =>
    obtain ⟨hp, hps⟩ := List.forall_mem_cons.mp h
    rw [List.flatMap_cons, List.count_append, List.count_append, List.count_eq_zero_of_not_mem hp, ih hps,
      List.length_cons, List.count_singleton_self]
    omega

theorem unspaced_newline (indent : Nat) : unspaced (newline indent) = [] := by
  refine List.filter_eq_nil_iff.mpr fun c hc => ?_
  rw [newline, List.mem_cons] at hc
  obtain rfl | hc := hc
  · decide
  · rw [List.eq_of_mem_replicate hc]
    decide

/-- The layout of a container is in its white space alone. -/
theorem unspaced_container (opening closing : Char) (indefinite inline : Bool) (indent : Nat)
    (elements : List (List Char)) : unspaced (container opening closing indefinite inline indent elements) =
      unspaced [opening] ++ ((if indefinite then ['_'] else []) ++ [','].intercalate (elements.map unspaced)) ++
        unspaced [closing] := by
  have hm : unspaced (if indefinite then ['_'] else []) = if indefinite then ['_'] else [] := by split <;> rfl
  have hc : unspaced (commaSeparated elements) = [','].intercalate (elements.map unspaced) :=
    unspaced_intercalate [',', ' '] elements
  have ho : unspaced (onOneLine indefinite elements) = [','].intercalate (elements.map unspaced) := by
    have hb : unspaced (if indefinite && !elements.isEmpty then [' '] else []) = [] := by split <;> rfl
    rw [onOneLine, unspaced_append, hb, hc, List.nil_append]
  have hl : unspaced (onLines indent elements) = [','].intercalate (elements.map unspaced) := by
    have he : unspaced (if elements.isEmpty then [] else newline indent) = [] := by
      split
      · rfl
      · exact unspaced_newline indent
    have hn : (unspaced ∘ (newline (indent + 1) ++ ·)) = unspaced := by
      funext s
      rw [Function.comp_apply, unspaced_append, unspaced_newline, List.nil_append]
    rw [onLines, unspaced_append, he, unspaced_intercalate, List.map_map, hn, List.append_nil]
    rfl
  have hi : unspaced (if inline then onOneLine indefinite elements else onLines indent elements) =
      [','].intercalate (elements.map unspaced) := by
    split
    · exact ho
    · exact hl
  have hs : ∀ s : List Char, unspaced (opening :: s) = unspaced [opening] ++ unspaced s := unspaced_append [opening]
  rw [container, hs, unspaced_append, unspaced_append, hm, hi, List.append_assoc, List.append_assoc, List.append_assoc]

/-! ## The two layouts -/

section Layouts

variable {x : Item} {inner inner' : Option Printer} {i j : Nat}

/-- Printers that give the same texts for the parts of an item, but for white space. -/
def SameParts (x : Item) (i j : Nat) (p q : Printer) : Prop :=
  ∀ s y, Part s y x → unspaced (p (i + s) y) = unspaced (q (j + s) y)

theorem unspaced_deeper {content content' : Printer → List Char} (h : Option.Rel (SameParts x i j) inner inner')
    (hc : ∀ p q, SameParts x i j p q → unspaced (content p) = unspaced (content' q)) :
    unspaced (deeper inner content) = unspaced (deeper inner' content') := by
  cases h with
  | none => rfl
  | some h => exact hc _ _ h

theorem unspaced_tagged (tag : UInt64) {s t : List Char} (h : unspaced s = unspaced t) :
    unspaced (tagged tag s) = unspaced (tagged tag t) := by
  simp only [tagged, unspaced_append, unspaced_cons '(', h]

theorem Bracketed.unspaced_elements {p q : Printer} {d d' : Bracketed} (h : SameParts x i j p q)
    (hd : Bracketed.of? (p (i + 1)) x = some d) (hd' : Bracketed.of? (q (j + 1)) x = some d') :
    d.opening = d'.opening ∧ d.closing = d'.closing ∧ d.indefinite = d'.indefinite ∧
      d.elements.map unspaced = d'.elements.map unspaced := by
  cases x with
  | array items indefinite =>
    cases hd
    cases hd'
    refine ⟨rfl, rfl, rfl, ?_⟩
    rw [List.map_map, List.map_map]
    exact List.map_congr_left fun y hy => h 1 y (.element hy)
  | map entries indefinite =>
    cases hd
    cases hd'
    refine ⟨rfl, rfl, rfl, ?_⟩
    rw [List.map_map, List.map_map]
    refine List.map_congr_left fun e he => ?_
    show unspaced (_ ++ _) = unspaced (_ ++ _)
    simp only [unspaced_append, unspaced_cons, h 1 e.1 (.key he), h 1 e.2 (.value he)]
  | _ => cases hd

/-- Options apart from the layout make no difference. -/
theorem unspaced_shape (l : Bool) (h : Option.Rel (SameParts x i j) inner inner') :
    unspaced (shape ⟨true, l⟩ inner i x) = unspaced (shape ⟨false, l⟩ inner' j x) := by
  have hb : ∀ p q d d', SameParts x i j p q → Bracketed.of? (p (i + 1)) x = some d →
      Bracketed.of? (q (j + 1)) x = some d' →
      unspaced (shape ⟨true, l⟩ (some p) i x) = unspaced (shape ⟨false, l⟩ (some q) j x) := by
    intro p q d d' hp hd hd'
    obtain ⟨ho, hc, hi, he⟩ := Bracketed.unspaced_elements hp hd hd'
    rw [Bracketed.shape_eq hd, Bracketed.shape_eq hd', unspaced_container, unspaced_container, ho, hc, hi, he]
  cases x with
  | array | map =>
    cases h with
    | none => rfl
    | some h => exact hb _ _ _ _ h rfl rfl
  | tagged tag y => exact unspaced_tagged tag (unspaced_deeper h fun p q hp => hp 0 y .content)
  | epochTime y => exact unspaced_tagged _ (unspaced_deeper h fun p q hp => hp 0 y .time)
  | encodedCbor b =>
    have he : unspaced (deeper inner (shape.embedded i b)) = unspaced (deeper inner' (shape.embedded j b)) := by
      refine unspaced_deeper h fun p q hp => ?_
      unfold shape.embedded
      split
      · rename_i items hd
        rw [commaSeparated, commaSeparated, unspaced_intercalate, unspaced_intercalate, List.map_map, List.map_map]
        exact congrArg _ (List.map_congr_left fun y hy => hp 0 y (.embedded hd hy))
      · rfl
    refine unspaced_tagged _ ?_
    simp only [unspaced_append, unspaced_cons, he]
  | _ => rfl

end Layouts

/-- **The two layouts of an item differ in white space only**, at whatever indentation each begins. -/
theorem unspaced_item (l : Bool) (budget i j : Nat) (x : Item) :
    unspaced (item ⟨true, l⟩ budget i x) = unspaced (item ⟨false, l⟩ budget j x) := by
  induction budget generalizing i j x with
  | zero =>
    rw [item_eq, item_eq]
    exact unspaced_shape l .none
  | succ budget ih =>
    rw [item_eq, item_eq]
    exact unspaced_shape l (.some fun s y _ => ih (i + s) (j + s) y)

/-- On one line, an item has no controls in its text. -/
theorem legible_item (l : Bool) (budget indent : Nat) (x : Item) : Legible (item ⟨false, l⟩ budget indent x) := by
  induction budget generalizing indent x with
  | zero =>
    rw [item_eq]
    exact legible_shape (fun _ _ _ => rfl) fun _ h => nomatch h
  | succ budget ih =>
    rw [item_eq]
    refine legible_shape (fun _ _ _ => rfl) fun p h s y _ => ?_
    cases h
    exact ih (indent + s) y

end Diagnostic

/-! ## The command -/

namespace Command

/-- The action ends well, and all that it does to the world is to tell lines. -/
def TellsOnly {α : Type} (act : ExceptT Failure (StateM World) α) (x : α) : Prop :=
  ∀ w : World, ∃ told, act w = (.ok x, { w with told := w.told ++ told })

section Telling

variable {α β : Type}

theorem bind_world (act : ExceptT Failure (StateM World) α) (f : α → ExceptT Failure (StateM World) β) (w : World) :
    (act >>= f) w = ExceptT.bindCont f (act w).1 (act w).2 := rfl

theorem tellsOnly_pure (x : α) : TellsOnly (pure x) x := fun _ => ⟨[], by rw [List.append_nil]; rfl⟩

theorem TellsOnly.bind {act : ExceptT Failure (StateM World) α} {x : α} {f : α → ExceptT Failure (StateM World) β}
    {y : β} (h : TellsOnly act x) (hf : TellsOnly (f x) y) : TellsOnly (act >>= f) y := by
  intro w
  obtain ⟨told, ht⟩ := h w
  obtain ⟨told', ht'⟩ := hf { w with told := w.told ++ told }
  refine ⟨told ++ told', ?_⟩
  rw [bind_world, ht]
  exact ht'.trans (by rw [List.append_assoc])

theorem tellsOnly_tell (line : String) :
    TellsOnly (liftM (World.environment.tell line) : ExceptT Failure (StateM World) Unit) () := fun _ => ⟨[line], rfl⟩

theorem tellsOnly_tellAll (chosen : Option Level) (messages : List Message) :
    TellsOnly (tellAll World.environment chosen messages) () := by
  cases chosen with
  | none => exact tellsOnly_pure ()
  | some chosen =>
    show TellsOnly ((messages.filter _).forM _) ()
    induction messages.filter (·.level.rank ≤ chosen.rank) with
    | nil => exact tellsOnly_pure ()
    | cons msg messages ih => exact (tellsOnly_tell _).bind ih

theorem tellsOnly_tellEvents (chosen : Option Level) (events : Unit → List Event) :
    TellsOnly (tellEvents World.environment chosen events) () := by
  unfold tellEvents
  split
  · exact tellsOnly_tellAll chosen _
  · exact tellsOnly_pure ()

end Telling

section Inspecting

variable {i : Invocation} {data : Bytes} {items : List Item}

/-- The diagnostic texts of items on lines, as the invocation asks for them. -/
def linesOf (i : Invocation) (items : List Item) : String :=
  "\n".intercalate (items.map (·.diagnostic ⟨!i.compact, i.bytesLengthOnly⟩))

theorem tellsOnly_render (hv : i.view.getD .diagnostic = .diagnostic) (hd : decodeSequence data = .ok items) :
    TellsOnly (render World.environment i data) (linesOf i items) := by
  unfold render
  rw [hv, hd]
  exact (tellsOnly_tellEvents _ _).bind ((tellsOnly_pure items).bind
    ((tellsOnly_tellEvents _ _).bind (tellsOnly_pure (linesOf i items))))

/-- What is written is the texts of the items, whatever is told on the way. -/
theorem inspect_eq {w : World} (hv : i.view.getD .diagnostic = .diagnostic)
    (hr : readPlace World.environment (i.input.getD .standard) w = (.ok data, w))
    (hd : decodeSequence data = .ok items) :
    ∃ told, inspect World.environment i w = writePlace World.environment (i.output.getD .standard)
      (Bytes.ofString (if i.output.getD .standard = .standard then linesOf i items ++ "\n" else linesOf i items))
      { w with told := w.told ++ told } := by
  obtain ⟨told, ht⟩ := tellsOnly_tellAll i.verbose
    [⟨.info, "cbor::inspect", "Read " ++ toString data.length ++ " bytes"⟩] w
  obtain ⟨told', ht'⟩ := tellsOnly_render hv hd { w with told := w.told ++ told }
  refine ⟨told ++ told', ?_⟩
  rw [← List.append_assoc]
  unfold inspect
  rw [bind_world, hr]
  show (tellAll World.environment _ _ >>= _) w = _
  rw [bind_world, ht]
  show (render World.environment i data >>= _) _ = _
  rw [bind_world, ht']
  rfl

theorem run_inspect {args : List String} (hp : Invocation.parse args = some i) (hi : i.verb = .inspect) {w w' : World}
    (h : inspect World.environment i w = (.ok (), w')) : run World.environment args w = (.success, w') := by
  have hb : ∀ {α β : Type} (act : StateM World α) (f : α → StateM World β), (act >>= f) w = f (act w).1 (act w).2 :=
    fun _ _ => rfl
  have hr : (inspect World.environment i).run w = (.ok (), w') := h
  unfold run
  simp only [hp, hi, hb, hr]
  rfl

theorem toList_linesOf (hi : items ≠ []) : (linesOf i items ++ "\n").toList =
    (items.map fun x => (x.diagnostic ⟨!i.compact, i.bytesLengthOnly⟩).toList).flatMap (· ++ ['\n']) := by
  rw [String.toList_append, linesOf, String.toList_intercalate, List.map_map]
  exact Diagnostic.intercalate_concat ['\n'] fun h => hi (List.map_eq_nil_iff.mp h)

end Inspecting

end Command

/-- **The two layouts of an item differ in white space only, and the one for a single line has no line breaks.** So the
command that is asked for single lines writes one line for each item of a sequence, unless there are no items; on the
standard output each line is ended, in a file all but the last. -/
theorem Item.diagnostic_layouts :
    (∀ (x : Item) (l : Bool),
      Diagnostic.unspaced (x.diagnostic ⟨true, l⟩).toList = Diagnostic.unspaced (x.diagnostic ⟨false, l⟩).toList ∧
      '\n' ∉ (x.diagnostic ⟨false, l⟩).toList) ∧
    ∀ (args : List String) (i : Command.Invocation) (w : Command.World) (data : Bytes) (items : List Item),
      Command.Invocation.parse args = some i → i.verb = .inspect → i.compact = true →
      i.view.getD .diagnostic = .diagnostic →
      Command.readPlace Command.World.environment (i.input.getD .standard) w = (.ok data, w) →
      decodeSequence data = .ok items → items ≠ [] →
      ∃ (text : String) (told : List String),
        (text ++ "\n").toList =
          (items.map fun x => (x.diagnostic ⟨false, i.bytesLengthOnly⟩).toList).flatMap (· ++ ['\n']) ∧
        (text ++ "\n").toList.count '\n' = items.length ∧
        Command.inspect Command.World.environment i w =
          Command.writePlace Command.World.environment (i.output.getD .standard)
            (Bytes.ofString (if i.output.getD .standard = .standard then text ++ "\n" else text))
            { w with told := w.told ++ told } ∧
        (i.output.getD .standard = .standard → Command.run Command.World.environment args w =
          (.success, { w with output := w.output ++ Bytes.ofString (text ++ "\n"), told := w.told ++ told })) := by
  have hl : ∀ (x : Item) (l : Bool), '\n' ∉ (x.diagnostic ⟨false, l⟩).toList := fun x l => by
    rw [diagnostic, String.toList_ofList]
    exact (Diagnostic.legible_item l maxDepth 0 x).newline_not_mem
  refine ⟨fun x l => ⟨?_, hl x l⟩, fun args i w data items hp hi hc hv hr hd hn => ?_⟩
  · rw [diagnostic, diagnostic, String.toList_ofList, String.toList_ofList]
    exact Diagnostic.unspaced_item l maxDepth 0 0 x
  · obtain ⟨told, ht⟩ := Command.inspect_eq (w := w) hv hr hd
    have htext := Command.toList_linesOf (i := i) hn
    rw [hc, Bool.not_true] at htext
    refine ⟨Command.linesOf i items, told, htext, ?_, ht, fun ho => ?_⟩
    · rw [htext, Diagnostic.count_lines (List.forall_mem_map.mpr fun x _ => hl x _), List.length_map]
    · rw [ho, if_pos rfl] at ht
      exact Command.run_inspect hp hi ht

/-- A number, and an array that takes three lines where lines may be broken. -/
theorem Item.diagnostic_layouts_twoLines :
    ∃ told, Command.run Command.World.environment ["inspect", "--compact", "-"] (.new [] [1, 0x81, 0x81, 2]) =
      (.success, ⟨[], [1, 0x81, 0x81, 2], Bytes.ofString "1\n[[2]]\n", told⟩) := by
  obtain ⟨-, h⟩ := diagnostic_layouts
  have hp : Command.Invocation.parse ["inspect", "--compact", "-"] =
      some ⟨.inspect, none, true, false, none, none, some .standard⟩ := by decide +kernel
  obtain ⟨text, told, ht, -, -, hr⟩ := h _ _ (.new [] [1, 0x81, 0x81, 2]) _
    [.unsigned 1, .array [.array [.unsigned 2] false] false] hp rfl rfl rfl rfl rfl (by simp)
  have hs : text ++ "\n" = "1\n[[2]]\n" := String.toList_inj.mp (ht.trans (by decide +kernel))
  rw [hs] at hr
  exact ⟨told, hr rfl⟩

end Cbor
