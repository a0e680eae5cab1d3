import Cbor.Builder
import Cbor.Proofs.Creation

/-!
# Builders build what their calls say

- `Call`: a call on a builder, together with all that is done in a child between its opening and its closing; a
  sequence of steps in which every child is closed is the sequence `Call.stepsOf` of a tree of calls, and of one only.
- `Content.item?` and `Content.Accepted`: what each kind of content is to place, and where it can; a step places just
  that (`Content.toItem?_eq_ok_iff`, `Builder.step_eq_ok_iff`).
- `Call.Fits`: which calls suit a builder. They succeed, and no others do (`Call.exists_run`, `Call.fits_of_run`).
- `Call.finished`: what calls build, by recursion on the tree: the elements of an array in the order of the calls, the
  map of the pairs in the order of the calls, a child's own finished item in the place where it is opened.
- `Builder.Represents`: the containers that are open hold what the calls before them built, each but the innermost with
  the place of a child reserved at its end or under its key. Every step keeps this (`Represents.step`), so every run
  does (`Represents.run`).
-/

namespace Cbor

/-! ## Calls -/

/-- A call on a builder; a child comes with all the calls on it until it is closed. -/
inductive Call where
  | add (content : Content)
  | put (key : Item) (content : Content)
  | addChild (shape : Shape) (calls : List Call)
  | putChild (key : Item) (shape : Shape) (calls : List Call)
  | indefinite

namespace Content

/-- The item of a content, if it has one. -/
def item? : Content → Option Item
  | .item x => some x
  | .host v => (create v.suggested v).toOption
  | .typed kind v => (create kind v).toOption
  | .tagged tag x => some (.ofTag tag x)
  | .required x | .optional x => x

/-- Containers of a shape accept the content: a host value must become an item, and what is required must be there,
which in an array a blank item is not. -/
def Accepted (shape : Shape) : Content → Prop
  | .item _ | .tagged .. | .optional _ => True
  | .host v => ∃ x, create v.suggested v = .ok x
  | .typed kind v => ∃ x, create kind v = .ok x
  | .required x => ∃ y ∈ x, shape = .array → y.isBlank = false

end Content

namespace Call

mutual

/-- The steps of a call. -/
def steps : Call → List Step
  | .add content => [.add content]
  | .put key content => [.put key content]
  | .addChild shape calls => .addChild shape :: (stepsOf calls ++ [.close])
  | .putChild key shape calls => .putChild key shape :: (stepsOf calls ++ [.close])
  | .indefinite => [.indefinite]

/-- The steps of calls one after the other. -/
def stepsOf : List Call → List Step
  | [] => []
  | call :: calls => steps call ++ stepsOf calls

end

/-- The call suits a builder of a shape, and so do all calls on children: elements go into arrays and values into maps,
and each is accepted there. -/
inductive Fits : Shape → Call → Prop
  | add {content : Content} : content.Accepted .array → Fits .array (.add content)
  | put {key : Item} {content : Content} : content.Accepted .map → Fits .map (.put key content)
  | addChild {shape : Shape} {calls : List Call} : (∀ call ∈ calls, Fits shape call) →
      Fits .array (.addChild shape calls)
  | putChild {key : Item} {shape : Shape} {calls : List Call} : (∀ call ∈ calls, Fits shape call) →
      Fits .map (.putChild key shape calls)
  | indefinite {shape : Shape} : Fits shape .indefinite

/-- The call gives the container an indefinite length. -/
def isIndefinite : Call → Bool
  | .indefinite => true
  | _ => false

/-! ## What calls build -/

mutual

/-- What a call adds to an array. -/
def elements : Call → List Item
  | .add content => content.item?.toList
  | .addChild .array calls => [.array (elementsOf calls) (calls.any isIndefinite)]
  | .addChild .map calls => [.ofEntries (pairsOf calls) (calls.any isIndefinite)]
  | _ => []

/-- What calls add to an array, in their order. -/
def elementsOf : List Call → List Item
  | [] => []
  | call :: calls => elements call ++ elementsOf calls

/-- The pairs of key and value that a call puts into a map. -/
def pairs : Call → List (Item × Item)
  | .put key content => content.item?.toList.map (key, ·)
  | .putChild key .array calls => [(key, .array (elementsOf calls) (calls.any isIndefinite))]
  | .putChild key .map calls => [(key, .ofEntries (pairsOf calls) (calls.any isIndefinite))]
  | _ => []

/-- The pairs of key and value that calls put into a map, in their order. -/
def pairsOf : List Call → List (Item × Item)
  | [] => []
  | call :: calls => pairs call ++ pairsOf calls

end

/-- The item that calls on a builder of a shape build. -/
def finished : Shape → List Call → Item
  | .array, calls => .array (elementsOf calls) (calls.any isIndefinite)
  | .map, calls => .ofEntries (pairsOf calls) (calls.any isIndefinite)

theorem elements_addChild (shape : Shape) (calls : List Call) :
    (Call.addChild shape calls).elements = [finished shape calls] := by
  cases shape <;> rw [elements, finished]

theorem pairs_putChild (key : Item) (shape : Shape) (calls : List Call) :
    (Call.putChild key shape calls).pairs = [(key, finished shape calls)] := by
  cases shape <;> rw [pairs, finished]

theorem stepsOf_eq : ∀ calls : List Call, stepsOf calls = calls.flatMap steps
  | [] => rfl
  | call :: calls => by rw [stepsOf, stepsOf_eq calls, List.flatMap_cons]

theorem elementsOf_eq : ∀ calls : List Call, elementsOf calls = calls.flatMap elements
  | [] => rfl
  | call :: calls => by rw [elementsOf, elementsOf_eq calls, List.flatMap_cons]

theorem pairsOf_eq : ∀ calls : List Call, pairsOf calls = calls.flatMap pairs
  | [] => rfl
  | call :: calls => by rw [pairsOf, pairsOf_eq calls, List.flatMap_cons]

theorem stepsOf_snoc (calls : List Call) (call : Call) : stepsOf (calls ++ [call]) = stepsOf calls ++ call.steps := by
  simp [stepsOf_eq]

theorem elementsOf_snoc (calls : List Call) (call : Call) :
    elementsOf (calls ++ [call]) = elementsOf calls ++ call.elements := by simp [elementsOf_eq]

theorem pairsOf_snoc (calls : List Call) (call : Call) : pairsOf (calls ++ [call]) = pairsOf calls ++ call.pairs := by
  simp [pairsOf_eq]

end Call

/-! ## Containers -/

open Call (stepsOf elementsOf pairsOf finished)
open Outcome (bind_eq_ok_iff map_eq_ok_iff mapError_eq_ok_iff)

/-- A container holds what calls have built so far. -/
inductive Fills : Shape → List Call → Container → Prop
  | array {calls : List Call} {items : Array Item} {indefinite : Bool} : items.toList = elementsOf calls →
      indefinite = calls.any Call.isIndefinite → Fills .array calls (.array items indefinite)
  | map {calls : List Call} {table : ItemTable} : table.Coherent → table.toList = putAll [] (pairsOf calls) →
      table.indefinite = calls.any Call.isIndefinite → Fills .map calls (.map table)

namespace Container

/-- The element or value at a position. -/
def valueAt? (i : Nat) : Container → Option Item
  | .array items _ => items[i]?
  | .map table => table.toList[i]?.map Prod.snd

/-- The keys of a map in order; an array has none. -/
def keys : Container → List Item
  | .array .. => []
  | .map table => keysOf table.toList

/-- The container has an indefinite length. -/
def isIndefinite : Container → Bool
  | .array _ indefinite => indefinite
  | .map table => table.indefinite

/-- The kind of a container. -/
def shape : Container → Shape
  | .array .. => .array
  | .map _ => .map

end Container

/-- An item takes a reserved place: where null was it is now, and nothing else is different. -/
structure TakesPlace (slot : Nat) (x : Item) (c c' : Container) : Prop where
  reserved : c.valueAt? slot = some .null
  taken : c'.valueAt? slot = some x
  others : ∀ i, i ≠ slot → c'.valueAt? i = c.valueAt? i
  size : c'.size = c.size
  keys : c'.keys = c.keys
  indefinite : c'.isIndefinite = c.isIndefinite
  shape : c'.shape = c.shape

theorem takesPlace_element (items : Array Item) (indefinite : Bool) (x : Item) :
    TakesPlace items.size x (.array (items.push .null) indefinite)
      ((Container.array (items.push .null) indefinite).fill items.size x) where
  reserved := by simp [Container.valueAt?]
  taken := by simp [Container.valueAt?, Container.fill, Array.getElem_modify]
  others i hi := by simp [Container.valueAt?, Container.fill, Array.getElem?_modify, hi.symm]
  size := by simp [Container.size, Container.fill]
  keys := rfl
  indefinite := rfl
  shape := rfl

theorem takesPlace_value {table : ItemTable} (ht : table.Coherent) (key x : Item) :
    TakesPlace (table.insert key .null).1 x (.map (table.insert key .null).2)
      ((Container.map (table.insert key .null).2).fill (table.insert key .null).1 x) := by
  have hl : (table.insert key .null).2.toList[(table.insert key .null).1]? = some (key, .null) := by
    rw [ht.insert_fst, ht.toList_insert]
    exact getElem?_put key Item.null _
  have hi : (table.insert key .null).1 < (table.insert key .null).2.size := by
    obtain ⟨hi, -⟩ := List.getElem?_eq_some_iff.mp hl
    exact hi
  have hs := Table.setsValue_replace hi x
  exact {
    reserved := by
      show ((table.insert key .null).2.toList[_]?).map Prod.snd = _
      rw [hl]
      rfl
    taken := hs.value
    others := fun i hi => congrArg (Option.map Prod.snd) (hs.others i hi)
    size := by
      have hk := congrArg List.length hs.keys
      rwa [Table.length_keysOf, Table.length_keysOf] at hk
    keys := hs.keys
    indefinite := rfl
    shape := rfl }

theorem Fills.toItem {shape : Shape} {calls : List Call} {c : Container} (h : Fills shape calls c) :
    c.toItem = finished shape calls := by
  cases h with
  | array hi hf => rw [Container.toItem, hi, hf, finished]
  | map _ ht hf => rw [Container.toItem, ItemTable.toItem, ht, hf, finished, Item.ofEntries_eq]

/-- The place of a child in a table, once the child's item is in it, is as if the item had been put there at once. -/
theorem toList_replace_insert {table : ItemTable} (ht : table.Coherent) (key x : Item) :
    ((table.insert key .null).2.replace (table.insert key .null).1 x).toList = put key x table.toList := by
  have hc := ht.insert key Item.null
  have hk : (keysOf (put key Item.null table.toList))[(table.insert key .null).1]? = some key := by
    rw [ht.insert_fst, keysOf, List.getElem?_map, getElem?_put]
    rfl
  rw [Table.toList_replace, ht.toList_insert, ← put_eq_modify (nodup_put ht.nodup_keys) hk, put_put]

/-! ## Steps -/

namespace Content

/-- A host value gives the item that it becomes, and fails where it becomes none. -/
theorem created_eq_ok_iff {r : Except CreateError Item} {x? : Option Item} :
    (r.map some).mapError BuildError.create = .ok x? ↔ (∃ x, r = .ok x) ∧ r.toOption = x? := by
  rw [mapError_eq_ok_iff]
  cases r with
  | ok x =>
    show Except.ok (some x) = .ok x? ↔ _ ∧ some x = x?
    rw [Except.ok.injEq, and_iff_right ⟨x, rfl⟩]
  | error e =>
    refine iff_of_false (fun h => by cases h) ?_
    rintro ⟨⟨_, h⟩, -⟩
    cases h

/-- What is placed is the item of the content, where the content is accepted. -/
theorem toItem?_eq_ok_iff {shape : Shape} {content : Content} {x? : Option Item} :
    content.toItem? shape = .ok x? ↔ content.Accepted shape ∧ content.item? = x? := by
  cases content with
  | item x | tagged tag x | optional x =>
    rw [toItem?, item?, Except.ok.injEq]
    exact (and_iff_right trivial).symm
  | host v =>
    rw [toItem?, create_any_eq, createAny_eq_create, created_eq_ok_iff]
    exact Iff.rfl
  | typed kind v =>
    rw [toItem?, created_eq_ok_iff]
    exact Iff.rfl
  | required x =>
    cases x with
    | none =>
      rw [toItem?]
      exact iff_of_false (fun h => by cases h) fun h => by simp [Accepted] at h
    | some x =>
      have ha : (Content.required (some x)).Accepted shape ↔ ¬(decide (shape = .array) && x.isBlank) = true := by
        simp [Accepted]
      rw [toItem?, item?, ha]
      split
      · rename_i hb
        exact iff_of_false (fun h => by cases h) fun h => h.1 hb
      · rename_i hb
        rw [Except.ok.injEq, and_iff_right hb]

end Content

/-- What a step that succeeds does. -/
inductive Stepped : Builder → Step → Builder → Prop
  | add {items : Array Item} {indefinite : Bool} {slot : Nat} {outer : List Level} {content : Content} :
      content.Accepted .array → Stepped ⟨⟨.array items indefinite, slot⟩, outer⟩ (.add content)
        ⟨⟨.array (items ++ content.item?.toList) indefinite, slot⟩, outer⟩
  | put {table : ItemTable} {slot : Nat} {outer : List Level} (key : Item) {content : Content} :
      content.Accepted .map → Stepped ⟨⟨.map table, slot⟩, outer⟩ (.put key content)
        ⟨⟨.map (table.insertAll (content.item?.toList.map (key, ·))), slot⟩, outer⟩
  | addChild {items : Array Item} {indefinite : Bool} {slot : Nat} {outer : List Level} (shape : Shape) :
      Stepped ⟨⟨.array items indefinite, slot⟩, outer⟩ (.addChild shape)
        ⟨⟨.empty shape, items.size⟩, ⟨.array (items.push .null) indefinite, slot⟩ :: outer⟩
  | putChild {table : ItemTable} {slot : Nat} {outer : List Level} (key : Item) (shape : Shape) :
      Stepped ⟨⟨.map table, slot⟩, outer⟩ (.putChild key shape)
        ⟨⟨.empty shape, (table.insert key .null).1⟩, ⟨.map (table.insert key .null).2, slot⟩ :: outer⟩
  | indefinite {c : Container} {slot : Nat} {outer : List Level} :
      Stepped ⟨⟨c, slot⟩, outer⟩ .indefinite ⟨⟨c.setIndefinite, slot⟩, outer⟩
  | close {c : Container} {slot : Nat} {parent : Level} {outer : List Level} :
      Stepped ⟨⟨c, slot⟩, parent :: outer⟩ .close ⟨⟨parent.container.fill slot c.toItem, parent.slot⟩, outer⟩

namespace Builder

variable {b b' : Builder}

theorem step_add (items : Array Item) (indefinite : Bool) (slot : Nat) (outer : List Level) (content : Content) :
    (Builder.mk ⟨.array items indefinite, slot⟩ outer).step (.add content) =
      (content.toItem? .array).map fun x? => ⟨⟨.array (items ++ x?.toList) indefinite, slot⟩, outer⟩ := by
  simp only [Builder.step]
  cases content.toItem? .array with
  | error e => rfl
  | ok x? => cases x? <;> rfl

theorem step_put (table : ItemTable) (slot : Nat) (outer : List Level) (key : Item) (content : Content) :
    (Builder.mk ⟨.map table, slot⟩ outer).step (.put key content) =
      (content.toItem? .map).map fun x? => ⟨⟨.map (table.insertAll (x?.toList.map (key, ·))), slot⟩, outer⟩ := by
  simp only [Builder.step]
  cases content.toItem? .map with
  | error e => rfl
  | ok x? => cases x? <;> rfl

/-- Every step that succeeds is one of six. -/
theorem step_eq_ok_iff {s : Step} : b.step s = .ok b' ↔ Stepped b s b' := by
  constructor
  · intro h
    obtain ⟨⟨c, slot⟩, outer⟩ := b
    cases s with
    | add content =>
      cases c with
      | map table => cases h
      | array items indefinite =>
        rw [step_add, map_eq_ok_iff] at h
        obtain ⟨_, hx, rfl⟩ := h
        obtain ⟨hc, rfl⟩ := Content.toItem?_eq_ok_iff.mp hx
        exact .add hc
    | put key content =>
      cases c with
      | array items indefinite => cases h
      | map table =>
        rw [step_put, map_eq_ok_iff] at h
        obtain ⟨_, hx, rfl⟩ := h
        obtain ⟨hc, rfl⟩ := Content.toItem?_eq_ok_iff.mp hx
        exact .put key hc
    | addChild shape =>
      cases c with
      | map table => cases h
      | array items indefinite =>
        cases h
        exact .addChild shape
    | putChild key shape =>
      cases c with
      | array items indefinite => cases h
      | map table =>
        cases h
        exact .putChild key shape
    | indefinite =>
      cases c <;> cases h <;> exact .indefinite
    | close =>
      cases outer with
      | nil => cases c <;> cases h
      | cons parent outer => cases c <;> cases h <;> exact .close
  · intro h
    cases h with
    | add hc =>
      rw [step_add, Content.toItem?_eq_ok_iff.mpr ⟨hc, rfl⟩]
      rfl
    | put key hc =>
      rw [step_put, Content.toItem?_eq_ok_iff.mpr ⟨hc, rfl⟩]
      rfl
    | addChild | putChild => rfl
    | @indefinite c | @close c => cases c <;> rfl

theorem run_cons_eq_ok_iff {s : Step} {steps : List Step} :
    b.run (s :: steps) = .ok b' ↔ ∃ m, b.step s = .ok m ∧ m.run steps = .ok b' := by
  rw [run, List.foldlM_cons, bind_eq_ok_iff]
  exact Iff.rfl

theorem run_append_eq_ok_iff {steps steps' : List Step} :
    b.run (steps ++ steps') = .ok b' ↔ ∃ m, b.run steps = .ok m ∧ m.run steps' = .ok b' := by
  rw [run, List.foldlM_append, bind_eq_ok_iff]
  exact Iff.rfl

theorem run_singleton (s : Step) : b.run [s] = b.step s := by
  rw [run, List.foldlM_cons]
  cases b.step s <;> rfl

/-- A child is opened, steps are taken in it, and it is closed. -/
theorem run_child_eq_ok_iff {s : Step} {steps : List Step} : b.run (s :: (steps ++ [.close])) = .ok b' ↔
    ∃ m m', b.step s = .ok m ∧ m.run steps = .ok m' ∧ m'.step .close = .ok b' := by
  simp only [run_cons_eq_ok_iff, run_append_eq_ok_iff, run_singleton, exists_and_left]

/-- The kind of the innermost container. -/
def shape (b : Builder) : Shape := b.current.container.shape

theorem shape_opened (shape : Shape) (slot : Nat) (outer : List Level) :
    Builder.shape ⟨⟨.empty shape, slot⟩, outer⟩ = shape := by
  cases shape <;> rfl

/-- The same containers are open around the innermost one, which is of the same kind. -/
structure Abreast (b b' : Builder) : Prop where
  outer : b'.outer = b.outer
  shape : b'.shape = b.shape

/-- Steps in a child that leave nothing open in it lead back, once it is closed, to the container around it. -/
theorem Abreast.close {m m' : Builder} {parent : Level} {outer : List Level} (ha : m.Abreast m')
    (ho : m.outer = parent :: outer) (hc : m'.step .close = .ok b') : Abreast ⟨parent, outer⟩ b' := by
  have ho' := ha.outer.trans ho
  obtain ⟨c, slot⟩ := parent
  cases step_eq_ok_iff.mp hc with
  | close =>
    cases ho'
    exact ⟨rfl, by cases c <;> rfl⟩

/-- Every container but the outermost can be closed. -/
theorem exists_close_iff : (∃ b', b.step .close = .ok b') ↔ b.outer ≠ [] := by
  obtain ⟨⟨c, slot⟩, outer⟩ := b
  constructor
  · rintro ⟨b', h⟩
    cases step_eq_ok_iff.mp h with
    | close => exact List.cons_ne_nil _ _
  · intro h
    obtain ⟨parent, outer, rfl⟩ := List.exists_cons_of_ne_nil h
    exact ⟨_, step_eq_ok_iff.mpr .close⟩

theorem exists_run_child {s : Step} {steps : List Step} {m m' : Builder} (hs : b.step s = .ok m)
    (hm : m.run steps = .ok m') (ha : m.Abreast m') (ho : m.outer ≠ []) :
    ∃ b', b.run (s :: (steps ++ [.close])) = .ok b' := by
  rw [← ha.outer] at ho
  obtain ⟨b', hc⟩ := exists_close_iff.mpr ho
  exact ⟨b', run_child_eq_ok_iff.mpr ⟨m, m', hs, hm, hc⟩⟩

end Builder

/-! ## Calls that succeed -/

namespace Call

mutual

/-- A call that succeeds suits the builder, and leaves open what was open before. -/
theorem fits_of_run : ∀ {call : Call} {b b' : Builder}, b.run call.steps = .ok b' →
    call.Fits b.shape ∧ b.Abreast b'
  | .add content, b, b', h => by
    rw [steps, Builder.run_singleton] at h
    cases Builder.step_eq_ok_iff.mp h with
    | add hc => exact ⟨.add hc, rfl, rfl⟩
  | .put key content, b, b', h => by
    rw [steps, Builder.run_singleton] at h
    cases Builder.step_eq_ok_iff.mp h with
    | put _ hc => exact ⟨.put hc, rfl, rfl⟩
  | .indefinite, b, b', h => by
    rw [steps, Builder.run_singleton] at h
    cases Builder.step_eq_ok_iff.mp h with
    | @indefinite c => exact ⟨.indefinite, rfl, by cases c <;> rfl⟩
  | .addChild shape calls, b, b', h => by
    obtain ⟨m, m', hs, hm, hc⟩ := Builder.run_child_eq_ok_iff.mp h
    cases Builder.step_eq_ok_iff.mp hs with
    | addChild =>
      obtain ⟨hf, ha⟩ := fits_of_runOf hm
      rw [Builder.shape_opened] at hf
      have hb := ha.close rfl hc
      exact ⟨.addChild hf, hb.outer, hb.shape⟩
  | .putChild key shape calls, b, b', h => by
    obtain ⟨m, m', hs, hm, hc⟩ := Builder.run_child_eq_ok_iff.mp h
    cases Builder.step_eq_ok_iff.mp hs with
    | putChild =>
      obtain ⟨hf, ha⟩ := fits_of_runOf hm
      rw [Builder.shape_opened] at hf
      have hb := ha.close rfl hc
      exact ⟨.putChild hf, hb.outer, hb.shape⟩

theorem fits_of_runOf : ∀ {calls : List Call} {b b' : Builder}, b.run (stepsOf calls) = .ok b' →
    (∀ call ∈ calls, call.Fits b.shape) ∧ b.Abreast b'
  | [], b, b', h => by
    cases h
    exact ⟨List.forall_mem_nil _, rfl, rfl⟩
  | call :: calls, b, b', h => by
    obtain ⟨m, hm, h⟩ := Builder.run_append_eq_ok_iff.mp h
    obtain ⟨hc, hcm⟩ := fits_of_run hm
    obtain ⟨hcs, hmb⟩ := fits_of_runOf h
    rw [hcm.shape] at hcs
    exact ⟨List.forall_mem_cons.mpr ⟨hc, hcs⟩, hmb.outer.trans hcm.outer, hmb.shape.trans hcm.shape⟩

end

mutual

/-- A call that suits the builder succeeds. -/
theorem exists_run : ∀ {call : Call} {b : Builder}, call.Fits b.shape → ∃ b', b.run call.steps = .ok b'
  | .add content, ⟨⟨.array items flag, slot⟩, outer⟩, .add hc =>
    ⟨_, (Builder.run_singleton _).trans (Builder.step_eq_ok_iff.mpr (.add hc))⟩
  | .put key content, ⟨⟨.map table, slot⟩, outer⟩, .put hc =>
    ⟨_, (Builder.run_singleton _).trans (Builder.step_eq_ok_iff.mpr (.put key hc))⟩
  | .indefinite, b, _ => ⟨_, (Builder.run_singleton _).trans (Builder.step_eq_ok_iff.mpr .indefinite)⟩
  | .addChild shape calls, ⟨⟨.array items flag, slot⟩, outer⟩, .addChild hf => by
    rw [← Builder.shape_opened shape items.size (⟨.array (items.push .null) flag, slot⟩ :: outer)] at hf
    obtain ⟨m, hm⟩ := exists_runOf hf
    exact Builder.exists_run_child (Builder.step_eq_ok_iff.mpr (.addChild shape)) hm (fits_of_runOf hm).2
      (List.cons_ne_nil _ _)
  | .putChild key shape calls, ⟨⟨.map table, slot⟩, outer⟩, .putChild hf => by
    rw [← Builder.shape_opened shape (table.insert key .null).1
      (⟨.map (table.insert key .null).2, slot⟩ :: outer)] at hf
    obtain ⟨m, hm⟩ := exists_runOf hf
    exact Builder.exists_run_child (Builder.step_eq_ok_iff.mpr (.putChild key shape)) hm (fits_of_runOf hm).2
      (List.cons_ne_nil _ _)

theorem exists_runOf : ∀ {calls : List Call} {b : Builder}, (∀ call ∈ calls, call.Fits b.shape) →
    ∃ b', b.run (stepsOf calls) = .ok b'
  | [], b, _ => ⟨b, rfl⟩
  | call :: calls, b, h => by
    obtain ⟨hc, hcs⟩ := List.forall_mem_cons.mp h
    obtain ⟨m, hm⟩ := exists_run hc
    rw [← (fits_of_run hm).2.shape] at hcs
    obtain ⟨b', hb⟩ := exists_runOf hcs
    exact ⟨b', Builder.run_append_eq_ok_iff.mpr ⟨m, hm, hb⟩⟩

end

end Call

/-! ## Open containers -/

/-- The steps `before` open a container of a shape whose item is to take the place `slot` in the containers `outer`.
In each of those, what calls have built is there, and then the place of the child. -/
inductive Around (root : Shape) : List Level → Shape → Nat → List Step → Prop
  | outermost : Around root [] root 0 []
  | element {outer : List Level} {slot : Nat} {before : List Step} {calls : List Call} {items : Array Item}
      {indefinite : Bool} (shape : Shape) :
      Around root outer .array slot before → Fills .array calls (.array items indefinite) →
      Around root (⟨.array (items.push .null) indefinite, slot⟩ :: outer) shape items.size
        (before ++ stepsOf calls ++ [.addChild shape])
  | value {outer : List Level} {slot : Nat} {before : List Step} {calls : List Call} {table : ItemTable} (key : Item)
      (shape : Shape) :
      Around root outer .map slot before → Fills .map calls (.map table) →
      Around root (⟨.map (table.insert key .null).2, slot⟩ :: outer) shape (table.insert key .null).1
        (before ++ stepsOf calls ++ [.putChild key shape])

/-- The builder is as the steps have made it: its innermost container holds what calls on it have built, and around it
are the containers in which it was opened. -/
inductive Builder.Represents (root : Shape) : List Step → Builder → Prop
  | mk {outer : List Level} {shape : Shape} {slot : Nat} {before : List Step} {calls : List Call} {c : Container} :
      Around root outer shape slot before → Fills shape calls c →
      Represents root (before ++ stepsOf calls) ⟨⟨c, slot⟩, outer⟩

theorem fills_empty (shape : Shape) : Fills shape [] (.empty shape) := by
  cases shape with
  | array => exact .array rfl rfl
  | map => exact .map Table.coherent_empty rfl rfl

/-- A new builder is as no steps have made it. -/
theorem represents_new (shape : Shape) : Builder.Represents shape [] (.new shape) := by
  show Builder.Represents shape ([] ++ stepsOf []) _
  exact .mk .outermost (fills_empty shape)

namespace Fills

variable {shape : Shape} {calls : List Call}

theorem snoc_element (call : Call) {items items' : Array Item} {indefinite : Bool}
    (h : Fills .array calls (.array items indefinite)) (hc : call.isIndefinite = false)
    (hi : items'.toList = items.toList ++ call.elements) :
    Fills .array (calls ++ [call]) (.array items' indefinite) := by
  cases h with
  | array hi' hf => exact .array (by rw [hi, hi', Call.elementsOf_snoc]) (by simp [hf, hc])

theorem snoc_value (call : Call) {table table' : ItemTable} (h : Fills .map calls (.map table))
    (hc : call.isIndefinite = false) (ht : table'.Coherent) (hf : table'.indefinite = table.indefinite)
    (hl : table'.toList = putAll table.toList call.pairs) : Fills .map (calls ++ [call]) (.map table') := by
  cases h with
  | map _ hl' hf' =>
    refine .map ht ?_ (by simp [hf, hf', hc])
    rw [hl, hl', Call.pairsOf_snoc]
    exact (List.foldl_append).symm

theorem snoc_indefinite {c : Container} (h : Fills shape calls c) :
    Fills shape (calls ++ [.indefinite]) c.setIndefinite := by
  cases h with
  | array hi _ =>
    have he : Call.indefinite.elements = [] := rfl
    exact .array (by rw [hi, Call.elementsOf_snoc, he, List.append_nil]) (by simp [Call.isIndefinite])
  | map ht hl _ =>
    have hp : Call.indefinite.pairs = [] := rfl
    refine .map ⟨ht.nodup_keys, ht.nodup_index, ht.mem_index⟩ ?_ (by simp [Table.setIndefinite, Call.isIndefinite])
    rw [Call.pairsOf_snoc, hp, List.append_nil]
    exact hl

theorem shape_eq {c : Container} (h : Fills shape calls c) : shape = c.shape := by
  cases h <;> rfl

theorem coherent {table : ItemTable} (h : Fills .map calls (.map table)) : table.Coherent := by
  cases h with
  | map ht _ _ => exact ht

end Fills

/-- An array takes the item of a child in the place that was reserved at its end. -/
theorem toList_modify_push (items : Array Item) (y x : Item) :
    ((items.push y).modify items.size fun _ => x).toList = items.toList ++ [x] := by
  have hm : ∀ l : List Item, (l ++ [y]).modify l.length (fun _ => x) = l ++ [x] := by
    intro l
    induction l with
    | nil => rfl
    | cons a l ih => rw [List.cons_append, List.length_cons, List.modify_succ_cons, ih, List.cons_append]
  rw [Array.toList_modify, Array.toList_push, ← Array.length_toList, hm]

namespace Builder

variable {root : Shape} {steps : List Step} {b b' : Builder}

theorem Represents.snoc {outer : List Level} {shape : Shape} {slot : Nat} {before : List Step} {calls : List Call}
    {call : Call} {c : Container} (ha : Around root outer shape slot before) (hf : Fills shape (calls ++ [call]) c) :
    Represents root (before ++ stepsOf calls ++ call.steps) ⟨⟨c, slot⟩, outer⟩ := by
  rw [List.append_assoc, ← Call.stepsOf_snoc]
  exact .mk ha hf

/-- A container that has just been opened in another. -/
theorem Represents.opened {outer : List Level} {shape : Shape} {slot : Nat} {before : List Step}
    (ha : Around root outer shape slot before) : Represents root before ⟨⟨.empty shape, slot⟩, outer⟩ := by
  have h := Represents.mk ha (fills_empty shape)
  rwa [Call.stepsOf, List.append_nil] at h

/-- **Every step keeps the builder as the steps have made it.** -/
theorem Represents.step (h : Represents root steps b) {s : Step} (hs : b.step s = .ok b') :
    Represents root (steps ++ [s]) b' := by
  cases h with
  | @mk outer shape slot before calls c ha hf =>
  cases step_eq_ok_iff.mp hs with
  | @add items _ _ _ content =>
    obtain rfl := hf.shape_eq
    have hi : (items ++ content.item?.toList).toList = items.toList ++ (Call.add content).elements := by
      simp [Call.elements]
    exact .snoc ha (hf.snoc_element (.add content) rfl hi)
  | @put _ _ _ key content =>
    obtain rfl := hf.shape_eq
    have ht := hf.coherent
    exact .snoc ha (hf.snoc_value (.put key content) rfl (ht.insertAll _) (Table.indefinite_insertAll _ _)
      (ht.toList_insertAll _))
  | addChild shape =>
    obtain rfl := hf.shape_eq
    exact .opened (.element shape ha hf)
  | putChild key shape =>
    obtain rfl := hf.shape_eq
    exact .opened (.value key shape ha hf)
  | indefinite => exact .snoc ha hf.snoc_indefinite
  | close =>
    -- The steps from the opening of the child to this one are those of one call on the parent.
    cases ha with
    | @element outer slot' before calls' items _ _ ha hp =>
      have hr := Represents.snoc ha (hp.snoc_element (.addChild shape calls) rfl
        ((toList_modify_push items .null c.toItem).trans (by rw [Call.elements_addChild, hf.toItem])))
      simpa [Call.steps, Container.fill] using hr
    | @value outer slot' before calls' table key _ ha hp =>
      have hc := hp.coherent
      have hr := Represents.snoc ha (hp.snoc_value (.putChild key shape calls) rfl
        ((hc.insert key .null).replace (table.insert key .null).1 c.toItem) (Table.indefinite_insert _ _ _)
        ((toList_replace_insert hc key c.toItem).trans (by rw [Call.pairs_putChild, hf.toItem]; rfl)))
      simpa [Call.steps, Container.fill] using hr

/-- So does every run. -/
theorem Represents.run : ∀ {steps' steps : List Step} {b : Builder}, Represents root steps b →
    b.run steps' = .ok b' → Represents root (steps ++ steps') b'
  | [], steps, b, h, hr => by
    cases hr
    rwa [List.append_nil]
  | s :: steps', steps, b, h, hr => by
    obtain ⟨m, hs, hr⟩ := run_cons_eq_ok_iff.mp hr
    rw [List.append_cons]
    exact Represents.run (h.step hs) hr

/-- Closing a child puts its item in the place reserved for it, and touches nothing else. -/
theorem Represents.close (h : Represents root steps b) (hs : b.step .close = .ok b') :
    ∃ parent, b.outer = parent :: b'.outer ∧ b'.current.slot = parent.slot ∧
      TakesPlace b.current.slot b.current.container.toItem parent.container b'.current.container := by
  cases h with
  | @mk outer shape slot before calls c ha hf =>
  cases step_eq_ok_iff.mp hs with
  | close =>
    cases ha with
    | element shape ha hp => exact ⟨_, rfl, rfl, takesPlace_element _ _ _⟩
    | value key shape ha hp => exact ⟨_, rfl, rfl, takesPlace_value hp.coherent _ _⟩

end Builder

/-! ## The calls of a sequence of steps -/

/-- How many more containers are open after a step than before it. -/
def Step.rise : Step → Int
  | .addChild _ | .putChild .. => 1
  | .close => -1
  | _ => 0

/-- How many more containers are open after steps than before them. -/
def riseOf : List Step → Int
  | [] => 0
  | step :: steps => step.rise + riseOf steps

theorem riseOf_append (steps steps' : List Step) : riseOf (steps ++ steps') = riseOf steps + riseOf steps' := by
  induction steps with
  | nil => simp [riseOf]
  | cons step steps ih => rw [List.cons_append, riseOf, riseOf, ih, Int.add_assoc]

mutual

/-- A call closes what it opens. -/
theorem Call.riseOf_steps : ∀ call : Call, riseOf call.steps = 0
  | .add _ | .put .. | .indefinite => rfl
  | .addChild shape calls => by
    rw [steps, ← List.singleton_append, riseOf_append, riseOf_append, Call.riseOf_stepsOf calls]
    rfl
  | .putChild key shape calls => by
    rw [steps, ← List.singleton_append, riseOf_append, riseOf_append, Call.riseOf_stepsOf calls]
    rfl

theorem Call.riseOf_stepsOf : ∀ calls : List Call, riseOf (stepsOf calls) = 0
  | [] => rfl
  | call :: calls => by rw [stepsOf, riseOf_append, Call.riseOf_steps call, Call.riseOf_stepsOf calls, Int.add_zero]

end

theorem Around.riseOf_before {root shape : Shape} {outer : List Level} {slot : Nat} {before : List Step}
    (h : Around root outer shape slot before) : riseOf before = outer.length := by
  induction h with
  | outermost => rfl
  | element shape _ _ ih | value key shape _ _ ih =>
    rw [riseOf_append, riseOf_append, ih, Call.riseOf_stepsOf, List.length_cons]
    simp [riseOf, Step.rise]

/-- After steps as many containers are open as the steps open more than they close. -/
theorem Builder.Represents.riseOf_eq {root : Shape} {steps : List Step} {b : Builder} (h : Represents root steps b) :
    riseOf steps = b.outer.length := by
  obtain ⟨ha, hf⟩ := h
  rw [riseOf_append, ha.riseOf_before, Call.riseOf_stepsOf, Int.add_zero]

/-- Steps that go on with no call: there are none, or the first one closes. -/
def Ends (steps : List Step) : Prop := ∀ s t, steps = s :: t → s = .close

namespace Call

theorem not_ends_steps (call : Call) (rest : List Step) : ¬Ends (call.steps ++ rest) := by
  intro h
  cases call <;> cases h _ _ rfl

theorem ends_close (rest : List Step) : Ends (.close :: rest) := by
  rintro s t ⟨⟩
  rfl

mutual

theorem steps_append_inj : ∀ {call call' : Call} {rest rest' : List Step}, call.steps ++ rest = call'.steps ++ rest' →
    call = call' ∧ rest = rest'
  | .addChild shape calls, call', rest, rest', h => by
    cases call' with
    | addChild shape' calls' =>
      simp only [steps, List.cons_append, List.append_assoc, List.cons.injEq, Step.addChild.injEq] at h
      obtain ⟨rfl, h⟩ := h
      obtain ⟨rfl, hr⟩ := stepsOf_append_inj (ends_close _) (ends_close _) h
      exact ⟨rfl, by simpa using hr⟩
    | _ => cases h
  | .putChild key shape calls, call', rest, rest', h => by
    cases call' with
    | putChild key' shape' calls' =>
      simp only [steps, List.cons_append, List.append_assoc, List.cons.injEq, Step.putChild.injEq] at h
      obtain ⟨⟨rfl, rfl⟩, h⟩ := h
      obtain ⟨rfl, hr⟩ := stepsOf_append_inj (ends_close _) (ends_close _) h
      exact ⟨rfl, by simpa using hr⟩
    | _ => cases h
  | .add content, call', rest, rest', h | .put key content, call', rest, rest', h
  | .indefinite, call', rest, rest', h => by
    cases call' <;> cases h
    exact ⟨rfl, rfl⟩

/-- Steps are those of one list of calls only, and of what follows it. -/
theorem stepsOf_append_inj : ∀ {calls calls' : List Call} {rest rest' : List Step}, Ends rest → Ends rest' →
    stepsOf calls ++ rest = stepsOf calls' ++ rest' → calls = calls' ∧ rest = rest'
  | [], [], _, _, _, _, h => ⟨rfl, h⟩
  | [], call :: calls, rest, rest', he, _, h => by
    rw [stepsOf, List.nil_append, stepsOf, List.append_assoc] at h
    exact absurd (h ▸ he) (not_ends_steps call _)
  | call :: calls, [], rest, rest', _, he, h => by
    rw [stepsOf, stepsOf, List.nil_append, List.append_assoc] at h
    exact absurd (h ▸ he) (not_ends_steps call _)
  | call :: calls, call' :: calls', rest, rest', he, he', h => by
    rw [stepsOf, stepsOf, List.append_assoc, List.append_assoc] at h
    obtain ⟨rfl, ht⟩ := steps_append_inj h
    obtain ⟨rfl, hr⟩ := stepsOf_append_inj he he' ht
    exact ⟨rfl, hr⟩

end

theorem stepsOf_inj {calls calls' : List Call} (h : stepsOf calls = stepsOf calls') : calls = calls' := by
  have he : Ends [] := fun _ _ h => by cases h
  rw [← List.append_nil (stepsOf calls), ← List.append_nil (stepsOf calls')] at h
  exact (stepsOf_append_inj he he h).1

end Call

/-! ## Finished items -/

/-- What is built when every child is closed. -/
theorem Builder.Represents.build_eq {root : Shape} {calls : List Call} {b : Builder}
    (h : Represents root (stepsOf calls) b) : b.outer = [] ∧ b.build = finished root calls := by
  have hl := h.riseOf_eq
  rw [Call.riseOf_stepsOf] at hl
  have ho : b.outer = [] := List.eq_nil_of_length_eq_zero (by omega)
  refine ⟨ho, ?_⟩
  generalize hs : stepsOf calls = steps at h
  obtain ⟨ha, hf⟩ := h
  subst ho
  cases ha
  rw [Call.stepsOf_inj hs, ← hf.toItem]
  rfl

/-- **Builders build what their calls say.** Calls succeed exactly if each of them suits its builder. After any steps
that succeed: if no child is left open, the steps are those of a tree of calls; of whatever tree they are, no child is
open and the item is the one that the tree says, place by place; a child that is open can be closed, which puts its item
where it was opened, and touches nothing else. -/
theorem Builder.run_finished (shape : Shape) :
    (∀ calls, (∃ b, (Builder.new shape).run (stepsOf calls) = .ok b) ↔ ∀ call ∈ calls, Call.Fits shape call) ∧
    ∀ steps b, (Builder.new shape).run steps = .ok b →
      (b.outer = [] → ∃ calls, stepsOf calls = steps) ∧
      (∀ calls, stepsOf calls = steps → b.outer = [] ∧ b.build = finished shape calls) ∧
      ((∃ b', b.step .close = .ok b') ↔ b.outer ≠ []) ∧
      ∀ b', b.step .close = .ok b' → ∃ parent, b.outer = parent :: b'.outer ∧ b'.current.slot = parent.slot ∧
        TakesPlace b.current.slot b.current.container.toItem parent.container b'.current.container := by
  refine ⟨fun calls => ⟨fun ⟨b, h⟩ => ?_, fun h => ?_⟩, fun steps b h => ?_⟩
  · have hf := (Call.fits_of_runOf h).1
    rwa [new, shape_opened] at hf
  · rw [← shape_opened shape 0 []] at h
    exact Call.exists_runOf h
  · have hr : Represents shape steps b := (represents_new shape).run h
    refine ⟨fun ho => ?_, fun calls hs => ?_, exists_close_iff, fun b' hc => hr.close hc⟩
    · obtain ⟨ha, -⟩ := hr
      subst ho
      cases ha
      exact ⟨_, rfl⟩
    · subst hs
      exact hr.build_eq

/-- Calls on a map with every kind of content, some of it absent and some of it blank, that open an array under the key
of an earlier entry, and in it a map of indefinite length. -/
def Call.reopened : List Call :=
  [.put (.text "a") (.item (.unsigned 1)), .put (.text "b") (.required (some (.text ""))),
    .put (.text "c") (.typed .undefined .null), .put (.text "d") (.optional none),
    .putChild (.text "a") .array [.add (.tagged 1 (.unsigned 3)), .add (.host (.int (-5))),
      .addChild .map [.indefinite], .add (.typed .bool (.bool true)), .add (.required (some (.text "x"))),
      .add (.optional (some .null)), .add (.optional none)]]

theorem Builder.run_finished_reopened :
    ∃ b, (Builder.new .map).run (stepsOf Call.reopened) = .ok b ∧ b.outer = [] ∧
      b.build = .map [(.text "a", .array [.epochTime (.unsigned 3), .negative 4, .map [] true, .bool true, .text "x",
        .null] false), (.text "b", .text ""), (.text "c", .undefined)] false := by
  obtain ⟨hs, hr⟩ := Builder.run_finished .map
  have hf : ∀ call ∈ Call.reopened, Call.Fits .map call := by
    simp only [Call.reopened, List.forall_mem_cons]
    refine ⟨.put trivial, .put ⟨_, rfl, fun h => by cases h⟩, .put ⟨_, rfl⟩, .put trivial, .putChild ?_,
      List.forall_mem_nil _⟩
    simp only [List.forall_mem_cons]
    exact ⟨.add trivial, .add ⟨_, rfl⟩, .addChild (List.forall_mem_singleton.mpr .indefinite), .add ⟨_, rfl⟩,
      .add ⟨_, rfl, fun _ => rfl⟩, .add trivial, .add trivial, List.forall_mem_nil _⟩
  obtain ⟨b, h⟩ := (hs Call.reopened).mpr hf
  obtain ⟨-, hb, -⟩ := hr _ b h
  obtain ⟨ho, hb⟩ := hb Call.reopened rfl
  have hp : pairsOf Call.reopened = [(.text "a", .unsigned 1), (.text "b", .text ""), (.text "c", .undefined),
      (.text "a", .array [.epochTime (.unsigned 3), .negative 4, .ofEntries [] true, .bool true, .text "x", .null]
        false)] := rfl
  rw [finished, hp, Item.ofEntries_eq, Item.ofEntries_eq] at hb
  exact ⟨b, h, ho, hb.trans (by decide)⟩

end Cbor
