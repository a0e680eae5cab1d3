import Cbor.Factory

/-!
# Builders

A builder fills an array or a map step by step. A child container is opened in a place reserved in its parent, and put
there when it is closed.

- `Builder`, the containers that are open, innermost first;
- `Builder.step`, one step;
- `Builder.build`, the finished item.
-/

namespace Cbor

/-- Why a step fails. -/
inductive BuildError where
  /-- A required element is absent. -/
  | missingElement
  /-- A required element is an empty string or container. -/
  | emptyElement
  /-- A required value is absent. -/
  | missingValue
  /-- A host value does not become an item. -/
  | create (error : CreateError)
  /-- The step does not apply to the innermost container. -/
  | misplaced

/-- The text of an error. -/
def BuildError.message : BuildError → String
  | .missingElement => "Missing required value: array element"
  | .emptyElement => "Missing required value: non-empty array element"
  | .missingValue => "Missing required value: map value"
  | .create e => e.message
  | .misplaced => "step outside its container"

/-! ## Containers -/

/-- The two kinds of containers. -/
inductive Shape where
  | array
  | map
deriving DecidableEq

/-- A container that is being filled. -/
inductive Container where
  | array (items : Array Item) (indefinite : Bool)
  | map (table : ItemTable)

namespace Container

/-- A container without content, of definite length. -/
def empty : Shape → Container
  | .array => .array #[] false
  | .map => .map .empty

/-- The finished container. -/
def toItem : Container → Item
  | .array items indefinite => .array items.toList indefinite
  | .map table => table.toItem

/-- The number of elements or entries. -/
def size : Container → Nat
  | .array items _ => items.size
  | .map table => table.size

/-- Marks a container as being of indefinite length. -/
def setIndefinite : Container → Container
  | .array items _ => .array items true
  | .map table => .map (table.setIndefinite true)

/-- Puts an item in place of what is at a position. -/
def fill (slot : Nat) (x : Item) : Container → Container
  | .array items indefinite => .array (items.modify slot fun _ => x) indefinite
  | .map table => .map (table.replace slot x)

end Container

/-! ## Steps -/

/-- What a step places. -/
inductive Content where
  | item (x : Item)
  /-- A host value, by the item that it suggests. -/
  | host (v : HostValue)
  /-- A host value, by an item of a kind. -/
  | typed (kind : Kind) (v : HostValue)
  | tagged (tag : UInt64) (x : Item)
  /-- An item whose absence is an error. -/
  | required (x : Option Item)
  /-- An item whose absence skips the step. -/
  | optional (x : Option Item)

/-- A step of a builder. -/
inductive Step where
  /-- Adds an element to an array. -/
  | add (content : Content)
  /-- Sets the value of a key of a map. -/
  | put (key : Item) (content : Content)
  /-- Opens a container as an element of an array. -/
  | addChild (shape : Shape)
  /-- Opens a container as the value of a key of a map. -/
  | putChild (key : Item) (shape : Shape)
  /-- Gives the innermost container an indefinite length. -/
  | indefinite
  /-- Closes the innermost container. -/
  | close

/-- The item of a content, if there is one to place; an array also requires that an item is not blank. -/
def Content.toItem? (shape : Shape) : Content → Except BuildError (Option Item)
  | .item x => .ok (some x)
  | .host v => ((create .any v).map some).mapError .create
  | .typed kind v => ((create kind v).map some).mapError .create
  | .tagged tag x => .ok (some (.ofTag tag x))
  | .required (some x) => if shape = .array && x.isBlank then .error .emptyElement else .ok (some x)
  | .required none => .error (if shape = .array then .missingElement else .missingValue)
  | .optional x => .ok x

/-! ## Builders -/

/-- A container, and the position reserved for it in the container around it. -/
structure Level where
  container : Container
  slot : Nat

/-- The containers that are open: the innermost one, and those around it from the inside out. -/
structure Builder where
  current : Level
  outer : List Level

namespace Builder

/-- A builder of an empty container. -/
def new (shape : Shape) : Builder := ⟨⟨.empty shape, 0⟩, []⟩

/-- The builder with another innermost container. -/
def set (b : Builder) (c : Container) : Builder := { b with current := ⟨c, b.current.slot⟩ }

/-- Opens a container in a place of the innermost one. -/
def openChild (b : Builder) (parent : Container) (slot : Nat) (shape : Shape) : Builder :=
  ⟨⟨.empty shape, slot⟩, (b.set parent).current :: b.outer⟩

/-- Closes the innermost container, unless it is the outermost. -/
def close? (b : Builder) : Option Builder :=
  match b.outer with
  | [] => none
  | parent :: outer => some ⟨⟨parent.container.fill b.current.slot b.current.container.toItem, parent.slot⟩, outer⟩

/-- One step. -/
def step (b : Builder) (s : Step) : Except BuildError Builder :=
  match s, b.current.container with
  | .add content, .array items indefinite => do
    match ← content.toItem? .array with
    | some x => return b.set (.array (items.push x) indefinite)
    | none => return b
  | .put key content, .map table => do
    match ← content.toItem? .map with
    | some x => return b.set (.map (table.insert key x).2)
    | none => return b
  | .addChild shape, .array items indefinite =>
    .ok (b.openChild (.array (items.push .null) indefinite) items.size shape)
  | .putChild key shape, .map table =>
    let (slot, table) := table.insert key .null
    .ok (b.openChild (.map table) slot shape)
  | .indefinite, c => .ok (b.set c.setIndefinite)
  | .close, _ =>
    match b.close? with
    | some b => .ok b
    | none => .error .misplaced
  | _, _ => .error .misplaced

/-- Steps one after the other, up to the first that fails. -/
def run (b : Builder) (steps : List Step) : Except BuildError Builder := steps.foldlM step b

/-- The item of a container inside others. -/
def buildWithin (x : Item) (slot : Nat) : List Level → Item
  | [] => x
  | parent :: outer => buildWithin (parent.container.fill slot x).toItem parent.slot outer

/-- The item of the outermost container, after all inside it are closed. -/
def build (b : Builder) : Item := buildWithin b.current.container.toItem b.current.slot b.outer

/-! ## Dumps -/

/-- The dump of a level, given that of the builder around it. -/
def dumpLevel (level : Level) (parent : String) : String :=
  let place := [("parent", parent), ("slot", toString level.slot)]
  match level.container with
  | .array items indefinite =>
    Dump.record "ArrayBuilder" (("array", Dump.array (Item.dumpItems items.toList) indefinite) :: place)
  | .map table =>
    Dump.record "MapBuilder" (("map", Dump.map (Item.dumpEntries table.toList) table.indefinite) :: place)

/-- The dump of a builder. -/
def dump (b : Builder) : String := dumpLevel b.current (b.outer.foldr dumpLevel "Root")

end Builder

end Cbor
