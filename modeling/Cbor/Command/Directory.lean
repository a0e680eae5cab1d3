import Cbor.Command.Path
import Cbor.Command.Run

/-!
# The command in a directory of plain files

The working directory holds files alone. Of the directories around it only the root is known, with the names that every
system has there; a file that is written into any of them is out of sight.

- `World`, the files of the working directory and the standard streams;
- `World.follow`, the location at the end of a path, name by name;
- `World.environment`, the environment in which the command changes a world.
-/

namespace Cbor.Command

/-- A file that is a device. -/
inductive Device where
  | null
  /-- The standard input. -/
  | input
  /-- The standard output. -/
  | output
deriving DecidableEq

/-- Where a path can lead. -/
inductive Location where
  | root
  /-- The working directory. -/
  | working
  /-- The directory of the devices. -/
  | devices
  /-- Any other directory. -/
  | elsewhere
  /-- A file of the working directory. -/
  | file (name : String)
  | device (device : Device)
deriving DecidableEq

namespace Location

/-- Names can be looked up in the location. -/
def isDirectory : Location → Bool
  | .file _ | .device _ => false
  | _ => true

/-- The directory around a directory. -/
def parent : Location → Location
  | .root | .devices => .root
  | _ => .elsewhere

/-- The names of directories in every root. -/
def rootNames : List String :=
  ["bin", "etc", "home", "lib", "opt", "proc", "root", "run", "sbin", "srv", "sys", "tmp", "usr", "var"]

end Location

/-- The files of the working directory, the standard input, and what has been written and told. -/
structure World where
  files : List (String × Bytes)
  input : Bytes
  output : Bytes
  told : List String

namespace World

/-- A directory before the command runs. -/
def new (files : List (String × Bytes)) (input : Bytes) : World := ⟨files, input, [], []⟩

/-! ## Paths -/

/-- What has a name in a directory. -/
def lookup (w : World) (directory : Location) (name : String) : Option Location :=
  match directory, name with
  | .working, name => (w.files.lookup name).map fun _ => .file name
  | .root, "dev" => some .devices
  | .root, name => if name ∈ Location.rootNames then some .elsewhere else none
  | .devices, "null" => some (.device .null)
  | .devices, "stdin" => some (.device .input)
  | .devices, "stdout" => some (.device .output)
  | _, _ => none

/-- The location that a name leads to from another one. -/
def enter (w : World) (l : Location) (name : String) : Except FileError Location :=
  if !l.isDirectory then .error .notDirectory
  else if name = "." then .ok l
  else if name = ".." then .ok l.parent
  else if Path.nameLimit < name.utf8ByteSize then .error .nameTooLong
  else
    match w.lookup l name with
    | some l => .ok l
    | none => .error .missing

/-- The location that names lead to one after the other. -/
def follow (w : World) (l : Location) (names : List String) : Except FileError Location := names.foldlM w.enter l

/-- The names of a text and the location at which they begin. -/
def start (path : String) : Except FileError (Path × Location) :=
  if path = "" then .error .missing
  else if Path.limit < path.utf8ByteSize then .error .nameTooLong
  else
    let p := Path.ofString path
    .ok (p, if p.absolute then .root else .working)

/-! ## Files -/

/-- The bytes at a location. -/
def content (w : World) : Location → Bytes
  | .file name => (w.files.lookup name).getD []
  | .device .input => w.input
  | _ => []

/-- Puts bytes in place of what is at a location. -/
def put (w : World) (b : Bytes) : Location → World
  | .file name => { w with files := (name, b) :: w.files.filter (·.1 ≠ name) }
  | .device .output => { w with output := w.output ++ b }
  | _ => w

/-- The content of a file. -/
def read (w : World) (path : String) : Except FileError Bytes := do
  let (p, l) ← start path
  let l ← w.follow l p.names
  if l.isDirectory then throw .isDirectory
  else if p.slashAtEnd then throw .notDirectory
  else return w.content l

/-- The file that a name stands for in a directory, or will stand for once it is written; what is written outside the
working directory is out of sight, as if it were written to no file. -/
def target (w : World) (directory : Location) (name : String) : Except FileError Location :=
  match w.enter directory name with
  | .error .missing => .ok (if directory = .working then .file name else .device .null)
  | result => result

/-- The world with a file of the given content. -/
def write (w : World) (path : String) (b : Bytes) : Except FileError World := do
  let (p, l) ← start path
  match p.names.getLast? with
  | none => throw .isDirectory
  | some name =>
    let directory ← w.follow l p.names.dropLast
    if !directory.isDirectory then throw .notDirectory
    if p.slashAtEnd && !Path.isDots name then throw .isDirectory
    let l ← w.target directory name
    if l.isDirectory then throw .isDirectory
    return w.put b l

/-! ## The environment -/

/-- The environment in which the command changes a world. -/
def environment : Environment (StateM World) where
  readInput := return .ok (← get).input
  readFile path := return (← get).read path
  writeOutput b := modify fun w => { w with output := w.output ++ b }
  writeFile path b := do
    match (← get).write path b with
    | .ok w =>
      set w
      return .ok ()
    | .error e => return .error e
  tell line := modify fun w => { w with told := w.told ++ [line] }

end World

end Cbor.Command
