/-!
# Command line

`cbor inspect` shows encoded data, `cbor compose` encodes JSON text. Both take one input and these options, each at
most once:

- `-o PATH`, `--output PATH`: where the result goes;
- `-v`, `--verbose`, `-v=LEVEL`, `--verbose=LEVEL`: what is told on the way;
- of `inspect` alone, `--format FORMAT`, `--compact` and `--bytes-length-only`.

The value of an option is attached to it or is the next argument, which must not begin with a hyphen unless it is a
hyphen alone. Options of one letter may stand together after one hyphen. After `--` every argument is an input.

- `Invocation.parse`, the invocation of a list of arguments.
-/

namespace Cbor.Command

/-- How much is told. -/
inductive Level where
  | error
  | warn
  | info
  | debug
  | trace
deriving DecidableEq

/-- The level of a name. -/
def Level.ofName? : String → Option Level
  | "error" => some .error
  | "warn" => some .warn
  | "info" => some .info
  | "debug" => some .debug
  | "trace" => some .trace
  | _ => none

/-- Levels from the most urgent to the least. -/
def Level.rank : Level → Nat
  | .error => 0
  | .warn => 1
  | .info => 2
  | .debug => 3
  | .trace => 4

/-- How data is shown. -/
inductive View where
  | diagnostic
  | json
  | hex
deriving DecidableEq

/-- The view of a name. -/
def View.ofName? : String → Option View
  | "diag" | "diagnostic" => some .diagnostic
  | "json" => some .json
  | "hex" => some .hex
  | _ => none

/-- The two commands. -/
inductive Verb where
  | inspect
  | compose
deriving DecidableEq

/-- The options. -/
inductive Flag where
  | format
  | compact
  | bytesLengthOnly
  | output
  | verbose
deriving DecidableEq

/-- The option of a long name. -/
def Flag.ofName? (verb : Verb) (name : String) : Option Flag :=
  match name, verb with
  | "output", _ => some .output
  | "verbose", _ => some .verbose
  | "format", .inspect => some .format
  | "compact", .inspect => some .compact
  | "bytes-length-only", .inspect => some .bytesLengthOnly
  | _, _ => none

/-- The option of a letter. -/
def Flag.ofLetter? : Char → Option Flag
  | 'o' => some .output
  | 'v' => some .verbose
  | _ => none

/-- A place for input or output: a file, or the standard stream for a lone hyphen. -/
inductive Place where
  | standard
  | file (path : String)
deriving DecidableEq

/-- What the arguments ask for. -/
structure Invocation where
  verb : Verb
  view : Option View
  compact : Bool
  bytesLengthOnly : Bool
  output : Option Place
  verbose : Option Level
  input : Option Place
deriving DecidableEq

namespace Invocation

/-- A command without arguments. -/
def new (verb : Verb) : Invocation := ⟨verb, none, false, false, none, none, none⟩

/-! ## Options -/

/-- Gives an option a value, unless it has one. -/
def setValue (i : Invocation) (flag : Flag) (value : String) : Option Invocation :=
  match flag with
  | .format => do
    let view ← View.ofName? value
    if i.view.isSome then none else some { i with view := some view }
  | .verbose => do
    let level ← Level.ofName? value
    if i.verbose.isSome then none else some { i with verbose := some level }
  | .output =>
    if i.output.isSome then none
    else some { i with output := some (if value = "" ∨ value = "-" then .standard else .file value) }
  | .compact | .bytesLengthOnly => none

/-- Sets an option that has no value of its own, unless it is set. -/
def setFlag (i : Invocation) (flag : Flag) : Option Invocation :=
  match flag with
  | .compact => if i.compact then none else some { i with compact := true }
  | .bytesLengthOnly => if i.bytesLengthOnly then none else some { i with bytesLengthOnly := true }
  | .verbose => i.setValue .verbose "info"
  | .format | .output => none

/-- Sets the input, unless there is one. -/
def setInput (i : Invocation) (value : String) : Option Invocation :=
  if i.input.isSome then none else some { i with input := some (if value = "-" then .standard else .file value) }

/-! ## Arguments -/

/-- An option that takes the next argument if no value is attached. -/
def takesNext (flag : Flag) : Bool := flag = .format || flag = .output

/-- The options after one hyphen, and the last of them if it still needs a value. -/
def letters (i : Invocation) : List Char → Option (Invocation × Option Flag)
  | [] => some (i, none)
  | c :: cs => do
    let flag ← Flag.ofLetter? c
    match takesNext flag, cs with
    | true, [] => return (i, some flag)
    | true, '=' :: value | true, value => return (← i.setValue flag (.ofList value), none)
    | false, '=' :: value => return (← i.setValue flag (.ofList value), none)
    | false, cs => (← i.setFlag flag).letters cs

/-- The option of a long argument, and itself if it still needs a value. -/
def long (i : Invocation) (cs : List Char) : Option (Invocation × Option Flag) := do
  let flag ← Flag.ofName? i.verb (.ofList (cs.takeWhile (· ≠ '=')))
  match cs.dropWhile (· ≠ '=') with
  | _ :: value => return (← i.setValue flag (.ofList value), none)
  | [] => if takesNext flag then return (i, some flag) else return (← i.setFlag flag, none)

/-- An argument can be a value. -/
def isValue (arg : String) : Bool := arg.toList.head? ≠ some '-' || arg = "-"

/-- Takes the arguments, of which the first is the value of `pending` if that is given. -/
def addAll (i : Invocation) (pending : Option Flag) : List String → Option Invocation
  | [] => if pending.isSome then none else some i
  | arg :: args =>
    match pending with
    | some flag => if isValue arg then (i.setValue flag arg).bind (·.addAll none args) else none
    | none =>
      if isValue arg then (i.setInput arg).bind (·.addAll none args)
      else if arg = "--" then args.foldlM setInput i
      else
        match arg.toList with
        | '-' :: '-' :: cs => (i.long cs).bind fun (i, pending) => i.addAll pending args
        | _ :: cs => (i.letters cs).bind fun (i, pending) => i.addAll pending args
        | [] => none

/-- The invocation of a list of arguments; without an input there is none. -/
def parse : List String → Option Invocation
  | "inspect" :: args => ((new .inspect).addAll none args).filter (·.input.isSome)
  | "compose" :: args => ((new .compose).addAll none args).filter (·.input.isSome)
  | _ => none

end Invocation

end Cbor.Command
