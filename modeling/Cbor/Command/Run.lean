import Cbor.Command.Arguments
import Cbor.Encode
import Cbor.Factory
import Cbor.Json.Printer
import Cbor.Json.Reading
import Cbor.Trace

/-!
# The command

The command is a program over an environment that reads and writes; in any monad it does the same.

- `Environment`, the effects that the command needs;
- `run`, the command under a list of arguments.
-/

namespace Cbor.Command

/-! ## Failures -/

/-- Why a file is not read or written. -/
inductive FileError where
  | missing
  | notDirectory
  | isDirectory
  | nameTooLong
  | other (text : String)
deriving DecidableEq

/-- The text of an error. -/
def FileError.message : FileError → String
  | .missing => "No such file or directory (os error 2)"
  | .notDirectory => "Not a directory (os error 20)"
  | .isDirectory => "Is a directory (os error 21)"
  | .nameTooLong => "File name too long (os error 36)"
  | .other text => text

/-- Why a command fails. -/
inductive Failure where
  | file (error : FileError)
  /-- The input is not text. -/
  | notText
  | json (error : JsonError)
  | decode (error : DecodeError)
  | projection (error : ProjectionError)
  | create (error : CreateError)

/-- The text of a failure. -/
def Failure.message : Failure → String
  | .file e => e.message
  | .notText => "stream did not contain valid UTF-8"
  | .json e => e.message
  | .decode e => e.message
  | .projection e => e.message
  | .create e => e.message

/-! ## Environments -/

/-- The effects that the command needs. -/
structure Environment (m : Type → Type) where
  readInput : m (Except FileError Bytes)
  readFile : String → m (Except FileError Bytes)
  writeOutput : Bytes → m Unit
  writeFile : String → Bytes → m (Except FileError Unit)
  /-- Tells a line on the way. -/
  tell : String → m Unit

/-- How the command ends. -/
inductive Outcome where
  | success
  /-- The arguments are wrong, and nothing has been done. -/
  | usage
  | failure (cause : Failure)

/-! ## What is told -/

/-- A message of a part of the program. -/
structure Message where
  level : Level
  /-- The part that the message comes from. -/
  source : String
  text : String

/-- The name of a level in a line. -/
def Level.label : Level → String
  | .error => "ERROR"
  | .warn => "WARN"
  | .info => "INFO"
  | .debug => "DEBUG"
  | .trace => "TRACE"

/-- The line of a message; it names the source where more is told than usual. -/
def Message.line (chosen : Level) (msg : Message) : String :=
  if Level.info.rank < chosen.rank then msg.level.label ++ " " ++ msg.source ++ ": " ++ msg.text
  else msg.level.label ++ " " ++ msg.text

/-- The message of an event. -/
def eventMessage (e : Event) : Message :=
  match e with
  | .tag .. | .sequence _ => ⟨.trace, "mdoc_cbor::decode", e.text⟩
  | .undecodable _ | .truncated => ⟨.debug, "mdoc_cbor::diag", e.text⟩

section

variable {m : Type → Type} [Monad m] (env : Environment m)

/-- Tells those of the messages that the chosen level lets through. -/
def tellAll (chosen : Option Level) (messages : List Message) : ExceptT Failure m Unit :=
  match chosen with
  | none => pure ()
  | some chosen => (messages.filter (·.level.rank ≤ chosen.rank)).forM fun msg => env.tell (msg.line chosen)

/-- Tells events, which only the two most talkative levels let through. -/
def tellEvents (chosen : Option Level) (events : Unit → List Event) : ExceptT Failure m Unit :=
  if chosen.any (Level.info.rank < ·.rank) then tellAll env chosen ((events ()).map eventMessage) else pure ()

/-! ## Input and output -/

/-- All bytes of a place. -/
def readPlace (place : Place) : ExceptT Failure m Bytes := do
  let content ← match place with
    | .standard => env.readInput
    | .file path => env.readFile path
  match content with
  | .ok b => return b
  | .error e => throw (.file e)

/-- Writes bytes to a place. -/
def writePlace (place : Place) (b : Bytes) : ExceptT Failure m Unit :=
  match place with
  | .standard => env.writeOutput b
  | .file path => do
    match ← env.writeFile path b with
    | .ok _ => return
    | .error e => throw (.file e)

/-- A result, or a failure made of its error. -/
def orFail {ε α : Type} (failure : ε → Failure) : Except ε α → ExceptT Failure m α
  | .ok x => return x
  | .error e => throw (failure e)

/-! ## Commands -/

/-- The text of data in a view, and the events of making it. -/
def render (i : Invocation) (data : Bytes) : ExceptT Failure m String := do
  let options : Diagnostic.Options := ⟨!i.compact, i.bytesLengthOnly⟩
  match i.view.getD .diagnostic with
  | .diagnostic => do
    tellEvents env i.verbose fun _ => Trace.decodeSequence data
    let items ← orFail .decode (decodeSequence data)
    tellEvents env i.verbose fun _ => items.flatMap Trace.diagnostic
    return "\n".intercalate (items.map (·.diagnostic options))
  | .json => do
    tellEvents env i.verbose fun _ => Trace.decode data
    let x ← orFail .decode (decode data)
    tellEvents env i.verbose fun _ => Trace.json x
    let value ← orFail .projection x.toJson
    return if i.compact then value.compact else value.pretty
  | .hex => return data.toHex

/-- Shows encoded data; a line break ends what goes to the standard output. -/
def inspect (i : Invocation) : ExceptT Failure m Unit := do
  let data ← readPlace env (i.input.getD .standard)
  tellAll env i.verbose [⟨.info, "cbor::inspect", "Read " ++ toString data.length ++ " bytes"⟩]
  let text ← render env i data
  let output := i.output.getD .standard
  writePlace env output (Bytes.ofString (if output = .standard then text ++ "\n" else text))

/-- Encodes a JSON text. -/
def compose (i : Invocation) : ExceptT Failure m Unit := do
  let input ← readPlace env (i.input.getD .standard)
  let text ← match input.toString? with
    | some text => pure text
    | none => throw .notText
  let value ← orFail .json (Json.ofString text)
  let x ← orFail .create (create .any (.ofJson value))
  let data := x.encode
  tellAll env i.verbose
    [⟨.info, "cbor::compose", "Composed " ++ toString data.length ++ " bytes of " ++ x.typeName⟩]
  writePlace env (i.output.getD .standard) data

/-- The command under a list of arguments. -/
def run (args : List String) : m Outcome := do
  match Invocation.parse args with
  | none => return .usage
  | some i => do
    let result ← (match i.verb with
      | .inspect => inspect env i
      | .compose => compose env i).run
    match result with
    | .ok _ => return .success
    | .error cause => return .failure cause

end

end Cbor.Command
