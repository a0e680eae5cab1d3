import Cbor.Command.Run

/-!
# The program

The environment of the command in the system, and its entry point.
-/

namespace Cbor.Command

/-- The number of a system error; some calls give it with a minus sign. -/
def systemNumber (code : UInt32) : UInt32 := if code < 0x80000000 then code else -code

/-- The error of a failed system call. -/
def FileError.ofSystem (e : IO.Error) : FileError :=
  match e with
  | .noFileOrDirectory .. => .missing
  | .inappropriateType _ code _ => if systemNumber code = 21 then .isDirectory else .notDirectory
  | .invalidArgument _ code _ => if systemNumber code = 36 then .nameTooLong else .other (toString e)
  | e => .other (toString e)

/-- The result of an action on files. -/
def attempt {α : Type} (action : IO α) : IO (Except FileError α) := do
  try
    return .ok (← action)
  catch e => return .error (.ofSystem e)

/-- The bytes of a stream up to its end. -/
partial def readAll (stream : IO.FS.Stream) (read : ByteArray) : IO ByteArray := do
  let piece ← stream.read 65536
  if piece.isEmpty then return read else readAll stream (read ++ piece)

/-- The environment in the system. -/
def systemEnvironment : Environment IO where
  readInput := attempt do return (← readAll (← IO.getStdin) .empty).toList
  readFile path := attempt do return (← IO.FS.readBinFile path).toList
  writeOutput b := do
    let stdout ← IO.getStdout
    stdout.write ⟨b.toArray⟩
    stdout.flush
  writeFile path b := attempt (IO.FS.writeBinFile path ⟨b.toArray⟩)
  tell := IO.eprintln

end Cbor.Command

open Cbor.Command in
/-- Runs the command; wrong arguments end with code 2, failures with code 1. -/
def main (args : List String) : IO UInt32 := do
  match ← run systemEnvironment args with
  | .success => return 0
  | .usage =>
    IO.eprintln "usage: cbor (inspect | compose) [OPTIONS] INPUT"
    return 2
  | .failure cause =>
    IO.eprintln ("Error: " ++ cause.message)
    return 1
