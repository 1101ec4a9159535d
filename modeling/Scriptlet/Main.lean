import Scriptlet.Shell

/-!
# The program

Connects the command line with the streams and files of the system. Lines are
answered as they arrive.
-/

namespace Scriptlet.Shell

/-- The bytes of the next line with its line feed; none at the end of the input. -/
partial def readLine (input : IO.FS.Stream) (found : ByteArray) : IO ByteArray := do
  let byte ← input.read 1
  if byte.isEmpty then return found
  else
    let found := found.append byte
    if byte.data.contains 10 then return found else readLine input found

/-- Answers line after line, and gives the exit code. -/
partial def serve (input output errors : IO.FS.Stream) (session : Session) : IO Nat := do
  output.putStr prompt
  output.flush
  let bytes ← readLine input .empty
  if bytes.isEmpty then
    output.putStr (line "")
    return 0
  else
    match turn session bytes.toList with
    | .ok (answer, session) =>
        output.putStr answer.output
        errors.putStr answer.errors
        serve input output errors session
    | .error problem =>
        errors.putStr (line problem.message)
        return unreadableCode

/-- The problem behind a failure of the system. -/
def problemOf : IO.Error → ReadProblem
  | .noFileOrDirectory _ code reason
  | .permissionDenied _ code reason
  | .inappropriateType _ code reason
  | .invalidArgument _ code reason
  | .resourceExhausted _ code reason
  | .noSuchThing _ code reason
  | .resourceBusy code reason
  | .hardwareFault code reason
  | .otherError code reason => .system reason code.toNat
  | error => .system error.toString 0

/-- The bytes of a file. -/
def readFile (path : String) : IO (Except ReadProblem (List UInt8)) := do
  try
    let file ← IO.FS.Handle.mk path .read
    return .ok (← file.readBinToEnd).toList
  catch error => return .error (problemOf error)

/-- Writes a transcript, and gives its exit code. -/
def replay (output errors : IO.FS.Stream) (transcript : Transcript) : IO Nat := do
  output.putStr transcript.output
  output.flush
  errors.putStr transcript.errors
  return transcript.code

end Scriptlet.Shell

open Scriptlet Scriptlet.Shell in
def main (args : List String) : IO UInt32 := do
  let output ← IO.getStdout
  let errors ← IO.getStderr
  let code ← match Command.ofArgs args with
    | .converse => serve (← IO.getStdin) output errors freshSession
    | .script path => replay output errors (script (← readFile path))
    | .misuse => replay output errors misuse
  return code.toUInt32
