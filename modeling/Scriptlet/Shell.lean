import Scriptlet.Session.Run

/-!
# The command line

Without arguments the program answers line by line: it prompts, reads a line and
runs it in the session that the earlier lines left. With one argument it runs
the file of that name. What it writes and its exit code are a function of what
it is given; only the reading and writing itself is left to the outside.
-/

namespace Scriptlet

/-- Why a file or the input could not be read. -/
inductive ReadProblem where
  /-- The bytes are no text. -/
  | notUtf8
  /-- The system refused, for a reason that also has a number. -/
  | system (reason : String) (code : Nat)

def ReadProblem.message : ReadProblem → String
  | .notUtf8 => "stream did not contain valid UTF-8"
  | .system reason code =>
      reason ++ " (os error " ++ Text.Decimal.write code ++ ")"

/-- What a run of the program leaves: its exit code and what it wrote. -/
structure Transcript where
  code : Nat
  output : String
  errors : String

namespace Shell

def prompt : String := ">> "

/-- The exit code after a wrong number of arguments. -/
def misuseCode : Nat := 64

/-- The exit code after a script that failed. -/
def failureCode : Nat := 65

/-- The exit code after something could not be read. -/
def unreadableCode : Nat := 74

/-- What the arguments ask for. -/
inductive Command where
  | converse
  | script (path : String)
  | misuse

def Command.ofArgs : List String → Command
  | [] => .converse
  | [path] => .script path
  | _ => .misuse

/-- The answer to a text: what is written to either stream, and whether the text
ran without a failure. -/
structure Reply where
  output : String
  errors : String
  succeeded : Bool

/-- A text as a line. -/
def line (text : String) : String := text ++ "\n"

/-- Runs a text and answers with what it prints, then its value on a line; or
with its errors of syntax. -/
def reply (session : Session) (text : String) : Reply × Session :=
  let (outcome, session) := session.run text
  let ((printed, _), session) := session.takeReport
  match outcome with
  | .ok none => (⟨printed, "", true⟩, session)
  | .ok (some value) =>
      (⟨printed ++ line value.render, "", value.kind != .error⟩, session)
  | .error errors =>
      (⟨printed, String.join (errors.map fun error => line error.message), false⟩, session)

/-- The text that bytes encode. -/
def decode? (bytes : List UInt8) : Option String :=
  String.fromUTF8? ⟨bytes.toArray⟩

/-- The lines of an input, each with its line feed; the last may have none. -/
def lines (bytes : List UInt8) : List (List UInt8) :=
  bytes.foldr
    (fun byte lines =>
      if byte = 10 then [byte] :: lines
      else
        match lines with
        | [] => [[byte]]
        | line :: lines => (byte :: line) :: lines)
    []

/-- The session of a conversation or a script as it starts. -/
def freshSession : Session := Session.start .standard false

/-- The answer to one line of input, or the problem with it. -/
def turn (session : Session) (bytes : List UInt8) : Except ReadProblem (Reply × Session) :=
  match decode? bytes with
  | some text => .ok (reply session text)
  | none => .error .notUtf8

/-- Goes on with a conversation of which `output` and `errors` are written. -/
def converseFrom (output errors : String) (session : Session) :
    List (List UInt8) → Transcript
  | [] => ⟨0, output ++ line prompt, errors⟩
  | bytes :: rest =>
      match turn session bytes with
      | .ok (answer, session) =>
          converseFrom (output ++ prompt ++ answer.output) (errors ++ answer.errors) session rest
      | .error problem =>
          ⟨unreadableCode, output ++ prompt, errors ++ line problem.message⟩

/-- A conversation over a whole input. -/
def converse (input : List UInt8) : Transcript :=
  converseFrom "" "" freshSession (lines input)

/-- The run of a script, given what reading its file gave. -/
def script (content : Except ReadProblem (List UInt8)) : Transcript :=
  match content with
  | .error problem => ⟨unreadableCode, "", line problem.message⟩
  | .ok bytes =>
      match turn freshSession bytes with
      | .error problem => ⟨unreadableCode, "", line problem.message⟩
      | .ok (answer, _) =>
          ⟨if answer.succeeded then 0 else failureCode, answer.output, answer.errors⟩

/-- The run after a wrong number of arguments. -/
def misuse : Transcript :=
  ⟨misuseCode, "", line "Usage: simian [script]"⟩

end Shell

end Scriptlet
