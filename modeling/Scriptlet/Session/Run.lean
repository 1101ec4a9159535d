import Scriptlet.Program.Grammar
import Scriptlet.Program.Numbering
import Scriptlet.Session.Evaluation
import Scriptlet.Token.Lexer

/-!
# Running a text

From a program text to its value. A text with errors of syntax is not evaluated
at all.
-/

namespace Scriptlet

/-- Reads a program text. -/
def Parsed.ofText (text : String) : Parsed :=
  Parsed.ofTokens (Token.ofText text)

namespace Session

/-- Numbers the function literals of a program, from the first free number on. -/
def load (session : Session) (program : Program Unit) : Program Nat × Session :=
  let (program, literals) := (Item.numberEach program).run session.literals
  (program, { session with literals })

/-- Runs a program text: its value if it has one, or its errors of syntax. -/
def run (session : Session) (text : String) :
    Except (List ParseError) (Option Value) × Session :=
  let parsed := Parsed.ofText text
  if parsed.errors.isEmpty then
    let (program, session) := session.load parsed.program
    let (value, session) := session.evaluate program
    (.ok value, session)
  else (.error parsed.errors, session)

end Session

end Scriptlet
