import Scriptlet.Session

/-!
# Native functions

The functions on texts and arrays make new values and leave their arguments as
they are; the one that prints accepts any number of arguments.
-/

namespace Scriptlet.Routine

/-- The number of arguments a body takes, unless it takes any number. -/
def arity? : Routine → Option Nat
  | .len | .first | .last | .rest => some 1
  | .push => some 2
  | .puts => none

/-- What a body answers to arguments of the right number. -/
def answer (routine : Routine) (args : List Value) : Eval Value :=
  match routine, args with
  | .len, [.text s] => return .int (.ofNat s.length)
  | .len, [.array _ elements] => return .int (.ofNat elements.length)
  | .first, [.array _ elements] => return elements.head?.getD .null
  | .last, [.array _ elements] => return elements.getLast?.getD .null
  | .rest, [.array _ []] => return .null
  | .rest, [.array _ (_ :: elements)] => Eval.makeArray elements
  | .push, [.array _ elements, value] => Eval.makeArray (elements ++ [value])
  | .puts, args => do
      modify fun session =>
        args.foldl (fun session arg => session.print (arg.render ++ "\n")) session
      return .null
  | routine, arg :: _ => throw (.fault (.unsupportedArgument routine arg.kind))
  | _, [] => return .null

/-- Calls a body. -/
def run (routine : Routine) (args : List Value) : Eval Value :=
  match routine.arity? with
  | none => routine.answer args
  | some want =>
      if args.length = want then routine.answer args
      else throw (.fault (.wrongArity args.length want))

end Scriptlet.Routine
