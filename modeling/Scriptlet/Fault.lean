import Scriptlet.Program.Render
import Scriptlet.Value

/-!
# Faults

What can go wrong in an evaluation, with the facts that its wording needs. A
fault ends the evaluation: scripts cannot catch one.
-/

namespace Scriptlet

/-- The number of script calls that may be in progress at once. -/
def maxCalls : Nat := 4096

inductive Fault where
  | unbound (name : String)
  | notCallable (kind : Value.Kind)
  | wrongArity (got want : Nat)
  | tooManyCalls
  | unsupportedArgument (routine : Routine) (kind : Value.Kind)
  | unsupportedIndex (base position : Value.Kind)
  | unsupportedUnary (op : UnaryOp) (kind : Value.Kind)
  | unsupportedBinary (left : Value.Kind) (op : BinaryOp) (right : Value.Kind)
  | divisionByZero (dividend divisor : Integer)
  | binaryOverflow (left : Integer) (op : BinaryOp) (right : Integer)
  | unaryOverflow (op : UnaryOp) (n : Integer)
  deriving DecidableEq

/-- The wording of a fault. Operands of one type lack the operator; operands of
two types do not go together. -/
def Fault.message : Fault → String
  | .unbound name => "identifier not found: " ++ name
  | .notCallable kind => "not a function: " ++ kind.name
  | .wrongArity got want =>
      "wrong number of arguments. got=" ++ Text.Decimal.write got ++ ", want=" ++
        Text.Decimal.write want
  | .tooManyCalls =>
      "stack overflow: more than " ++ Text.Decimal.write maxCalls ++ " nested calls"
  | .unsupportedArgument routine kind =>
      "argument to `" ++ routine.name ++ "` not supported, got " ++ kind.name
  | .unsupportedIndex base position =>
      "index operator not supported: " ++ base.name ++ "[" ++ position.name ++ "]"
  | .unsupportedUnary op kind => "unknown operator: " ++ op.symbol ++ kind.name
  | .unsupportedBinary left op right =>
      (if left = right then "unknown operator: " else "type mismatch: ") ++
        left.name ++ " " ++ op.symbol ++ " " ++ right.name
  | .divisionByZero dividend divisor =>
      "division by zero: " ++ dividend.text ++ " / " ++ divisor.text
  | .binaryOverflow left op right =>
      "integer overflow: " ++ left.text ++ " " ++ op.symbol ++ " " ++ right.text
  | .unaryOverflow op n => "integer overflow: " ++ op.symbol ++ n.text

end Scriptlet
