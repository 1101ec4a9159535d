import Scriptlet.Fault
import Scriptlet.Value.Equality

/-!
# Operators on values

Integers are computed exactly and fail when the result is out of range. Texts
can be joined and compared. Any two values can be compared for identity; no
other operand is accepted.
-/

namespace Scriptlet

/-- An exact result, or the fault when it is out of range. -/
def Integer.orFault (fault : Fault) (n : Int) : Except Fault Value :=
  match Integer.ofInt? n with
  | some k => .ok (.int k)
  | none => .error fault

/-- A binary operator on integers. Division truncates toward zero. -/
def BinaryOp.applyInt (m : Integer) (op : BinaryOp) (n : Integer) : Except Fault Value :=
  match op with
  | .add => Integer.orFault (.binaryOverflow m op n) (m.toInt + n.toInt)
  | .subtract => Integer.orFault (.binaryOverflow m op n) (m.toInt - n.toInt)
  | .multiply => Integer.orFault (.binaryOverflow m op n) (m.toInt * n.toInt)
  | .divide =>
      if n = 0 then .error (.divisionByZero m n)
      else Integer.orFault (.binaryOverflow m op n) (m.toInt.tdiv n.toInt)
  | .greater => .ok (.bool (n.toInt < m.toInt))
  | .less => .ok (.bool (m.toInt < n.toInt))
  | .notEqual => .ok (.bool (m != n))
  | .equal => .ok (.bool (m == n))

/-- A binary operator on texts. -/
def BinaryOp.applyText (s : String) (op : BinaryOp) (t : String) : Except Fault Value :=
  match op with
  | .add => .ok (.text (s ++ t))
  | .notEqual => .ok (.bool (s != t))
  | .equal => .ok (.bool (s == t))
  | _ => .error (.unsupportedBinary .string op .string)

/-- A binary operator on two values. -/
def BinaryOp.apply (left : Value) (op : BinaryOp) (right : Value) : Except Fault Value :=
  match left, right with
  | .int m, .int n => applyInt m op n
  | .text s, .text t => applyText s op t
  | left, right =>
      match op with
      | .equal => .ok (.bool (left.identical right))
      | .notEqual => .ok (.bool (!left.identical right))
      | _ => .error (.unsupportedBinary left.kind op right.kind)

/-- A unary operator on a value. -/
def UnaryOp.apply (op : UnaryOp) (value : Value) : Except Fault Value :=
  match op, value with
  | .not, value => .ok (.bool !value.truthy)
  | .negate, .int n => Integer.orFault (.unaryOverflow .negate n) (-n.toInt)
  | .negate, value => .error (.unsupportedUnary .negate value.kind)

/-- The element of an array at a position, counted from zero; null where there
is none. -/
def Value.atIndex (base position : Value) : Except Fault Value :=
  match base, position with
  | .array _ elements, .int i =>
      if i.toInt < 0 then .ok .null else .ok (elements[i.toInt.toNat]?.getD .null)
  | base, position => .error (.unsupportedIndex base.kind position.kind)

end Scriptlet
