import Scriptlet.Program
import Scriptlet.Token

/-!
# Operators and how tightly they bind

Which tokens are operators, and what may stand behind a complete operand: a
binary operator, the arguments of a call, or an index. Each of these binds with
a precedence of its own; a token that continues nothing has the lowest.
-/

namespace Scriptlet

/-- Binding strength, from loosest to tightest. -/
inductive Precedence where
  | lowest | equality | order | sum | product | unary | call | index
  deriving DecidableEq

/-- The number of precedences that bind less tightly. -/
def Precedence.rank : Precedence → Nat
  | .lowest => 0
  | .equality => 1
  | .order => 2
  | .sum => 3
  | .product => 4
  | .unary => 5
  | .call => 6
  | .index => 7

def UnaryOp.ofKind? : Token.Kind → Option UnaryOp
  | .bang => some .not
  | .minus => some .negate
  | _ => none

def BinaryOp.ofKind? : Token.Kind → Option BinaryOp
  | .slash => some .divide
  | .star => some .multiply
  | .plus => some .add
  | .minus => some .subtract
  | .greater => some .greater
  | .less => some .less
  | .notEqual => some .notEqual
  | .equal => some .equal
  | _ => none

def BinaryOp.precedence : BinaryOp → Precedence
  | .equal | .notEqual => .equality
  | .less | .greater => .order
  | .add | .subtract => .sum
  | .multiply | .divide => .product

/-- What may stand behind a complete operand. -/
inductive Continuation where
  | operator (op : BinaryOp)
  | call
  | index
  deriving DecidableEq

/-- What a token of this kind begins behind a complete operand. -/
def Continuation.ofKind? : Token.Kind → Option Continuation
  | .leftParen => some .call
  | .leftBracket => some .index
  | kind => (BinaryOp.ofKind? kind).map .operator

def Continuation.precedence : Continuation → Precedence
  | .operator op => op.precedence
  | .call => .call
  | .index => .index

/-- How tightly a token of this kind binds the operand before it. -/
def Precedence.of (kind : Token.Kind) : Precedence :=
  match Continuation.ofKind? kind with
  | some continuation => continuation.precedence
  | none => .lowest

/-- Whatever continues an operand binds more tightly than the lowest precedence. -/
theorem Continuation.rank_precedence_pos (c : Continuation) : 0 < c.precedence.rank := by
  cases c with
  | operator op => cases op <;> decide
  | call => decide
  | index => decide

theorem Precedence.rank_of_pos_iff (kind : Token.Kind) :
    0 < (Precedence.of kind).rank ↔ (Continuation.ofKind? kind).isSome := by
  cases kind <;> decide

end Scriptlet
