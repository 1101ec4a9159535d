import Scriptlet.Integer

/-!
# Programs

A program is a list of items: expressions, bindings, returns and blocks. Function
literals carry a mark. As parsed the mark says nothing, so that two programs are
equal when they are written alike; a program about to be run has its function
literals numbered, because a function remembers the literal it comes from.
-/

namespace Scriptlet

inductive UnaryOp where
  | not | negate
  deriving DecidableEq

inductive BinaryOp where
  | divide | multiply | add | subtract | greater | less | notEqual | equal
  deriving DecidableEq

/-- A constant as it stands in a program. -/
inductive Literal where
  | int (n : Integer)
  | text (s : String)
  | bool (b : Bool)
  deriving DecidableEq

mutual

/-- An expression; function literals are marked by elements of `Mark`. -/
inductive Expr (Mark : Type) where
  | var (name : String)
  | lit (literal : Literal)
  | unary (op : UnaryOp) (operand : Expr Mark)
  | binary (left : Expr Mark) (op : BinaryOp) (right : Expr Mark)
  /-- A choice; without a second branch it yields null when the test fails. -/
  | cond (test : Expr Mark) (yes : List (Item Mark)) (no : Option (List (Item Mark)))
  | fn (mark : Mark) (params : List String) (body : List (Item Mark))
  | call (callee : Expr Mark) (args : List (Expr Mark))
  | array (elements : List (Expr Mark))
  | index (base : Expr Mark) (position : Expr Mark)

/-- An item of a program or of a block. -/
inductive Item (Mark : Type) where
  | expr (e : Expr Mark)
  | bind (name : String) (init : Expr Mark)
  | ret (e : Expr Mark)
  | block (items : List (Item Mark))

end

/-- A program, or the body of a function. -/
abbrev Program (Mark : Type) := List (Item Mark)

end Scriptlet
