import Scriptlet.Program.Render
import Scriptlet.Text.Outline

/-!
# Outlines of programs

The full structure of a program in outline notation. Where the canonical text
shows a program as it would be written, the outline names every node.
-/

namespace Scriptlet

open Text.Outline

def UnaryOp.outline : UnaryOp → String
  | .not => "Bang"
  | .negate => "Minus"

def BinaryOp.outline : BinaryOp → String
  | .divide => "Slash"
  | .multiply => "Star"
  | .add => "Plus"
  | .subtract => "Minus"
  | .greater => "Greater"
  | .less => "Less"
  | .notEqual => "BangEqual"
  | .equal => "EqualEqual"

def Literal.outline : Literal → String
  | .int n => apply "Int" n.text
  | .text s => apply "Str" (Text.quote s)
  | .bool b => apply "Boolean" (boolText b)

/-- The outline of a name. -/
def nameOutline (name : String) : String :=
  record "Ident" [("name", Text.quote name)]

variable {Mark : Type}

mutual

/-- The outline of an expression. -/
def Expr.outline : Expr Mark → String
  | .var name => apply "Ident" (nameOutline name)
  | .lit literal => apply "Literal" literal.outline
  | .unary op operand => record "Unary" [("op", op.outline), ("expr", operand.outline)]
  | .binary left op right =>
      record "Binary" [("lhs", left.outline), ("op", op.outline), ("rhs", right.outline)]
  | .cond test yes no =>
      record "If" [("condition", test.outline), ("if_block", list (Item.outlineEach yes)),
        ("else_block", Item.outlineElse no)]
  | .fn _ params body =>
      record "Function" [("args", list (params.map nameOutline)),
        ("body", list (Item.outlineEach body))]
  | .call callee args =>
      record "Call" [("func", callee.outline), ("args", list (Expr.outlineEach args))]
  | .array elements => apply "Array" (list (Expr.outlineEach elements))
  | .index base position => record "Index" [("expr", base.outline), ("index", position.outline)]

/-- The outline of an item. -/
def Item.outline : Item Mark → String
  | .expr e => apply "ExprStmt" e.outline
  | .bind name init => record "LetStmt" [("ident", nameOutline name), ("init", init.outline)]
  | .ret e => apply "ReturnStmt" e.outline
  | .block items => apply "Block" (list (Item.outlineEach items))

def Expr.outlineEach : List (Expr Mark) → List String
  | [] => []
  | e :: es => e.outline :: Expr.outlineEach es

def Item.outlineEach : List (Item Mark) → List String
  | [] => []
  | item :: items => item.outline :: Item.outlineEach items

def Item.outlineElse : Option (List (Item Mark)) → String
  | none => "None"
  | some items => apply "Some" (list (Item.outlineEach items))

end

@[simp]
theorem Expr.outlineEach_eq_map (es : List (Expr Mark)) :
    Expr.outlineEach es = es.map Expr.outline := by
  induction es with
  | nil => simp [Expr.outlineEach]
  | cons e es ih => simp [Expr.outlineEach, ih]

@[simp]
theorem Item.outlineEach_eq_map (items : List (Item Mark)) :
    Item.outlineEach items = items.map Item.outline := by
  induction items with
  | nil => simp [Item.outlineEach]
  | cons item items ih => simp [Item.outlineEach, ih]

/-- The outline of a program: the list of its items. -/
def Program.outline (program : Program Mark) : String :=
  list (program.map Item.outline)

end Scriptlet
