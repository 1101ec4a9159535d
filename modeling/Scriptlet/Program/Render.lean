import Scriptlet.Program
import Scriptlet.Text.Quoted

/-!
# The canonical text of a program

Operators stand in parentheses with their operands, so the text shows how a
program was read. Marks of function literals do not show.
-/

namespace Scriptlet

def UnaryOp.symbol : UnaryOp → String
  | .not => "!"
  | .negate => "-"

def BinaryOp.symbol : BinaryOp → String
  | .divide => "/"
  | .multiply => "*"
  | .add => "+"
  | .subtract => "-"
  | .greater => ">"
  | .less => "<"
  | .notEqual => "!="
  | .equal => "=="

/-- The two truth values as they are written. -/
def boolText : Bool → String
  | true => "true"
  | false => "false"

def Literal.render : Literal → String
  | .int n => n.text
  | .text s => Text.quote s
  | .bool b => boolText b

/-- Texts separated by commas. -/
def commaSeparated (texts : List String) : String :=
  ", ".intercalate texts

/-- A block of items given by their texts; a blank follows each item. -/
def blockText (items : List String) : String :=
  if items.isEmpty then "\x7b\x7d"
  else "\x7b " ++ String.join (items.map (· ++ " ")) ++ "\x7d"

variable {Mark : Type}

mutual

/-- The canonical text of an expression. -/
def Expr.render : Expr Mark → String
  | .var name => name
  | .lit literal => literal.render
  | .unary op operand => "(" ++ op.symbol ++ operand.render ++ ")"
  | .binary left op right =>
      "(" ++ left.render ++ " " ++ op.symbol ++ " " ++ right.render ++ ")"
  | .cond test yes no =>
      "if " ++ test.render ++ " " ++ blockText (Item.renderEach yes) ++ Item.renderElse no
  | .fn _ params body =>
      "fn(" ++ commaSeparated params ++ ") " ++ blockText (Item.renderEach body)
  | .call callee args => callee.render ++ "(" ++ commaSeparated (Expr.renderEach args) ++ ")"
  | .array elements => "[" ++ commaSeparated (Expr.renderEach elements) ++ "]"
  | .index base position => "(" ++ base.render ++ "[" ++ position.render ++ "])"

/-- The canonical text of an item. -/
def Item.render : Item Mark → String
  | .expr e => e.render
  | .bind name init => "let " ++ name ++ " = " ++ init.render ++ ";"
  | .ret e => "return " ++ e.render ++ ";"
  | .block items => blockText (Item.renderEach items)

def Expr.renderEach : List (Expr Mark) → List String
  | [] => []
  | e :: es => e.render :: Expr.renderEach es

def Item.renderEach : List (Item Mark) → List String
  | [] => []
  | item :: items => item.render :: Item.renderEach items

def Item.renderElse : Option (List (Item Mark)) → String
  | none => ""
  | some items => " else " ++ blockText (Item.renderEach items)

end

@[simp]
theorem Expr.renderEach_eq_map (es : List (Expr Mark)) :
    Expr.renderEach es = es.map Expr.render := by
  induction es with
  | nil => simp [Expr.renderEach]
  | cons e es ih => simp [Expr.renderEach, ih]

@[simp]
theorem Item.renderEach_eq_map (items : List (Item Mark)) :
    Item.renderEach items = items.map Item.render := by
  induction items with
  | nil => simp [Item.renderEach]
  | cons item items ih => simp [Item.renderEach, ih]

/-- The canonical text of a program: its items, separated by single blanks. -/
def Program.render (program : Program Mark) : String :=
  " ".intercalate (program.map Item.render)

end Scriptlet
