import Scriptlet.Program.Render
import Scriptlet.Token.Lexer

/-!
# Programs whose canonical text is program text

Not every program can be written in the language so that reading gives it back: names may
be no names, numbers may be negative, the escapes of a string literal may be unknown to the
language, and the canonical text leaves out parentheses around the test of a choice and
semicolons behind expressions. The programs that do without all this are legible.
-/

namespace Scriptlet

/-- A word that is no keyword. -/
def Token.isName (name : String) : Bool :=
  name ≠ "" && name.toList.all isWordChar && (Kind.ofKeyword? name).isNone

/-- A character that stands for itself in a quoted text or has an escape that is known. -/
def Text.isLegible (c : Char) : Bool :=
  escape c = [c] || ['"', '\\', '\t', '\n'].contains c

def Literal.isLegible : Literal → Bool
  | .int n => 0 ≤ n.toInt
  | .text s => s.toList.all Text.isLegible
  | .bool _ => true

variable {Mark : Type}

/-- The expressions with parentheses of their own around them. -/
def Expr.isGrouped : Expr Mark → Bool
  | .unary _ _ | .binary _ _ _ | .index _ _ => true
  | _ => false

/-- Whether the canonical text begins with an opening bracket. -/
def Expr.opensBracket (e : Expr Mark) : Bool :=
  e.render.toList.head? = some '(' || e.render.toList.head? = some '['

/-- Whether the expression in the next item would be taken for arguments or an index behind
the expression in this one. -/
def Item.runsOn : Item Mark → List (Item Mark) → Bool
  | .expr _, .expr e :: _ => e.opensBracket
  | _, _ => false

mutual

/-- The expressions that can be read back. -/
def Expr.isLegible : Expr Mark → Bool
  | .var name => Token.isName name
  | .lit literal => literal.isLegible
  | .unary _ operand => operand.isLegible
  | .binary left _ right => left.isLegible && right.isLegible
  | .cond test yes no =>
      test.isGrouped && test.isLegible && Item.allLegible yes && Item.elseLegible no
  | .fn _ params body => params.all Token.isName && Item.allLegible body
  | .call callee args => callee.isLegible && Expr.allLegible args
  | .array elements => Expr.allLegible elements
  | .index base position => base.isLegible && position.isLegible

def Item.isLegible : Item Mark → Bool
  | .expr e => e.isLegible
  | .bind name init => Token.isName name && init.isLegible
  | .ret e => e.isLegible
  | .block items => Item.allLegible items

def Expr.allLegible : List (Expr Mark) → Bool
  | [] => true
  | e :: es => e.isLegible && Expr.allLegible es

/-- The lists of items that can be read back, item by item. -/
def Item.allLegible : List (Item Mark) → Bool
  | [] => true
  | item :: items => item.isLegible && !item.runsOn items && Item.allLegible items

def Item.elseLegible : Option (List (Item Mark)) → Bool
  | none => true
  | some items => Item.allLegible items

end

end Scriptlet
