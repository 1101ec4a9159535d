import Mathlib.Logic.Basic
import Scriptlet.Program.Numbering
import Scriptlet.Value

/-!
# The names in a program

All names that a program has as identifiers: those it looks up, those it binds, and the
parameters of its function literals. Numbering the literals leaves them as they are.
-/

namespace Scriptlet

variable {Mark : Type}

mutual

/-- The identifiers of an expression. -/
def Expr.names : Expr Mark → List String
  | .var name => [name]
  | .lit _ => []
  | .unary _ operand => operand.names
  | .binary left _ right => left.names ++ right.names
  | .cond test yes no => test.names ++ (Item.namesAll yes ++ Item.namesElse no)
  | .fn _ params body => params ++ Item.namesAll body
  | .call callee args => callee.names ++ Expr.namesAll args
  | .array elements => Expr.namesAll elements
  | .index base position => base.names ++ position.names

def Item.names : Item Mark → List String
  | .expr e => e.names
  | .bind name init => name :: init.names
  | .ret e => e.names
  | .block items => Item.namesAll items

def Expr.namesAll : List (Expr Mark) → List String
  | [] => []
  | e :: es => e.names ++ Expr.namesAll es

def Item.namesAll : List (Item Mark) → List String
  | [] => []
  | item :: items => item.names ++ Item.namesAll items

def Item.namesElse : Option (List (Item Mark)) → List String
  | none => []
  | some items => Item.namesAll items

end

/-- The identifiers of a function: its parameters, and those of its body. -/
def Closure.names (f : Closure) : List String :=
  f.params ++ Item.namesAll f.body

mutual

/-- Numbering leaves the names as they are. -/
theorem Expr.names_number : ∀ (e : Expr Mark) (n : Nat), (e.number.run n).1.names = e.names
  | .var _, _ | .lit _, _ => rfl
  | .unary _ operand, n => operand.names_number n
  | .binary left _ right, n =>
      congrArg₂ (· ++ ·) (left.names_number n) (right.names_number _)
  | .cond test yes no, n =>
      congrArg₂ (· ++ ·) (test.names_number n)
        (congrArg₂ (· ++ ·) (Item.namesAll_numberEach yes _) (Item.namesElse_numberElse no _))
  | .fn _ params body, n => congrArg (params ++ ·) (Item.namesAll_numberEach body (n + 1))
  | .call callee args, n =>
      congrArg₂ (· ++ ·) (callee.names_number n) (Expr.namesAll_numberEach args _)
  | .array elements, n => Expr.namesAll_numberEach elements n
  | .index base position, n =>
      congrArg₂ (· ++ ·) (base.names_number n) (position.names_number _)

theorem Item.names_number : ∀ (item : Item Mark) (n : Nat),
    (item.number.run n).1.names = item.names
  | .expr e, n => e.names_number n
  | .bind name init, n => congrArg (name :: ·) (init.names_number n)
  | .ret e, n => e.names_number n
  | .block items, n => Item.namesAll_numberEach items n

theorem Expr.namesAll_numberEach : ∀ (es : List (Expr Mark)) (n : Nat),
    Expr.namesAll ((Expr.numberEach es).run n).1 = Expr.namesAll es
  | [], _ => rfl
  | e :: es, n => congrArg₂ (· ++ ·) (e.names_number n) (Expr.namesAll_numberEach es _)

theorem Item.namesAll_numberEach : ∀ (items : List (Item Mark)) (n : Nat),
    Item.namesAll ((Item.numberEach items).run n).1 = Item.namesAll items
  | [], _ => rfl
  | item :: items, n =>
      congrArg₂ (· ++ ·) (item.names_number n) (Item.namesAll_numberEach items _)

theorem Item.namesElse_numberElse : ∀ (no : Option (List (Item Mark))) (n : Nat),
    Item.namesElse ((Item.numberElse no).run n).1 = Item.namesElse no
  | none, _ => rfl
  | some items, n => Item.namesAll_numberEach items n

end

end Scriptlet
