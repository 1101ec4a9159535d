import Scriptlet.Program

/-!
# Numbering function literals

Before a program runs, its function literals get numbers that no other literal
of the session has. They are numbered from the outside in and from left to
right; nothing else about the program changes.
-/

namespace Scriptlet

variable {Mark : Type}

/-- The next number. -/
def nextNumber : StateM Nat Nat :=
  modifyGet fun n => (n, n + 1)

mutual

/-- Numbers the function literals of an expression. -/
def Expr.number : Expr Mark → StateM Nat (Expr Nat)
  | .var name => return .var name
  | .lit literal => return .lit literal
  | .unary op operand => return .unary op (← operand.number)
  | .binary left op right => return .binary (← left.number) op (← right.number)
  | .cond test yes no =>
      return .cond (← test.number) (← Item.numberEach yes) (← Item.numberElse no)
  | .fn _ params body => return .fn (← nextNumber) params (← Item.numberEach body)
  | .call callee args => return .call (← callee.number) (← Expr.numberEach args)
  | .array elements => return .array (← Expr.numberEach elements)
  | .index base position => return .index (← base.number) (← position.number)

/-- Numbers the function literals of an item. -/
def Item.number : Item Mark → StateM Nat (Item Nat)
  | .expr e => return .expr (← e.number)
  | .bind name init => return .bind name (← init.number)
  | .ret e => return .ret (← e.number)
  | .block items => return .block (← Item.numberEach items)

def Expr.numberEach : List (Expr Mark) → StateM Nat (List (Expr Nat))
  | [] => return []
  | e :: es => return (← e.number) :: (← Expr.numberEach es)

def Item.numberEach : List (Item Mark) → StateM Nat (List (Item Nat))
  | [] => return []
  | item :: items => return (← item.number) :: (← Item.numberEach items)

def Item.numberElse : Option (List (Item Mark)) → StateM Nat (Option (List (Item Nat)))
  | none => return none
  | some items => return some (← Item.numberEach items)

end

end Scriptlet
