import Scriptlet.Session.Evaluation

/-!
# Evaluation without a limit on calls

What programs come to when any number of calls may be open, as rules over programs. An
evaluation need not come to anything: a function may call itself without end. The rules
count the calls that are open at once, so that they can say that an evaluation finishes
with so many at most, and that it comes to a call while so many are open.
-/

namespace Scriptlet

/-- How an evaluation can come out. -/
abbrev Eval.Outcome (α : Type) := EStateM.Result Unwind Session α

/-- Changes the result, if there is one. -/
def Eval.Outcome.map {α β : Type} (f : α → β) : Eval.Outcome α → Eval.Outcome β
  | .ok a session => .ok (f a) session
  | .error unwind session => .error unwind session

/-- Script functions and native ones can be called. -/
def Value.IsCallable (value : Value) : Prop :=
  value.kind = .function ∨ value.kind = .builtin

mutual

/-- Evaluating an expression comes to an outcome, and never are more than `n` calls of
script functions open at once. -/
inductive Expr.Finishes : Nat → Expr Nat → Session → Eval.Outcome Value → Prop where
  | var {n : Nat} {start : Session} (name : String) :
      Expr.Finishes n (.var name) start (Eval.var name start)
  | lit {n : Nat} {start : Session} (literal : Literal) :
      Expr.Finishes n (.lit literal) start (.ok (.ofLiteral literal) start)
  | unary {n : Nat} {op : UnaryOp} {operand : Expr Nat} {start s : Session} {value : Value}
      (hoperand : Expr.Finishes n operand start (.ok value s)) :
      Expr.Finishes n (.unary op operand) start (Eval.ofExcept (op.apply value) s)
  | unaryStops {n : Nat} {op : UnaryOp} {operand : Expr Nat} {start s : Session}
      {unwind : Unwind} (hoperand : Expr.Finishes n operand start (.error unwind s)) :
      Expr.Finishes n (.unary op operand) start (.error unwind s)
  | binary {n : Nat} {left right : Expr Nat} {op : BinaryOp} {start s s' : Session}
      {value value' : Value} (hleft : Expr.Finishes n left start (.ok value s))
      (hright : Expr.Finishes n right s (.ok value' s')) :
      Expr.Finishes n (.binary left op right) start (Eval.ofExcept (op.apply value value') s')
  | leftStops {n : Nat} {left right : Expr Nat} {op : BinaryOp} {start s : Session}
      {unwind : Unwind} (hleft : Expr.Finishes n left start (.error unwind s)) :
      Expr.Finishes n (.binary left op right) start (.error unwind s)
  | rightStops {n : Nat} {left right : Expr Nat} {op : BinaryOp} {start s s' : Session}
      {value : Value} {unwind : Unwind} (hleft : Expr.Finishes n left start (.ok value s))
      (hright : Expr.Finishes n right s (.error unwind s')) :
      Expr.Finishes n (.binary left op right) start (.error unwind s')
  | yes {n : Nat} {test : Expr Nat} {yes : List (Item Nat)} {no : Option (List (Item Nat))}
      {start s : Session} {value : Value} {outcome : Eval.Outcome (Option Value)}
      (htest : Expr.Finishes n test start (.ok value s)) (htruthy : value.truthy = true)
      (hyes : Item.FinishesAll n none yes s outcome) :
      Expr.Finishes n (.cond test yes no) start (outcome.map (·.getD .null))
  | no {n : Nat} {test : Expr Nat} {yes : List (Item Nat)} {no : Option (List (Item Nat))}
      {start s : Session} {value : Value} {outcome : Eval.Outcome Value}
      (htest : Expr.Finishes n test start (.ok value s)) (htruthy : value.truthy = false)
      (hno : Item.FinishesElse n no s outcome) : Expr.Finishes n (.cond test yes no) start outcome
  | testStops {n : Nat} {test : Expr Nat} {yes : List (Item Nat)}
      {no : Option (List (Item Nat))} {start s : Session} {unwind : Unwind}
      (htest : Expr.Finishes n test start (.error unwind s)) :
      Expr.Finishes n (.cond test yes no) start (.error unwind s)
  | fn {n : Nat} {start : Session} (literal : Nat) (params : List String) (body : Program Nat) :
      Expr.Finishes n (.fn literal params body) start
        (.ok (.function ⟨literal, params, body, start.scope⟩) start)
  | callFunction {n : Nat} {callee : Expr Nat} {args : List (Expr Nat)} {start s s' : Session}
      {f : Closure} {values : List Value} {outcome : Eval.Outcome Value}
      (hcallee : Expr.Finishes n callee start (.ok (.function f) s))
      (hargs : Expr.FinishesAll n args s (.ok values s'))
      (hcall : Closure.Finishes n f values s' outcome) :
      Expr.Finishes n (.call callee args) start outcome
  /-- A native body opens no call. -/
  | callNative {n : Nat} {callee : Expr Nat} {args : List (Expr Nat)} {start s s' : Session}
      {f : Native} {values : List Value}
      (hcallee : Expr.Finishes n callee start (.ok (.native f) s))
      (hargs : Expr.FinishesAll n args s (.ok values s')) :
      Expr.Finishes n (.call callee args) start (f.routine.run values s')
  | notCallable {n : Nat} {callee : Expr Nat} {args : List (Expr Nat)} {start s : Session}
      {value : Value} (hcallee : Expr.Finishes n callee start (.ok value s))
      (hvalue : ¬value.IsCallable) :
      Expr.Finishes n (.call callee args) start (.error (.fault (.notCallable value.kind)) s)
  | calleeStops {n : Nat} {callee : Expr Nat} {args : List (Expr Nat)} {start s : Session}
      {unwind : Unwind} (hcallee : Expr.Finishes n callee start (.error unwind s)) :
      Expr.Finishes n (.call callee args) start (.error unwind s)
  | argsStop {n : Nat} {callee : Expr Nat} {args : List (Expr Nat)} {start s s' : Session}
      {value : Value} {unwind : Unwind} (hcallee : Expr.Finishes n callee start (.ok value s))
      (hvalue : value.IsCallable) (hargs : Expr.FinishesAll n args s (.error unwind s')) :
      Expr.Finishes n (.call callee args) start (.error unwind s')
  | array {n : Nat} {elements : List (Expr Nat)} {start s : Session} {values : List Value}
      (helements : Expr.FinishesAll n elements start (.ok values s)) :
      Expr.Finishes n (.array elements) start (Eval.makeArray values s)
  | elementsStop {n : Nat} {elements : List (Expr Nat)} {start s : Session} {unwind : Unwind}
      (helements : Expr.FinishesAll n elements start (.error unwind s)) :
      Expr.Finishes n (.array elements) start (.error unwind s)
  | index {n : Nat} {base position : Expr Nat} {start s s' : Session} {value value' : Value}
      (hbase : Expr.Finishes n base start (.ok value s))
      (hposition : Expr.Finishes n position s (.ok value' s')) :
      Expr.Finishes n (.index base position) start (Eval.ofExcept (value.atIndex value') s')
  | baseStops {n : Nat} {base position : Expr Nat} {start s : Session} {unwind : Unwind}
      (hbase : Expr.Finishes n base start (.error unwind s)) :
      Expr.Finishes n (.index base position) start (.error unwind s)
  | positionStops {n : Nat} {base position : Expr Nat} {start s s' : Session} {value : Value}
      {unwind : Unwind} (hbase : Expr.Finishes n base start (.ok value s))
      (hposition : Expr.Finishes n position s (.error unwind s')) :
      Expr.Finishes n (.index base position) start (.error unwind s')

inductive Item.Finishes : Nat → Item Nat → Session → Eval.Outcome (Option Value) → Prop where
  | expr {n : Nat} {e : Expr Nat} {start : Session} {outcome : Eval.Outcome Value}
      (he : Expr.Finishes n e start outcome) : Item.Finishes n (.expr e) start (outcome.map some)
  | bind {n : Nat} {name : String} {init : Expr Nat} {start s : Session} {value : Value}
      (hinit : Expr.Finishes n init start (.ok value s)) :
      Item.Finishes n (.bind name init) start (.ok none (s.set name value))
  | bindStops {n : Nat} {name : String} {init : Expr Nat} {start s : Session} {unwind : Unwind}
      (hinit : Expr.Finishes n init start (.error unwind s)) :
      Item.Finishes n (.bind name init) start (.error unwind s)
  | ret {n : Nat} {e : Expr Nat} {start s : Session} {value : Value}
      (he : Expr.Finishes n e start (.ok value s)) :
      Item.Finishes n (.ret e) start (.error (.returned value) s)
  | retStops {n : Nat} {e : Expr Nat} {start s : Session} {unwind : Unwind}
      (he : Expr.Finishes n e start (.error unwind s)) :
      Item.Finishes n (.ret e) start (.error unwind s)
  | block {n : Nat} {items : List (Item Nat)} {start : Session}
      {outcome : Eval.Outcome (Option Value)}
      (hitems : Item.FinishesAll n none items start outcome) :
      Item.Finishes n (.block items) start outcome

inductive Expr.FinishesAll :
    Nat → List (Expr Nat) → Session → Eval.Outcome (List Value) → Prop where
  | nil {n : Nat} {start : Session} : Expr.FinishesAll n [] start (.ok [] start)
  | cons {n : Nat} {e : Expr Nat} {es : List (Expr Nat)} {start s : Session} {value : Value}
      {outcome : Eval.Outcome (List Value)} (he : Expr.Finishes n e start (.ok value s))
      (hes : Expr.FinishesAll n es s outcome) :
      Expr.FinishesAll n (e :: es) start (outcome.map (value :: ·))
  | stops {n : Nat} {e : Expr Nat} {es : List (Expr Nat)} {start s : Session} {unwind : Unwind}
      (he : Expr.Finishes n e start (.error unwind s)) :
      Expr.FinishesAll n (e :: es) start (.error unwind s)

/-- Items behind one that came out with a value, or without. -/
inductive Item.FinishesAll :
    Nat → Option Value → List (Item Nat) → Session → Eval.Outcome (Option Value) → Prop where
  | nil {n : Nat} {last : Option Value} {start : Session} :
      Item.FinishesAll n last [] start (.ok last start)
  | cons {n : Nat} {last value? : Option Value} {item : Item Nat} {items : List (Item Nat)}
      {start s : Session} {outcome : Eval.Outcome (Option Value)}
      (hitem : Item.Finishes n item start (.ok value? s))
      (hitems : Item.FinishesAll n value? items s outcome) :
      Item.FinishesAll n last (item :: items) start outcome
  | stops {n : Nat} {last : Option Value} {item : Item Nat} {items : List (Item Nat)}
      {start s : Session} {unwind : Unwind}
      (hitem : Item.Finishes n item start (.error unwind s)) :
      Item.FinishesAll n last (item :: items) start (.error unwind s)

inductive Item.FinishesElse :
    Nat → Option (List (Item Nat)) → Session → Eval.Outcome Value → Prop where
  | none {n : Nat} {start : Session} : Item.FinishesElse n none start (.ok .null start)
  | some {n : Nat} {items : List (Item Nat)} {start : Session}
      {outcome : Eval.Outcome (Option Value)}
      (hitems : Item.FinishesAll n none items start outcome) :
      Item.FinishesElse n (some items) start (outcome.map (·.getD .null))

/-- Calling a function with arguments comes to an outcome. A call in which the number of
arguments is right is open until its body ends. -/
inductive Closure.Finishes :
    Nat → Closure → List Value → Session → Eval.Outcome Value → Prop where
  | wrongArity {n : Nat} {f : Closure} {args : List Value} {start : Session}
      (harity : args.length ≠ f.params.length) :
      Closure.Finishes n f args start
        (.error (.fault (.wrongArity args.length f.params.length)) start)
  | call {n : Nat} {f : Closure} {args : List Value} {start : Session}
      {outcome : Eval.Outcome (Option Value)} (harity : args.length = f.params.length)
      (hbody : Item.FinishesAll n none f.body (start.enter f args) outcome) :
      Closure.Finishes (n + 1) f args start (Eval.endCall start.scope outcome)

end

section Entering

variable (spare : Nat)

mutual

/-- Evaluating an expression comes to a call of a script function, with the right number
of arguments, while `n` calls are open, in the session `moment`. Whatever was evaluated
before finished, with never more than `spare` calls open besides the `n`. So without any
to spare this is the first call that comes while `n` are open. -/
inductive Expr.Enters : Nat → Expr Nat → Session → Session → Prop where
  | unary {n : Nat} {op : UnaryOp} {operand : Expr Nat} {start moment : Session}
      (hoperand : Expr.Enters n operand start moment) :
      Expr.Enters n (.unary op operand) start moment
  | left {n : Nat} {left right : Expr Nat} {op : BinaryOp} {start moment : Session}
      (hleft : Expr.Enters n left start moment) : Expr.Enters n (.binary left op right) start moment
  | right {n : Nat} {left right : Expr Nat} {op : BinaryOp} {start s moment : Session}
      {value : Value} (hleft : left.Finishes (n + spare) start (.ok value s))
      (hright : Expr.Enters n right s moment) : Expr.Enters n (.binary left op right) start moment
  | test {n : Nat} {test : Expr Nat} {yes : List (Item Nat)} {no : Option (List (Item Nat))}
      {start moment : Session} (htest : Expr.Enters n test start moment) :
      Expr.Enters n (.cond test yes no) start moment
  | yes {n : Nat} {test : Expr Nat} {yes : List (Item Nat)} {no : Option (List (Item Nat))}
      {start s moment : Session} {value : Value}
      (htest : test.Finishes (n + spare) start (.ok value s)) (htruthy : value.truthy = true)
      (hyes : Item.EntersAll n yes s moment) : Expr.Enters n (.cond test yes no) start moment
  | no {n : Nat} {test : Expr Nat} {yes no : List (Item Nat)} {start s moment : Session}
      {value : Value} (htest : test.Finishes (n + spare) start (.ok value s))
      (htruthy : value.truthy = false) (hno : Item.EntersAll n no s moment) :
      Expr.Enters n (.cond test yes (some no)) start moment
  | callee {n : Nat} {callee : Expr Nat} {args : List (Expr Nat)} {start moment : Session}
      (hcallee : Expr.Enters n callee start moment) : Expr.Enters n (.call callee args) start moment
  | args {n : Nat} {callee : Expr Nat} {args : List (Expr Nat)} {start s moment : Session}
      {value : Value} (hcallee : callee.Finishes (n + spare) start (.ok value s))
      (hvalue : value.IsCallable) (hargs : Expr.EntersAll n args s moment) :
      Expr.Enters n (.call callee args) start moment
  | call {n : Nat} {callee : Expr Nat} {args : List (Expr Nat)} {start s s' moment : Session}
      {f : Closure} {values : List Value}
      (hcallee : callee.Finishes (n + spare) start (.ok (.function f) s))
      (hargs : Expr.FinishesAll (n + spare) args s (.ok values s'))
      (hcall : Closure.Enters n f values s' moment) : Expr.Enters n (.call callee args) start moment
  | array {n : Nat} {elements : List (Expr Nat)} {start moment : Session}
      (helements : Expr.EntersAll n elements start moment) :
      Expr.Enters n (.array elements) start moment
  | base {n : Nat} {base position : Expr Nat} {start moment : Session}
      (hbase : Expr.Enters n base start moment) : Expr.Enters n (.index base position) start moment
  | position {n : Nat} {base position : Expr Nat} {start s moment : Session} {value : Value}
      (hbase : base.Finishes (n + spare) start (.ok value s))
      (hposition : Expr.Enters n position s moment) :
      Expr.Enters n (.index base position) start moment

inductive Item.Enters : Nat → Item Nat → Session → Session → Prop where
  | expr {n : Nat} {e : Expr Nat} {start moment : Session} (he : Expr.Enters n e start moment) :
      Item.Enters n (.expr e) start moment
  | bind {n : Nat} {name : String} {init : Expr Nat} {start moment : Session}
      (hinit : Expr.Enters n init start moment) : Item.Enters n (.bind name init) start moment
  | ret {n : Nat} {e : Expr Nat} {start moment : Session} (he : Expr.Enters n e start moment) :
      Item.Enters n (.ret e) start moment
  | block {n : Nat} {items : List (Item Nat)} {start moment : Session}
      (hitems : Item.EntersAll n items start moment) : Item.Enters n (.block items) start moment

inductive Expr.EntersAll : Nat → List (Expr Nat) → Session → Session → Prop where
  | head {n : Nat} {e : Expr Nat} {es : List (Expr Nat)} {start moment : Session}
      (he : Expr.Enters n e start moment) : Expr.EntersAll n (e :: es) start moment
  | tail {n : Nat} {e : Expr Nat} {es : List (Expr Nat)} {start s moment : Session} {value : Value}
      (he : e.Finishes (n + spare) start (.ok value s)) (hes : Expr.EntersAll n es s moment) :
      Expr.EntersAll n (e :: es) start moment

inductive Item.EntersAll : Nat → List (Item Nat) → Session → Session → Prop where
  | head {n : Nat} {item : Item Nat} {items : List (Item Nat)} {start moment : Session}
      (hitem : Item.Enters n item start moment) : Item.EntersAll n (item :: items) start moment
  | tail {n : Nat} {item : Item Nat} {items : List (Item Nat)} {start s moment : Session}
      {value? : Option Value} (hitem : item.Finishes (n + spare) start (.ok value? s))
      (hitems : Item.EntersAll n items s moment) : Item.EntersAll n (item :: items) start moment

/-- A call in which the number of arguments is right is itself the one looked for, or it is
open when that comes. -/
inductive Closure.Enters : Nat → Closure → List Value → Session → Session → Prop where
  | here {f : Closure} {args : List Value} {start : Session}
      (harity : args.length = f.params.length) : Closure.Enters 0 f args start start
  | inside {n : Nat} {f : Closure} {args : List Value} {start moment : Session}
      (harity : args.length = f.params.length)
      (hbody : Item.EntersAll n f.body (start.enter f args) moment) :
      Closure.Enters (n + 1) f args start moment

end

end Entering

end Scriptlet
