import Scriptlet.Session.Native
import Scriptlet.Value.Operation

/-!
# Evaluation

Evaluation follows the program: operands from left to right, items in order. A
block shares the scope around it and a call opens a new one. What a call of a
script function does is a parameter of the evaluation, so that the evaluation
itself recurses on the program only; calls recurse on the number of calls that
may still be opened, and the innermost call allowed can open no other.
-/

namespace Scriptlet

/-- What happens when a script function is called. -/
abbrev CallRule := Closure → List Value → Eval Value

/-- The value of a name: what it is bound to, or else the native function of
that name. -/
def Eval.var (name : String) : Eval Value := fun session =>
  match session.get name with
  | (some value, session) => .ok value session
  | (none, session) =>
      match session.natives.get? name with
      | some native => .ok (.native native) session
      | none => .error (.fault (.unbound name)) session

mutual

/-- Evaluates an expression. -/
def Expr.eval (call : CallRule) : Expr Nat → Eval Value
  | .var name => Eval.var name
  | .lit literal => return .ofLiteral literal
  | .unary op operand => do
      let value ← operand.eval call
      Eval.ofExcept (op.apply value)
  | .binary left op right => do
      let left ← left.eval call
      let right ← right.eval call
      Eval.ofExcept (op.apply left right)
  | .cond test yes no => do
      let value ← test.eval call
      if value.truthy then
        return (← Item.evalAll call none yes).getD .null
      else Item.evalElse call no
  | .fn literal params body => do
      return .function ⟨literal, params, body, (← get).scope⟩
  | .call callee args => do
      match ← callee.eval call with
      | .function f => do
          let args ← Expr.evalAll call args
          call f args
      | .native f => do
          let args ← Expr.evalAll call args
          f.routine.run args
      | value => throw (.fault (.notCallable value.kind))
  | .array elements => do
      let elements ← Expr.evalAll call elements
      Eval.makeArray elements
  | .index base position => do
      let base ← base.eval call
      let position ← position.eval call
      Eval.ofExcept (base.atIndex position)

/-- Evaluates an item. Bindings have no value. -/
def Item.eval (call : CallRule) : Item Nat → Eval (Option Value)
  | .expr e => return some (← e.eval call)
  | .bind name init => do
      let value ← init.eval call
      modify fun session => session.set name value
      return none
  | .ret e => do
      let value ← e.eval call
      throw (.returned value)
  | .block items => Item.evalAll call none items

/-- Evaluates expressions from left to right. -/
def Expr.evalAll (call : CallRule) : List (Expr Nat) → Eval (List Value)
  | [] => return []
  | e :: es => do
      let value ← e.eval call
      let values ← Expr.evalAll call es
      return value :: values

/-- Evaluates items in order. The value is that of the last, or `last` when
there is none. -/
def Item.evalAll (call : CallRule) (last : Option Value) :
    List (Item Nat) → Eval (Option Value)
  | [] => return last
  | item :: items => do
      let value ← item.eval call
      Item.evalAll call value items

/-- Evaluates the second branch of a choice. -/
def Item.evalElse (call : CallRule) : Option (List (Item Nat)) → Eval Value
  | none => return .null
  | some items => return (← Item.evalAll call none items).getD .null

end

/-- Items are evaluated one part after the other. -/
theorem Item.evalAll_append (call : CallRule) (last : Option Value) (items more : List (Item Nat)) :
    Item.evalAll call last (items ++ more) =
      (Item.evalAll call last items >>= fun value => Item.evalAll call value more) := by
  induction items generalizing last with
  | nil => simp [Item.evalAll]
  | cons item items ih => simp [Item.evalAll, ih]

/-- The outcome of a call whose body has ended, back in the scope of the caller.
A return ends the call that it stands in, and only that. -/
def Eval.endCall (caller : ScopeId) :
    EStateM.Result Unwind Session (Option Value) → EStateM.Result Unwind Session Value
  | .ok value session => .ok (value.getD .null) (session.leave caller)
  | .error (.returned value) session => .ok value (session.leave caller)
  | .error (.fault fault) session => .error (.fault fault) (session.leave caller)

/-- Fails when a function is given the wrong number of arguments. -/
def Closure.checkArity (f : Closure) (args : List Value) : Eval Unit :=
  if args.length = f.params.length then return ()
  else throw (.fault (.wrongArity args.length f.params.length))

/-- Calls a function when so many calls may still be opened, one in another. -/
def callWithin : Nat → CallRule
  | 0, f, args => do
      f.checkArity args
      throw (.fault .tooManyCalls)
  | levels + 1, f, args => do
      f.checkArity args
      fun session =>
        Eval.endCall session.scope
          (Item.evalAll (callWithin levels) none f.body (session.enter f args))

section Calls

variable {levels : Nat} {f : Closure} {args : List Value}

theorem callWithin_of_length_ne (h : args.length ≠ f.params.length) (session : Session) :
    callWithin levels f args session =
      .error (.fault (.wrongArity args.length f.params.length)) session := by
  have harity : f.checkArity args = throw (.fault (.wrongArity args.length f.params.length)) :=
    if_neg h
  cases levels <;> rw [callWithin, harity] <;> rfl

theorem callWithin_zero_of_length_eq (h : args.length = f.params.length) (session : Session) :
    callWithin 0 f args session = .error (.fault .tooManyCalls) session := by
  have harity : f.checkArity args = pure () := if_pos h
  rw [callWithin, harity]
  rfl

theorem callWithin_succ_of_length_eq (h : args.length = f.params.length) (session : Session) :
    callWithin (levels + 1) f args session =
      Eval.endCall session.scope
        (Item.evalAll (callWithin levels) none f.body (session.enter f args)) := by
  have harity : f.checkArity args = pure () := if_pos h
  rw [callWithin, harity]
  rfl

end Calls

namespace Session

/-- The rule for calls made now: those in progress count. -/
def callRule (session : Session) : CallRule :=
  callWithin (maxCalls - session.depth)

/-- Evaluates a program. A return ends it; a fault becomes its value. -/
def evaluate (session : Session) (program : Program Nat) : Option Value × Session :=
  match Item.evalAll session.callRule none program session with
  | .ok value session => (value, session)
  | .error (.returned value) session => (some value, session)
  | .error (.fault fault) session => (some (.error fault.message), session)

/-- Calls a value from outside. -/
def call (session : Session) (callee : Value) (args : List Value) :
    EStateM.Result Unwind Session Value :=
  match callee with
  | .function f => session.callRule f args session
  | .native f => f.routine.run args session
  | value => .error (.fault (.notCallable value.kind)) session

end Session

end Scriptlet
