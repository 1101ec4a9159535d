import Mathlib.Logic.Relation
import Scriptlet.Session.Evaluation

/-!
# Evaluation step by step

A machine that evaluates programs one step at a time. It keeps what is left to do in a
list of frames, among them one for each call in progress, and nothing bounds how many
steps it takes: neither the number of calls that may still be opened nor the number of
scopes that a look-up may visit is counted down. A fault or a return drops frame after
frame until it meets a call. Which calls may be opened is asked of the number of those in
progress, when the call is made.
-/

namespace Scriptlet.Machine

/-- What is to be done next, or what has just come out. -/
inductive Control where
  | expr (e : Expr Nat)
  | exprs (es : List (Expr Nat))
  | item (item : Item Nat)
  /-- Items, behind one that came out with `last`. -/
  | items (last : Option Value) (items : List (Item Nat))
  /-- A name to be looked up from a scope outwards, which the search reached in so many
  hops. -/
  | lookup (name : String) (scope : ScopeId) (hops : Nat)
  | call (f : Closure) (args : List Value)
  | value (value : Value)
  | values (values : List Value)
  | ended (last : Option Value)
  | unwinding (unwind : Unwind)

/-- What waits for something to come out. -/
inductive Frame where
  | unary (op : UnaryOp)
  | right (op : BinaryOp) (right : Expr Nat)
  | binary (left : Value) (op : BinaryOp)
  | choice (yes : List (Item Nat)) (no : Option (List (Item Nat)))
  /-- A choice waits for the end of its branch. -/
  | branch
  | arguments (args : List (Expr Nat))
  | function (f : Closure)
  | native (f : Native)
  | array
  | position (position : Expr Nat)
  | index (base : Value)
  | others (es : List (Expr Nat))
  | cons (value : Value)
  | statement
  | bind (name : String)
  | ret
  | items (items : List (Item Nat))
  /-- A call waits for the end of its body, to go back to the scope of the caller. -/
  | caller (scope : ScopeId)

/-- Whether a frame stands for a call in progress. -/
def Frame.isCaller : Frame → Bool
  | .caller _ => true
  | _ => false

structure Config where
  control : Control
  /-- The innermost frame comes first. -/
  frames : List Frame
  session : Session

/-- The outcome of an operation, for the frames that wait. -/
def Config.ofResult {α : Type} (out : α → Control) (frames : List Frame) :
    EStateM.Result Unwind Session α → Config
  | .ok a session => ⟨out a, frames, session⟩
  | .error unwind session => ⟨.unwinding unwind, frames, session⟩

/-- Begins an expression. -/
def beginExpr (frames : List Frame) (session : Session) : Expr Nat → Config
  | .var name => ⟨.lookup name session.scope 0, frames, session⟩
  | .lit literal => ⟨.value (.ofLiteral literal), frames, session⟩
  | .unary op operand => ⟨.expr operand, .unary op :: frames, session⟩
  | .binary left op right => ⟨.expr left, .right op right :: frames, session⟩
  | .cond test yes no => ⟨.expr test, .choice yes no :: frames, session⟩
  | .fn literal params body =>
      ⟨.value (.function ⟨literal, params, body, session.scope⟩), frames, session⟩
  | .call callee args => ⟨.expr callee, .arguments args :: frames, session⟩
  | .array elements => ⟨.exprs elements, .array :: frames, session⟩
  | .index base position => ⟨.expr base, .position position :: frames, session⟩

/-- Begins an item. -/
def beginItem (frames : List Frame) (session : Session) : Item Nat → Config
  | .expr e => ⟨.expr e, .statement :: frames, session⟩
  | .bind name init => ⟨.expr init, .bind name :: frames, session⟩
  | .ret e => ⟨.expr e, .ret :: frames, session⟩
  | .block items => ⟨.items none items, frames, session⟩

/-- What a name stands for that no scope binds. -/
def unbound (name : String) (hops : Nat) (frames : List Frame) (session : Session) : Config :=
  let session := session.observe (.get name hops)
  match session.natives.get? name with
  | some native => ⟨.value (.native native), frames, session⟩
  | none => ⟨.unwinding (.fault (.unbound name)), frames, session⟩

/-- Looks into one scope. -/
def lookup (name : String) (id : ScopeId) (hops : Nat) (frames : List Frame)
    (session : Session) : Config :=
  match session.store.scopes[id]? with
  | none => unbound name hops frames session
  | some scope =>
      match scope.bindings.lookup name, scope.parent with
      | some value, _ => ⟨.value value, frames, session.observe (.get name hops)⟩
      | none, some parent => ⟨.lookup name parent (hops + 1), frames, session⟩
      | none, none => unbound name hops frames session

/-- Opens a call, if its arguments fit and one more may be opened. -/
def call (admits : Nat → Bool) (f : Closure) (args : List Value) (frames : List Frame)
    (session : Session) : Config :=
  if args.length = f.params.length then
    if admits session.depth then
      ⟨.items none f.body, .caller session.scope :: frames, session.enter f args⟩
    else ⟨.unwinding (.fault .tooManyCalls), frames, session⟩
  else
    ⟨.unwinding (.fault (.wrongArity args.length f.params.length)), frames, session⟩

section Calls

variable {admits : Nat → Bool} {f : Closure} {args : List Value} {frames : List Frame}
  {session : Session}

theorem call_of_length_ne (h : args.length ≠ f.params.length) :
    call admits f args frames session =
      ⟨.unwinding (.fault (.wrongArity args.length f.params.length)), frames, session⟩ :=
  if_neg h

theorem call_of_full (h : args.length = f.params.length) (hfull : admits session.depth = false) :
    call admits f args frames session = ⟨.unwinding (.fault .tooManyCalls), frames, session⟩ := by
  rw [call, if_pos h, hfull]
  rfl

theorem call_of_open (h : args.length = f.params.length) (hopen : admits session.depth = true) :
    call admits f args frames session =
      ⟨.items none f.body, .caller session.scope :: frames, session.enter f args⟩ := by
  rw [call, if_pos h, hopen]
  rfl

end Calls

/-- Hands a value to the innermost frame. -/
def resume (value : Value) (frames : List Frame) (session : Session) : Frame → Option Config
  | .unary op => some (.ofResult .value frames (Eval.ofExcept (op.apply value) session))
  | .right op right => some ⟨.expr right, .binary value op :: frames, session⟩
  | .binary left op => some (.ofResult .value frames (Eval.ofExcept (op.apply left value) session))
  | .choice yes no =>
      if value.truthy then some ⟨.items none yes, .branch :: frames, session⟩
      else
        match no with
        | none => some ⟨.value .null, frames, session⟩
        | some items => some ⟨.items none items, .branch :: frames, session⟩
  | .arguments args =>
      match value with
      | .function f => some ⟨.exprs args, .function f :: frames, session⟩
      | .native f => some ⟨.exprs args, .native f :: frames, session⟩
      | value => some ⟨.unwinding (.fault (.notCallable value.kind)), frames, session⟩
  | .position position => some ⟨.expr position, .index value :: frames, session⟩
  | .index base => some (.ofResult .value frames (Eval.ofExcept (base.atIndex value) session))
  | .others es => some ⟨.exprs es, .cons value :: frames, session⟩
  | .statement => some ⟨.ended (some value), frames, session⟩
  | .bind name => some ⟨.ended none, frames, session.set name value⟩
  | .ret => some ⟨.unwinding (.returned value), frames, session⟩
  | _ => none

/-- Hands the values of a list to the innermost frame. -/
def resumeAll (values : List Value) (frames : List Frame) (session : Session) :
    Frame → Option Config
  | .function f => some ⟨.call f values, frames, session⟩
  | .native f => some (.ofResult .value frames (f.routine.run values session))
  | .array => some (.ofResult .value frames (Eval.makeArray values session))
  | .cons value => some ⟨.values (value :: values), frames, session⟩
  | _ => none

/-- Tells the innermost frame that items have ended. -/
def resumeEnded (last : Option Value) (frames : List Frame) (session : Session) :
    Frame → Option Config
  | .branch => some ⟨.value (last.getD .null), frames, session⟩
  | .items items => some ⟨.items last items, frames, session⟩
  | .caller scope => some ⟨.value (last.getD .null), frames, session.leave scope⟩
  | _ => none

/-- Drops the innermost frame. A call ends a return, and a fault goes on. -/
def dropFrame (unwind : Unwind) (frames : List Frame) (session : Session) : Frame → Config
  | .caller scope =>
      match unwind with
      | .returned value => ⟨.value value, frames, session.leave scope⟩
      | .fault fault => ⟨.unwinding (.fault fault), frames, session.leave scope⟩
  | _ => ⟨.unwinding unwind, frames, session⟩

/-- One step. There is none once something has come out that no frame waits for. -/
def step (admits : Nat → Bool) : Config → Option Config
  | ⟨.expr e, frames, session⟩ => some (beginExpr frames session e)
  | ⟨.exprs [], frames, session⟩ => some ⟨.values [], frames, session⟩
  | ⟨.exprs (e :: es), frames, session⟩ => some ⟨.expr e, .others es :: frames, session⟩
  | ⟨.item item, frames, session⟩ => some (beginItem frames session item)
  | ⟨.items last [], frames, session⟩ => some ⟨.ended last, frames, session⟩
  | ⟨.items _ (item :: items), frames, session⟩ =>
      some ⟨.item item, .items items :: frames, session⟩
  | ⟨.lookup name id hops, frames, session⟩ => some (lookup name id hops frames session)
  | ⟨.call f args, frames, session⟩ => some (call admits f args frames session)
  | ⟨.value value, frame :: frames, session⟩ => resume value frames session frame
  | ⟨.values values, frame :: frames, session⟩ => resumeAll values frames session frame
  | ⟨.ended last, frame :: frames, session⟩ => resumeEnded last frames session frame
  | ⟨.unwinding unwind, frame :: frames, session⟩ => some (dropFrame unwind frames session frame)
  | ⟨_, [], _⟩ => none

/-- The calls that a session may still open when so many are in progress. -/
def withinLimit (depth : Nat) : Bool :=
  depth < maxCalls

/-- One configuration leads to another in some number of steps. -/
def Reaches (admits : Nat → Bool) : Config → Config → Prop :=
  Relation.ReflTransGen fun config next => step admits config = some next

/-- The configuration in which a host begins to call a value. -/
def Config.ofCall (session : Session) (callee : Value) (args : List Value) : Config :=
  match callee with
  | .function f => ⟨.call f args, [], session⟩
  | .native f => ⟨.values args, [.native f], session⟩
  | value => ⟨.unwinding (.fault (.notCallable value.kind)), [], session⟩

/-- The configuration in which a program begins. -/
def Config.ofProgram (session : Session) (program : Program Nat) : Config :=
  ⟨.items none program, [], session⟩

namespace Reaches

variable {admits : Nat → Bool} {start middle last : Config}

theorem refl (config : Config) : Reaches admits config config :=
  Relation.ReflTransGen.refl

theorem trans (h : Reaches admits start middle) (h' : Reaches admits middle last) :
    Reaches admits start last :=
  Relation.ReflTransGen.trans h h'

theorem of_step (h : step admits start = some middle) : Reaches admits start middle :=
  Relation.ReflTransGen.single h

/-- A first step, and what it leads to. -/
theorem head (h : step admits start = some middle) (h' : Reaches admits middle last) :
    Reaches admits start last :=
  Relation.ReflTransGen.head h h'

/-- What holds of a configuration and is kept by every step holds of whatever it leads
to. -/
theorem invariant {holds : Config → Prop} (h : Reaches admits start last)
    (keep : ∀ {config next}, holds config → step admits config = some next → holds next)
    (hstart : holds start) : holds last := by
  induction h with
  | refl => exact hstart
  | tail _ hstep ih => exact keep ih hstep

end Reaches

end Scriptlet.Machine
