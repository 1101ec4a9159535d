import Scriptlet.Proofs.Program.Nodes
import Scriptlet.Proofs.Session.Repetition

/-!
# Accounts of what happens

An account is a session together with the programs that it ran and everything that happened:
which nodes were evaluated in which scopes and to what, what native bodies answered, and
which arrays the host made. Evaluation with an account does what it does without.
-/

namespace Scriptlet

/-- Something that happens in an evaluation, or between evaluations by the host. -/
inductive Happening where
  /-- The expression at a node begins to be evaluated in a scope. -/
  | begins (scope : ScopeId) (node : Node) (e : Expr Nat)
  /-- Its evaluation ends with a value. -/
  | yields (scope : ScopeId) (node : Node) (e : Expr Nat) (value : Value)
  /-- A native body is applied and answers with a value. -/
  | applies (routine : Routine) (value : Value)
  /-- The host makes an array. -/
  | offers (value : Value)

structure Account where
  session : Session
  /-- The programs run so far, with their literals numbered. -/
  sources : List (Program Nat)
  /-- What happened, in order. -/
  history : List Happening

/-- An evaluation that gives an account. -/
abbrev Accounted (α : Type) := EStateM Unwind Account α

/-- What happens when a script function is called. -/
abbrev AccountedRule := Closure → List Value → Accounted Value

namespace Accounted

variable {α : Type}

/-- An evaluation in which nothing happens that an account gives. -/
def plain (q : Eval α) : Accounted α := fun account =>
  match q account.session with
  | .ok a session => .ok a { account with session }
  | .error unwind session => .error unwind { account with session }

def note (happening : Happening) : Accounted Unit :=
  modify fun account => { account with history := account.history ++ [happening] }

/-- The evaluation of the expression at a node, in the current scope. -/
def visit (node : Node) (e : Expr Nat) (p : Accounted Value) : Accounted Value := do
  let scope := (← get).session.scope
  note (.begins scope node e)
  let value ← p
  note (.yields scope node e value)
  return value

/-- Applies a native body. -/
def apply (routine : Routine) (args : List Value) : Accounted Value := do
  let value ← plain (routine.run args)
  note (.applies routine value)
  return value

end Accounted

open Accounted

mutual

/-- Evaluates the expression at a node. -/
def Expr.account (call : AccountedRule) (node : Node) : Expr Nat → Accounted Value
  | .var name => visit node (.var name) (plain (Eval.var name))
  | .lit literal => visit node (.lit literal) (return .ofLiteral literal)
  | .unary op operand => visit node (.unary op operand) do
      let value ← operand.account call (node.child 0)
      plain (Eval.ofExcept (op.apply value))
  | .binary left op right => visit node (.binary left op right) do
      let left ← left.account call (node.child 0)
      let right ← right.account call (node.child 1)
      plain (Eval.ofExcept (op.apply left right))
  | .cond test yes no => visit node (.cond test yes no) do
      let value ← test.account call (node.child 0)
      if value.truthy then
        return (← Item.accountAll call (node.child 1) none yes).getD .null
      else Item.accountElse call (node.child 2) no
  | .fn literal params body => visit node (.fn literal params body) do
      return .function ⟨literal, params, body, (← get).session.scope⟩
  | .call callee args => visit node (.call callee args) do
      match ← callee.account call (node.child 0) with
      | .function f => do
          let args ← Expr.accountAll call (node.child 1) args
          call f args
      | .native f => do
          let args ← Expr.accountAll call (node.child 1) args
          apply f.routine args
      | value => throw (.fault (.notCallable value.kind))
  | .array elements => visit node (.array elements) do
      let elements ← Expr.accountAll call (node.child 0) elements
      plain (Eval.makeArray elements)
  | .index base position => visit node (.index base position) do
      let base ← base.account call (node.child 0)
      let position ← position.account call (node.child 1)
      plain (Eval.ofExcept (base.atIndex position))

/-- Evaluates the item whose nodes begin at the given one. -/
def Item.account (call : AccountedRule) (node : Node) : Item Nat → Accounted (Option Value)
  | .expr e => return some (← e.account call node)
  | .bind name init => do
      let value ← init.account call node
      plain (modify fun session => session.set name value)
      return none
  | .ret e => do
      let value ← e.account call node
      throw (.returned value)
  | .block items => Item.accountAll call node none items

def Expr.accountAll (call : AccountedRule) (node : Node) :
    List (Expr Nat) → Accounted (List Value)
  | [] => return []
  | e :: es => do
      let value ← e.account call (node.child 0)
      let values ← Expr.accountAll call (node.child 1) es
      return value :: values

def Item.accountAll (call : AccountedRule) (node : Node) (last : Option Value) :
    List (Item Nat) → Accounted (Option Value)
  | [] => return last
  | item :: items => do
      let value ← item.account call (node.child 0)
      Item.accountAll call (node.child 1) value items

def Item.accountElse (call : AccountedRule) (node : Node) :
    Option (List (Item Nat)) → Accounted Value
  | none => return .null
  | some items => return (← Item.accountAll call node none items).getD .null

end

namespace Account

/-- The outcome without the account. -/
def forget {α : Type} :
    EStateM.Result Unwind Account α → EStateM.Result Unwind Session α
  | .ok a account => .ok a account.session
  | .error unwind account => .error unwind account.session

/-- The account that an evaluation leaves, however it ends. -/
def last {α : Type} : EStateM.Result Unwind Account α → Account
  | .ok _ account => account
  | .error _ account => account

/-- The outcome of a call whose body has ended, back in the scope of the caller. -/
def endCall (caller : ScopeId) :
    EStateM.Result Unwind Account (Option Value) → EStateM.Result Unwind Account Value
  | .ok value account =>
      .ok (value.getD .null) { account with session := account.session.leave caller }
  | .error (.returned value) account =>
      .ok value { account with session := account.session.leave caller }
  | .error (.fault fault) account =>
      .error (.fault fault) { account with session := account.session.leave caller }

/-- Calls a function when so many calls may still be opened, one in another. -/
def callWithin : Nat → AccountedRule
  | 0, f, args => plain (Scriptlet.callWithin 0 f args)
  | levels + 1, f, args => do
      plain (f.checkArity args)
      fun account =>
        endCall account.session.scope
          (Item.accountAll (callWithin levels) ⟨.body f.literal, []⟩ none f.body
            { account with session := account.session.enter f args })

/-- The rule for calls made now. -/
def callRule (account : Account) : AccountedRule :=
  callWithin (maxCalls - account.session.depth)

/-- An account of a session in which nothing has happened. -/
def start (natives : Natives) (recording : Bool) : Account :=
  ⟨.start natives recording, [], []⟩

/-- Evaluates the program at a root. -/
def evaluate (account : Account) (root : Root) (program : Program Nat) :
    Option Value × Account :=
  match Item.accountAll account.callRule ⟨root, []⟩ none program account with
  | .ok value account => (value, account)
  | .error (.returned value) account => (some value, account)
  | .error (.fault fault) account => (some (.error fault.message), account)

/-- Numbers the function literals of a program, which comes next among the sources. -/
def load (account : Account) (program : Program Unit) : Program Nat × Account :=
  let (program, session) := account.session.load program
  (program, { account with session, sources := account.sources ++ [program] })

/-- Runs a program text. -/
def run (account : Account) (text : String) :
    Except (List ParseError) (Option Value) × Account :=
  let parsed := Parsed.ofText text
  if parsed.errors.isEmpty then
    let (program, loaded) := account.load parsed.program
    let (value, account) := loaded.evaluate (.program account.sources.length) program
    (.ok value, account)
  else (.error parsed.errors, account)

/-- Calls a value from outside. -/
def call (account : Account) (callee : Value) (args : List Value) :
    EStateM.Result Unwind Account Value :=
  match callee with
  | .function f => account.callRule f args account
  | .native f => apply f.routine args account
  | value => .error (.fault (.notCallable value.kind)) account

/-- Makes an array for the host. -/
def makeArray (account : Account) (elements : List Value) : Value × Account :=
  let (value, session) := account.session.makeArray elements
  (value, { account with session, history := account.history ++ [.offers value] })

/-- Accounts of what hosts do, with the values that came out. -/
inductive Hosted (natives : Natives) : Account → List Value → Prop where
  | start (recording : Bool) : Hosted natives (.start natives recording) []
  | run {account : Account} {known : List Value} (text : String)
      (h : Hosted natives account known) :
      Hosted natives (account.run text).2 ((account.run text).1.toOption.join.toList ++ known)
  | set {account : Account} {known : List Value} {value : Value} (name : String)
      (h : Hosted natives account known)
      (hvalue : Session.Offers account.session known value) :
      Hosted natives { account with session := account.session.set name value } known
  | call {account : Account} {known : List Value} {callee : Value} {args : List Value}
      (h : Hosted natives account known)
      (hcallee : Session.Offers account.session known callee)
      (hargs : ∀ arg ∈ args, Session.Offers account.session known arg) :
      Hosted natives (last (account.call callee args))
        ((Eval.value? (forget (account.call callee args))).toList ++ known)
  | makeArray {account : Account} {known elements : List Value}
      (h : Hosted natives account known)
      (helements : ∀ element ∈ elements, Session.Offers account.session known element) :
      Hosted natives (account.makeArray elements).2 ((account.makeArray elements).1 :: known)
  | takeReport {account : Account} {known : List Value} (h : Hosted natives account known) :
      Hosted natives { account with session := account.session.takeReport.2 } known

end Account

/-- Without its account the evaluation is the other one. -/
def Accounted.Tells {α : Type} (p : Accounted α) (q : Eval α) : Prop :=
  ∀ account, Account.forget (p account) = q account.session

namespace Accounted.Tells

variable {α β : Type} {p : Accounted α} {q : Eval α}

theorem plain (q : Eval α) : Tells (Accounted.plain q) q := by
  intro account
  unfold Accounted.plain
  cases q account.session <;> rfl

theorem pure (a : α) : Tells (Pure.pure a) (Pure.pure a) :=
  fun _ => rfl

theorem throw (unwind : Unwind) :
    Tells (MonadExcept.throw unwind : Accounted α) (MonadExcept.throw unwind) :=
  fun _ => rfl

theorem bind {f : α → Accounted β} {g : α → Eval β} (h : Tells p q)
    (hf : ∀ a, Tells (f a) (g a)) : Tells (p >>= f) (q >>= g) := by
  intro account
  change Account.forget (EStateM.bind p f account) = EStateM.bind q g account.session
  unfold EStateM.bind
  rw [← h account]
  cases p account with
  | ok a account => exact hf a account
  | error unwind account => rfl

/-- What an account gives besides leaves the evaluation as it is. -/
theorem bind_note {q : Eval β} {f : Unit → Accounted β} (happening : Happening)
    (h : Tells (f ()) q) : Tells (note happening >>= f) q :=
  fun account => h { account with history := account.history ++ [happening] }

theorem visit {p : Accounted Value} {q : Eval Value} (node : Node) (e : Expr Nat) (h : Tells p q) :
    Tells (Accounted.visit node e p) q := by
  have hbind (scope : ScopeId) : Tells (do
      note (.begins scope node e)
      let value ← p
      note (.yields scope node e value)
      return value) q := by
    refine .bind_note _ ?_
    rw [← bind_pure q]
    exact h.bind fun value => .bind_note _ (.pure value)
  exact fun account => hbind account.session.scope account

theorem apply (routine : Routine) (args : List Value) :
    Tells (Accounted.apply routine args) (routine.run args) := by
  rw [← bind_pure (routine.run args)]
  exact (plain _).bind fun value => .bind_note _ (.pure value)

end Accounted.Tells

section Programs

variable {call : AccountedRule} {rule : CallRule}

mutual

/-- Evaluating an expression with an account is evaluating it, if it is so for calls. -/
theorem Expr.account_tells (hcall : ∀ f args, Tells (call f args) (rule f args)) :
    ∀ (e : Expr Nat) (node : Node), Tells (e.account call node) (e.eval rule)
  | .var _, _ => .visit _ _ (.plain _)
  | .lit _, _ => .visit _ _ (.pure _)
  | .unary _ operand, _ =>
      .visit _ _ ((operand.account_tells hcall _).bind fun _ => .plain _)
  | .binary left _ right, _ =>
      .visit _ _ ((left.account_tells hcall _).bind fun _ =>
        (right.account_tells hcall _).bind fun _ => .plain _)
  | .cond test yes no, node => by
      refine .visit _ _ ((test.account_tells hcall _).bind fun value => ?_)
      split
      · exact (Item.accountAll_tells hcall yes _ none).bind fun _ => .pure _
      · exact Item.accountElse_tells hcall no _
  | .fn _ _ _, _ => .visit _ _ fun _ => rfl
  | .call callee args, node => by
      refine .visit _ _ ((callee.account_tells hcall _).bind fun value => ?_)
      cases value with
      | function f => exact (Expr.accountAll_tells hcall args _).bind fun values => hcall f values
      | native f =>
          exact (Expr.accountAll_tells hcall args _).bind fun values => .apply f.routine values
      | int | text | bool | null | array | error => exact .throw _
  | .array elements, _ =>
      .visit _ _ ((Expr.accountAll_tells hcall elements _).bind fun _ => .plain _)
  | .index base position, _ =>
      .visit _ _ ((base.account_tells hcall _).bind fun _ =>
        (position.account_tells hcall _).bind fun _ => .plain _)

theorem Item.account_tells (hcall : ∀ f args, Tells (call f args) (rule f args)) :
    ∀ (item : Item Nat) (node : Node), Tells (item.account call node) (item.eval rule)
  | .expr e, _ => (e.account_tells hcall _).bind fun _ => .pure _
  | .bind _ init, _ =>
      (init.account_tells hcall _).bind fun _ => (Tells.plain _).bind fun _ => .pure _
  | .ret e, _ => (e.account_tells hcall _).bind fun _ => .throw _
  | .block items, _ => Item.accountAll_tells hcall items _ none

theorem Expr.accountAll_tells (hcall : ∀ f args, Tells (call f args) (rule f args)) :
    ∀ (es : List (Expr Nat)) (node : Node),
      Tells (Expr.accountAll call node es) (Expr.evalAll rule es)
  | [], _ => .pure _
  | e :: es, _ =>
      (e.account_tells hcall _).bind fun _ =>
        (Expr.accountAll_tells hcall es _).bind fun _ => .pure _

theorem Item.accountAll_tells (hcall : ∀ f args, Tells (call f args) (rule f args)) :
    ∀ (items : List (Item Nat)) (node : Node) (last : Option Value),
      Tells (Item.accountAll call node last items) (Item.evalAll rule last items)
  | [], _, _ => .pure _
  | item :: items, _, _ =>
      (item.account_tells hcall _).bind fun value => Item.accountAll_tells hcall items _ value

theorem Item.accountElse_tells (hcall : ∀ f args, Tells (call f args) (rule f args)) :
    ∀ (no : Option (List (Item Nat))) (node : Node),
      Tells (Item.accountElse call node no) (Item.evalElse rule no)
  | none, _ => .pure _
  | some items, _ => (Item.accountAll_tells hcall items _ none).bind fun _ => .pure _

end

end Programs

namespace Account

theorem forget_endCall (caller : ScopeId)
    (result : EStateM.Result Unwind Account (Option Value)) :
    forget (endCall caller result) = Eval.endCall caller (forget result) := by
  cases result with
  | ok value account => rfl
  | error unwind account => cases unwind <;> rfl

theorem callWithin_tells (levels : Nat) (f : Closure) (args : List Value) :
    Tells (callWithin levels f args) (Scriptlet.callWithin levels f args) := by
  induction levels generalizing f args with
  | zero => exact .plain _
  | succ levels ih =>
      refine (Tells.plain _).bind fun _ account => ?_
      have hbody := Item.accountAll_tells ih f.body ⟨.body f.literal, []⟩ none
        { account with session := account.session.enter f args }
      rw [forget_endCall, hbody]

variable {natives : Natives} {account : Account} {session : Session} {known : List Value}

theorem evaluate_session (account : Account) (root : Root) (program : Program Nat) :
    ((account.evaluate root program).1, (account.evaluate root program).2.session) =
      account.session.evaluate program := by
  have hitems := Item.accountAll_tells (callWithin_tells (maxCalls - account.session.depth)) program
    ⟨root, []⟩ none account
  unfold evaluate Session.evaluate
  rw [callRule, Session.callRule, ← hitems]
  cases Item.accountAll (callWithin (maxCalls - account.session.depth)) ⟨root, []⟩ none program
    account with
  | ok value account => rfl
  | error unwind account => cases unwind <;> rfl

theorem run_session (account : Account) (text : String) :
    ((account.run text).1, (account.run text).2.session) = account.session.run text := by
  unfold run Session.run
  dsimp only
  split
  · have hevaluate := evaluate_session (account.load (Parsed.ofText text).program).2
      (.program account.sources.length) (account.load (Parsed.ofText text).program).1
    exact congrArg (fun outcome => (Except.ok outcome.1, outcome.2)) hevaluate
  · rfl

theorem forget_call (account : Account) (callee : Value) (args : List Value) :
    forget (account.call callee args) = account.session.call callee args := by
  cases callee with
  | function f => exact callWithin_tells _ f args account
  | native f => exact Tells.apply f.routine args account
  | int | text | bool | null | array | error => rfl

theorem last_session {α : Type} (result : EStateM.Result Unwind Account α) :
    (last result).session = Eval.last (forget result) := by
  cases result <;> rfl

/-- There is an account of all that a host does. -/
theorem exists_hosted (h : Session.Hosted natives session known) :
    ∃ account : Account, account.Hosted natives known ∧ account.session = session := by
  induction h with
  | start recording => exact ⟨_, .start recording, rfl⟩
  | run text _ ih =>
      obtain ⟨account, haccount, rfl⟩ := ih
      have hrun := run_session account text
      refine ⟨_, ?_, congrArg Prod.snd hrun⟩
      rw [← hrun]
      exact haccount.run text
  | set name _ hvalue ih =>
      obtain ⟨account, haccount, rfl⟩ := ih
      exact ⟨_, haccount.set name hvalue, rfl⟩
  | @call _ _ callee args _ hcallee hargs ih =>
      obtain ⟨account, haccount, rfl⟩ := ih
      rw [← forget_call, ← last_session]
      exact ⟨_, haccount.call hcallee hargs, rfl⟩
  | makeArray _ helements ih =>
      obtain ⟨account, haccount, rfl⟩ := ih
      exact ⟨_, haccount.makeArray helements, rfl⟩
  | takeReport _ ih =>
      obtain ⟨account, haccount, rfl⟩ := ih
      exact ⟨_, haccount.takeReport, rfl⟩

end Account

end Scriptlet
