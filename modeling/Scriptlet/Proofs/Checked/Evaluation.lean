import Scriptlet.Proofs.Checked.Operation
import Scriptlet.Proofs.Checked.Reader
import Scriptlet.Proofs.Checked.Scanner
import Scriptlet.Proofs.Session.WellFormed

/-!
# Evaluating with a counter of calls

An evaluation counts the calls in progress: up when one begins, down when it ends, however
it ends. The counter is tested before a call begins and must not fall below zero when one
ends, and no more calls can be nested than it allows.

In every session that a host reaches, running a text from its characters to its value and
calling a value meet no hazard and do what they do without the checks. Reading tokens that
were made by hand can meet one, where a token on the last line that there is gets blamed.
Main result: `Session.meets_only_line_hazards`.
-/

namespace Scriptlet.Checked

/-- What happens when a script function is called. -/
abbrev CheckedRule := Closure → List Value → CheckedEval Value

mutual

/-- Evaluates an expression. -/
def evalExpr (call : CheckedRule) : Expr Nat → CheckedEval Value
  | .var name => plain (Eval.var name)
  | .lit literal => return .ofLiteral literal
  | .unary op operand => do
      let value ← evalExpr call operand
      applyUnary op value
  | .binary left op right => do
      let left ← evalExpr call left
      let right ← evalExpr call right
      applyBinary left op right
  | .cond test yes no => do
      let value ← evalExpr call test
      if value.truthy then
        return (← evalItems call none yes).getD .null
      else evalElse call no
  | .fn literal params body => do
      return .function ⟨literal, params, body, (← get).scope⟩
  | .call callee args => do
      match ← evalExpr call callee with
      | .function f => do
          let args ← evalExprs call args
          call f args
      | .native f => do
          let args ← evalExprs call args
          runNative f.routine args
      | value => fail (.notCallable value.kind)
  | .array elements => do
      let elements ← evalExprs call elements
      plain (Eval.makeArray elements)
  | .index base position => do
      let base ← evalExpr call base
      let position ← evalExpr call position
      plain (Eval.ofExcept (base.atIndex position))

/-- Evaluates an item. -/
def evalItem (call : CheckedRule) : Item Nat → CheckedEval (Option Value)
  | .expr e => return some (← evalExpr call e)
  | .bind name init => do
      let value ← evalExpr call init
      modify fun session => session.set name value
      return none
  | .ret e => do
      let value ← evalExpr call e
      raise (.returned value)
  | .block items => evalItems call none items

/-- Evaluates expressions from left to right. -/
def evalExprs (call : CheckedRule) : List (Expr Nat) → CheckedEval (List Value)
  | [] => return []
  | e :: es => do
      let value ← evalExpr call e
      let values ← evalExprs call es
      return value :: values

/-- Evaluates items in order. -/
def evalItems (call : CheckedRule) (last : Option Value) :
    List (Item Nat) → CheckedEval (Option Value)
  | [] => return last
  | item :: items => do
      let value ← evalItem call item
      evalItems call value items

/-- Evaluates the second branch of a choice. -/
def evalElse (call : CheckedRule) : Option (List (Item Nat)) → CheckedEval Value
  | none => return .null
  | some items => return (← evalItems call none items).getD .null

end

/-- Counts a call that has ended, and goes back to the scope of the caller. -/
def leave (caller : ScopeId) : CheckedEval Unit := do
  let session ← get
  let depth ← expect .counter (decrement? session.depth)
  set { session with scope := caller, depth }

/-- The value of a call whose body has ended. -/
def callValue : Except Unwind (Option Value) → CheckedEval Value
  | .ok value => return value.getD .null
  | .error (.returned value) => return value
  | .error (.fault fault) => fail fault

/-- Calls a script function, one call in another for so many rounds. -/
def callFunction : Nat → CheckedRule
  | 0, _, _ => throw (.inl .endless)
  | rounds + 1, f, args => do
      let session ← get
      if args.length ≠ f.params.length then fail (.wrongArity args.length f.params.length)
      else if maxCalls ≤ session.depth then fail .tooManyCalls
      else
        set (session.enter f args)
        let ended ← attempt (evalItems (callFunction rounds) none f.body)
        leave session.scope
        callValue ended

/-- The rule for calls, with a round for every call that may be in progress and one more. -/
def callRule : CheckedRule :=
  callFunction (maxCalls + 1)

/-- Evaluates a program. -/
def evaluate (session : Session) (program : Program Nat) :
    Except Hazard (Option Value × Session) :=
  match evalItems callRule none program session with
  | .ok value session => .ok (value, session)
  | .error (.inr (.returned value)) session => .ok (some value, session)
  | .error (.inr (.fault fault)) session => .ok (some (.error fault.message), session)
  | .error (.inl hazard) _ => .error hazard

/-- Runs a program text. -/
def run (session : Session) (text : String) :
    Except Hazard (Except (List ParseError) (Option Value) × Session) := do
  let (parsed, _) ← read (← Scan.tokens.on text)
  if parsed.errors.isEmpty then
    let (program, session) := session.load parsed.program
    let (value, session) ← evaluate session program
    return (.ok value, session)
  else return (.error parsed.errors, session)

/-- Calls a value from outside. -/
def call (callee : Value) (args : List Value) : CheckedEval Value :=
  match callee with
  | .function f => callRule f args
  | .native f => runNative f.routine args
  | value => fail (.notCallable value.kind)

/-- A call that has been counted can be counted out again. -/
theorem leave_eq {session : Session} (caller : ScopeId) (h : 0 < session.depth) :
    leave caller session = .ok () (session.leave caller) := by
  obtain ⟨depth, hdepth⟩ := Nat.exists_eq_add_of_lt h
  rw [leave, get_bind, hdepth]
  change EStateM.Result.ok () _ = _
  simp [Session.leave, hdepth]

theorem left_eq_last {α : Type} (result : EStateM.Result Unwind Session α) :
    left result = Eval.last result := by
  cases result <;> rfl

/-- Besides the calls in progress, so many may still be opened. -/
def CallsLeft (levels : Nat) (session : Session) : Prop :=
  session.depth + levels = maxCalls

/-- Where so many calls may still be opened, a checked evaluation does what a plain one
does, and as many may be opened after it. -/
def AgreesWithin {α : Type} (levels : Nat) (p : CheckedEval α) (q : Eval α) : Prop :=
  Agrees (CallsLeft levels) id p q

namespace AgreesWithin

variable {α β : Type} {levels : Nat} {p : CheckedEval α} {q : Eval α}

theorem pure (a : α) : AgreesWithin levels (Pure.pure a : CheckedEval α) (Pure.pure a) :=
  Agrees.pure a

theorem raise (unwind : Unwind) :
    AgreesWithin levels (Checked.raise unwind : CheckedEval α) (throw unwind) :=
  Agrees.raise unwind

theorem bind {f : α → CheckedEval β} {g : α → Eval β} (h : AgreesWithin levels p q)
    (hf : ∀ a, AgreesWithin levels (f a) (g a)) : AgreesWithin levels (p >>= f) (q >>= g) :=
  Agrees.bind h hf

theorem plain (h : ∀ session, (left (q session)).depth = session.depth) :
    AgreesWithin levels (Checked.plain q) q :=
  Agrees.plain fun session hsession => by rw [CallsLeft, h, hsession]

theorem ofExcept (result : Except Fault α) :
    AgreesWithin levels (Checked.plain (Eval.ofExcept result)) (Eval.ofExcept result) :=
  plain fun _ => by cases result <;> rfl

theorem makeArray (elements : List Value) :
    AgreesWithin levels (Checked.plain (Eval.makeArray elements)) (Eval.makeArray elements) :=
  plain fun _ => rfl

theorem var (name : String) :
    AgreesWithin levels (Checked.plain (Eval.var name)) (Eval.var name) := by
  refine plain fun session => ?_
  rw [left_eq_last]
  exact (Expr.eval_confined 0 session (.var name)).depth

theorem runNative (routine : Routine) (args : List Value) :
    AgreesWithin levels (Checked.runNative routine args) (routine.run args) := by
  rw [runNative_eq_plain]
  refine plain fun session => ?_
  rw [left_eq_last]
  exact (Routine.run_confined session routine args).depth

end AgreesWithin

theorem left_endCall (caller : ScopeId) (result : EStateM.Result Unwind Session (Option Value)) :
    left (Eval.endCall caller result) = (left result).leave caller := by
  cases result with
  | ok value last => rfl
  | error unwind last => cases unwind <;> rfl

section Programs

variable {levels : Nat} {call : CheckedRule} {rule : CallRule}

mutual

/-- Evaluating an expression meets no hazard if calls meet none. -/
theorem evalExpr_agrees (hcall : ∀ f args, AgreesWithin levels (call f args) (rule f args)) :
    ∀ e : Expr Nat, AgreesWithin levels (evalExpr call e) (e.eval rule)
  | .var name => .var name
  | .lit literal => .pure _
  | .unary op operand => by
      refine (evalExpr_agrees hcall operand).bind fun value => ?_
      rw [applyUnary_eq_plain]
      exact .ofExcept _
  | .binary left op right => by
      refine (evalExpr_agrees hcall left).bind fun value => ?_
      refine (evalExpr_agrees hcall right).bind fun value' => ?_
      rw [applyBinary_eq_plain]
      exact .ofExcept _
  | .cond test yes no => by
      refine (evalExpr_agrees hcall test).bind fun value => ?_
      split
      · exact (evalItems_agrees hcall yes none).bind fun _ => .pure _
      · exact evalElse_agrees hcall no
  | .fn literal params body => fun _ hsession => ⟨rfl, hsession⟩
  | .call callee args => by
      refine (evalExpr_agrees hcall callee).bind fun value => ?_
      cases value with
      | function f => exact (evalExprs_agrees hcall args).bind fun values => hcall f values
      | native f =>
          exact (evalExprs_agrees hcall args).bind fun values => .runNative f.routine values
      | int | text | bool | null | array | error => exact .raise _
  | .array elements => (evalExprs_agrees hcall elements).bind fun _ => .makeArray _
  | .index base position =>
      (evalExpr_agrees hcall base).bind fun _ =>
        (evalExpr_agrees hcall position).bind fun _ => .ofExcept _

theorem evalItem_agrees (hcall : ∀ f args, AgreesWithin levels (call f args) (rule f args)) :
    ∀ item : Item Nat, AgreesWithin levels (evalItem call item) (item.eval rule)
  | .expr e => (evalExpr_agrees hcall e).bind fun _ => .pure _
  | .bind _ init => (evalExpr_agrees hcall init).bind fun _ _ hsession => ⟨rfl, hsession⟩
  | .ret e => (evalExpr_agrees hcall e).bind fun _ => .raise _
  | .block items => evalItems_agrees hcall items none

theorem evalExprs_agrees (hcall : ∀ f args, AgreesWithin levels (call f args) (rule f args)) :
    ∀ es : List (Expr Nat), AgreesWithin levels (evalExprs call es) (Expr.evalAll rule es)
  | [] => .pure []
  | e :: es =>
      (evalExpr_agrees hcall e).bind fun _ => (evalExprs_agrees hcall es).bind fun _ => .pure _

theorem evalItems_agrees (hcall : ∀ f args, AgreesWithin levels (call f args) (rule f args)) :
    ∀ (items : List (Item Nat)) (last : Option Value),
      AgreesWithin levels (evalItems call last items) (Item.evalAll rule last items)
  | [], _ => .pure _
  | item :: items, _ =>
      (evalItem_agrees hcall item).bind fun value => evalItems_agrees hcall items value

theorem evalElse_agrees (hcall : ∀ f args, AgreesWithin levels (call f args) (rule f args)) :
    ∀ no : Option (List (Item Nat)),
      AgreesWithin levels (evalElse call no) (Item.evalElse rule no)
  | none => .pure _
  | some items => (evalItems_agrees hcall items none).bind fun _ => .pure _

end

end Programs

section Calls

variable {levels rounds : Nat} {f : Closure} {args : List Value} {session : Session}

theorem callFunction_of_length_ne (h : args.length ≠ f.params.length) :
    callFunction (rounds + 1) f args session =
      .error (.inr (.fault (.wrongArity args.length f.params.length))) session := by
  rw [callFunction, get_bind, if_pos h]
  rfl

theorem callFunction_of_maxCalls_le (h : args.length = f.params.length)
    (hdepth : maxCalls ≤ session.depth) :
    callFunction (rounds + 1) f args session = .error (.inr (.fault .tooManyCalls)) session := by
  rw [callFunction, get_bind, if_neg (not_not_intro h), if_pos hdepth]
  rfl

/-- A call that is opened ends as its body does, if the body meets no hazard and leaves the
counter above zero. -/
theorem callFunction_of_lt {result : EStateM.Result Unwind Session (Option Value)}
    (h : args.length = f.params.length) (hdepth : session.depth < maxCalls)
    (hbody : evalItems (callFunction rounds) none f.body (session.enter f args) =
      outcome id result)
    (hleft : 0 < (left result).depth) :
    callFunction (rounds + 1) f args session =
      outcome id (Eval.endCall session.scope result) := by
  have hattempt : (attempt _ : CheckedEval (Except Unwind (Option Value))) _ = _ :=
    attempt_of_eq hbody
  rw [callFunction, get_bind, if_neg (not_not_intro h), if_neg (Nat.not_le_of_lt hdepth),
    set_bind, bind_of_ok hattempt, id_eq, bind_of_ok (leave_eq session.scope hleft)]
  cases result with
  | ok value last => rfl
  | error unwind last => cases unwind <;> rfl

/-- Calls meet no hazard: when a body has ended the counter is where it was, above zero. -/
theorem callFunction_agrees (levels : Nat) (f : Closure) (args : List Value) :
    AgreesWithin levels (callFunction (levels + 1) f args) (callWithin levels f args) := by
  induction levels generalizing f args with
  | zero =>
      intro session hsession
      have hdepth : maxCalls ≤ session.depth := Nat.le_of_eq hsession.symm
      by_cases harity : args.length = f.params.length
      · rw [callWithin_zero_of_length_eq harity]
        exact ⟨callFunction_of_maxCalls_le harity hdepth, hsession⟩
      · rw [callWithin_of_length_ne harity]
        exact ⟨callFunction_of_length_ne harity, hsession⟩
  | succ levels ih =>
      intro session hsession
      by_cases harity : args.length = f.params.length
      · have hentered : (session.enter f args).depth = session.depth + 1 :=
          (Law.enter_confined session f args).depth
        have hlevels : CallsLeft levels (session.enter f args) := by
          unfold CallsLeft at hsession ⊢
          omega
        -- The body runs with one call more in progress and one fewer left to open.
        obtain ⟨hbody, hleft⟩ :=
          evalItems_agrees ih f.body none (session.enter f args) hlevels
        have hlast : (left (Item.evalAll (callWithin levels) none f.body
            (session.enter f args))).depth = session.depth + 1 := by
          unfold CallsLeft at hlevels hleft
          omega
        have hdepth : session.depth < maxCalls := by
          unfold CallsLeft at hsession
          omega
        rw [callWithin_succ_of_length_eq harity]
        refine ⟨callFunction_of_lt harity hdepth hbody (by omega), ?_⟩
        rw [left_endCall]
        unfold CallsLeft at hsession ⊢
        simp only [Session.leave]
        omega
      · rw [callWithin_of_length_ne harity]
        exact ⟨callFunction_of_length_ne harity, hsession⟩

end Calls

section Hosts

variable {session : Session}

/-- With no call in progress, evaluating a program meets no hazard. -/
theorem evaluate_eq_ok (h : session.depth = 0) (program : Program Nat) :
    evaluate session program = .ok (session.evaluate program) := by
  have hlevels : CallsLeft maxCalls session := by rw [CallsLeft, h, Nat.zero_add]
  have heval := (evalItems_agrees (callFunction_agrees maxCalls) program none session hlevels).1
  unfold evaluate Session.evaluate
  rw [Session.callRule, h, Nat.sub_zero, callRule]
  simp only [id_eq] at heval
  rw [heval]
  cases Item.evalAll (callWithin maxCalls) none program session with
  | ok value last => rfl
  | error unwind last => cases unwind <;> rfl

/-- The lines of a text in memory, which has fewer than `2 ^ 63` bytes, have words for their
numbers. -/
theorem numbered_ofText {text : String} (h : text.utf8ByteSize < 2 ^ 63) :
    ∀ error ∈ (Parsed.ofText text).errors, error.Numbered := by
  intro error herror token hhead
  obtain ⟨errors, heq, hordered⟩ := (Parsed.reads_ofTokens (Token.ofText text)).ordered
  have hsuffix : error.tokens <:+ Token.ofText text :=
    hordered.blamed (heq ▸ herror : error ∈ [] ++ errors)
  have hline := line_le_of_mem_ofText (hsuffix.subset (List.mem_of_mem_head? hhead))
  have hwords : UInt64.size = 2 ^ 64 := rfl
  omega

/-- With no call in progress, running a text in memory meets no hazard. -/
theorem run_eq_ok (h : session.depth = 0) {text : String} (htext : text.utf8ByteSize < 2 ^ 63) :
    run session text = .ok (session.run text) := by
  have hread : read (Token.ofText text) = .ok (Parsed.ofText text, 0) := by
    rw [read_eq]
    exact if_pos (numbered_ofText htext)
  unfold run Session.run
  simp only [Scan.tokens_on, bind, Except.bind, hread]
  split
  · have hloaded : (session.load (Parsed.ofText text).program).2.depth = 0 := h
    rw [evaluate_eq_ok hloaded]
    rfl
  · rfl

/-- With no call in progress, calling a value meets no hazard. -/
theorem call_eq (h : session.depth = 0) (callee : Value) (args : List Value) :
    call callee args session = outcome id (session.call callee args) := by
  have hlevels : CallsLeft maxCalls session := by rw [CallsLeft, h, Nat.zero_add]
  unfold call Session.call
  cases callee with
  | function f =>
      dsimp only
      rw [Session.callRule, h, Nat.sub_zero]
      exact (callFunction_agrees maxCalls f args session hlevels).1
  | native f =>
      dsimp only
      rw [runNative_eq_plain]
      rfl
  | int | text | bool | null | array | error => rfl

end Hosts

end Scriptlet.Checked

namespace Scriptlet.Session

open Checked

/-- Whatever a host asks for in a session that it can reach, the one hazard to meet is an error
about a line whose number is no word. The tokens of a text are cut by offsets, all at once or
one by one, and a text in memory is run, with messages that print as they should; a program
is evaluated; a value is called, whatever the arguments; a native body or an operator gets
whatever it is given. With the checks all this comes out as it does without. What is read of
tokens, as a program, an item or an expression, also comes out as it does without the checks,
with every level closed again, unless the line that an error is about has no number. -/
theorem meets_only_line_hazards {natives : Natives} {session : Session}
    (h : Reachable natives session) :
    (∀ text, Scan.tokens.on text = .ok (Token.ofText text)) ∧
    (∀ text count,
      (Scan.tokenAt count).on text = .ok ((Token.Cursor.start text).skip count).next.1) ∧
    (∀ tokens, read tokens =
      if ∀ error ∈ (Parsed.ofTokens tokens).errors, error.Numbered then
        .ok (Parsed.ofTokens tokens, 0)
      else .error .counter) ∧
    AgreesAt 0 Read.item Item.parser ∧
    (∀ floor, AgreesAt 0 (Read.expr floor) (Expr.parser floor)) ∧
    (∀ text, text.utf8ByteSize < 2 ^ 63 → Checked.run session text = .ok (session.run text) ∧
      ∀ error ∈ (Parsed.ofText text).errors, error.printed = error.message) ∧
    (∀ program, Checked.evaluate session program = .ok (session.evaluate program)) ∧
    (∀ callee args, Checked.call callee args session = outcome id (session.call callee args)) ∧
    (∀ routine args, runNative routine args session = outcome id (routine.run args session)) ∧
    (∀ left op right, applyBinary left op right session =
      outcome id (Eval.ofExcept (op.apply left right) session)) ∧
    (∀ op value, applyUnary op value session =
      outcome id (Eval.ofExcept (op.apply value) session)) := by
  have hdepth : session.depth = 0 := h.atRest.depth
  refine ⟨Scan.tokens_on, Scan.tokenAt_on, read_eq, AgreesAt.item, AgreesAt.expr,
    fun text htext => ⟨run_eq_ok hdepth htext, fun error herror => ?_⟩, evaluate_eq_ok hdepth,
    call_eq hdepth, fun routine args => ?_, fun left op right => ?_, fun op value => ?_⟩
  · exact ParseError.printed_eq (numbered_ofText htext error herror)
  · rw [runNative_eq_plain]
    rfl
  · rw [applyBinary_eq_plain]
    rfl
  · rw [applyUnary_eq_plain]
    rfl

/-- After a text has bound a function and failed, characters of two bytes are cut, a text is
run, and negating the least integer is a fault. -/
theorem meets_only_line_hazards_later :
    let session := ((Session.start .standard false).run "let f = fn(x) \x7b x / 0 \x7d; f(1)").2
    Reachable .standard session ∧
      Scan.tokens.on "\"é\" é" = .ok [⟨.string, 0, "é"⟩, ⟨.illegal, 0, "é"⟩] ∧
      Checked.run session "rest([])" = .ok (session.run "rest([])") ∧
      applyUnary .negate (.int Int64.minValue) session =
        .error (.inr (.fault (.unaryOverflow .negate Int64.minValue))) session := by
  intro session
  have hsession : Reachable .standard session := .run _ (.start false)
  obtain ⟨hscan, _, _, _, _, hrun, _, _, _, _, hunary⟩ := meets_only_line_hazards hsession
  refine ⟨hsession, ?_, (hrun _ (by decide)).1, ?_⟩
  · rw [hscan]
    decide
  · rw [hunary]
    rfl

/-- A token on the last line that a word can tell cannot be blamed: the number of the line is
no word, and in words that wrap around it is zero. -/
theorem read_of_last_line :
    let tokens : List Token := [⟨.rightParen, 18446744073709551615, ")"⟩]
    read tokens = .error .counter ∧
      (∃ reader, Read.item ⟨tokens, 0⟩ = .error (.inl .counter) reader) ∧
      (Parsed.ofTokens tokens).errors.map ParseError.message =
        ["Parse error at line 18446744073709551616: no prefix parse rule for )"] ∧
      (Parsed.ofTokens tokens).errors.map ParseError.printed =
        ["Parse error at line 0: no prefix parse rule for )"] := by
  refine ⟨rfl, ⟨_, rfl⟩, ?_, ?_⟩
  · decide +kernel
  · decide +kernel

end Scriptlet.Session
