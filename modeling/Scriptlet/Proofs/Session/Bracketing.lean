import Scriptlet.Proofs.Session.Halting

/-!
# Calls are well bracketed

Every evaluation comes back to the scope it started in, with as many calls in progress as
before, and a return never gets past the call that it ends. At every moment of an
evaluation the session counts the calls that wait for their bodies, and no more than the
limit of them.
-/

namespace Scriptlet

namespace Machine

/-- The calls in progress: those that wait for the end of their bodies. -/
def Config.callers (config : Config) : Nat :=
  config.frames.countP Frame.isCaller

/-- The session counts the calls in progress, of which `base` were there before, and
there are no more than the limit. -/
structure Config.Counted (base : Nat) (config : Config) : Prop where
  depth : config.session.depth = base + config.callers
  limit : config.session.depth ≤ maxCalls

section Steps

variable {base : Nat} {frames : List Frame} {session session' : Session}
variable {control control' : Control}

/-- Frames that stand for no call do not count. -/
theorem Config.Counted.of_frames {frames' : List Frame}
    (h : Config.Counted base ⟨control, frames, session⟩) (hdepth : session'.depth = session.depth)
    (hframes : frames'.countP Frame.isCaller = frames.countP Frame.isCaller) :
    Config.Counted base ⟨control', frames', session'⟩ := by
  have hcount := h.depth
  have hlimit := h.limit
  constructor
  · simp only [Config.callers] at hcount ⊢
    rw [hdepth, hframes, hcount]
  · simp only at hlimit ⊢
    rw [hdepth]
    exact hlimit

theorem counted_beginExpr (h : Config.Counted base ⟨control, frames, session⟩) (e : Expr Nat) :
    (beginExpr frames session e).Counted base := by
  cases e <;> exact h.of_frames rfl rfl

theorem counted_beginItem (h : Config.Counted base ⟨control, frames, session⟩) (item : Item Nat) :
    (beginItem frames session item).Counted base := by
  cases item <;> exact h.of_frames rfl rfl

theorem counted_unbound (h : Config.Counted base ⟨control, frames, session⟩) (name : String)
    (hops : Nat) : (unbound name hops frames session).Counted base := by
  unfold unbound
  dsimp only
  split <;> exact h.of_frames rfl rfl

theorem counted_lookup (h : Config.Counted base ⟨control, frames, session⟩) (name : String)
    (id : ScopeId) (hops : Nat) : (lookup name id hops frames session).Counted base := by
  unfold lookup
  split
  · exact counted_unbound h name hops
  · split
    · exact h.of_frames rfl rfl
    · exact h.of_frames rfl rfl
    · exact counted_unbound h name hops

/-- Opening a call adds a frame for it, and only below the limit. -/
theorem counted_call (h : Config.Counted base ⟨control, frames, session⟩) (f : Closure)
    (args : List Value) : (call withinLimit f args frames session).Counted base := by
  unfold call
  split
  · split
    · rename_i hopen
      have hcount := h.depth
      have hdepth : (session.enter f args).depth = session.depth + 1 :=
        (Law.enter_confined session f args).depth
      have hbelow : session.depth < maxCalls := of_decide_eq_true hopen
      constructor
      · simp only [Config.callers] at hcount ⊢
        rw [hdepth, hcount, List.countP_cons_of_pos (by rfl), Nat.add_assoc]
      · simp only
        rw [hdepth]
        exact hbelow
    · exact h.of_frames rfl rfl
  · exact h.of_frames rfl rfl

theorem counted_ofResult {α : Type} {binds : String → Prop}
    (h : Config.Counted base ⟨control, frames, session⟩) (out : α → Control)
    {result : EStateM.Result Unwind Session α}
    (hresult : session.Confined binds (Eval.last result)) :
    (Config.ofResult out frames result).Counted base := by
  cases result with
  | ok a last => exact h.of_frames hresult.depth rfl
  | error unwind last => exact h.of_frames hresult.depth rfl

/-- A call that ends leaves with its frame. -/
theorem counted_leave {caller : ScopeId}
    (h : Config.Counted base ⟨control, .caller caller :: frames, session⟩) (scope : ScopeId) :
    Config.Counted base ⟨control', frames, session.leave scope⟩ := by
  have hcount := h.depth
  have hlimit := h.limit
  simp only [Config.callers] at hcount hlimit
  rw [List.countP_cons_of_pos (by rfl)] at hcount
  constructor
  · simp only [Config.callers, Session.leave]
    omega
  · simp only [Session.leave]
    omega

theorem counted_resume {value : Value} {frame : Frame} {next : Config}
    (h : Config.Counted base ⟨.value value, frame :: frames, session⟩)
    (hstep : resume value frames session frame = some next) : next.Counted base := by
  cases frame with
  | unary | binary | index =>
      cases hstep
      have hframes : Config.Counted base ⟨.value value, frames, session⟩ := h.of_frames rfl rfl
      exact counted_ofResult hframes .value (Eval.ofExcept_confined session _)
  | right | position | others | statement | bind | ret =>
      cases hstep
      exact h.of_frames rfl rfl
  | choice yes no =>
      simp only [resume] at hstep
      split at hstep
      · cases hstep
        exact h.of_frames rfl rfl
      · cases no <;> cases hstep <;> exact h.of_frames rfl rfl
  | arguments args => cases value <;> cases hstep <;> exact h.of_frames rfl rfl
  | branch | function | native | array | cons | items | caller => cases hstep

theorem counted_resumeAll {values : List Value} {frame : Frame} {next : Config}
    (h : Config.Counted base ⟨.values values, frame :: frames, session⟩)
    (hstep : resumeAll values frames session frame = some next) : next.Counted base := by
  cases frame with
  | native f =>
      cases hstep
      have hframes : Config.Counted base ⟨.values values, frames, session⟩ := h.of_frames rfl rfl
      exact counted_ofResult hframes .value (Routine.run_confined session f.routine values)
  | function | array | cons =>
      cases hstep
      exact h.of_frames rfl rfl
  | _ => cases hstep

theorem counted_resumeEnded {last : Option Value} {frame : Frame} {next : Config}
    (h : Config.Counted base ⟨.ended last, frame :: frames, session⟩)
    (hstep : resumeEnded last frames session frame = some next) : next.Counted base := by
  cases frame with
  | branch | items =>
      cases hstep
      exact h.of_frames rfl rfl
  | caller scope =>
      cases hstep
      exact counted_leave h scope
  | _ => cases hstep

theorem counted_dropFrame {unwind : Unwind} {frame : Frame}
    (h : Config.Counted base ⟨.unwinding unwind, frame :: frames, session⟩) :
    (dropFrame unwind frames session frame).Counted base := by
  cases frame with
  | caller scope => cases unwind <;> exact counted_leave h scope
  | _ => exact h.of_frames rfl rfl

theorem counted_step {config next : Config} (h : config.Counted base)
    (hstep : step withinLimit config = some next) : next.Counted base := by
  obtain ⟨control, frames, session⟩ := config
  cases control with
  | expr e =>
      cases hstep
      exact counted_beginExpr h e
  | exprs es => cases es <;> cases hstep <;> exact h.of_frames rfl rfl
  | item item =>
      cases hstep
      exact counted_beginItem h item
  | items last items => cases items <;> cases hstep <;> exact h.of_frames rfl rfl
  | lookup name id hops =>
      cases hstep
      exact counted_lookup h name id hops
  | call f args =>
      cases hstep
      exact counted_call h f args
  | value value =>
      cases frames with
      | nil => cases hstep
      | cons frame frames => exact counted_resume h hstep
  | values values =>
      cases frames with
      | nil => cases hstep
      | cons frame frames => exact counted_resumeAll h hstep
  | ended last =>
      cases frames with
      | nil => cases hstep
      | cons frame frames => exact counted_resumeEnded h hstep
  | unwinding unwind =>
      cases frames with
      | nil => cases hstep
      | cons frame frames =>
          cases hstep
          exact counted_dropFrame h

/-- At every moment the session counts the calls in progress. -/
theorem Reaches.counted {start last : Config} (h : Reaches withinLimit start last)
    (hstart : start.Counted base) : last.Counted base :=
  h.invariant counted_step hstart

end Steps

end Machine

/-- A call never yields a return. -/
theorem callWithin_ne_returned (levels : Nat) (f : Closure) (args : List Value)
    (start last : Session) (value : Value) :
    callWithin levels f args start ≠ .error (.returned value) last := by
  intro hreturned
  by_cases harity : args.length = f.params.length
  · cases levels with
    | zero =>
        rw [callWithin_zero_of_length_eq harity] at hreturned
        cases hreturned
    | succ levels =>
        rw [callWithin_succ_of_length_eq harity] at hreturned
        generalize Item.evalAll _ _ _ _ = result at hreturned
        cases result with
        | ok last? session => cases hreturned
        | error unwind session => cases unwind <;> cases hreturned
  · rw [callWithin_of_length_ne harity] at hreturned
    cases hreturned

/-- The native bodies never yield a return. -/
theorem Routine.run_ne_returned (routine : Routine) (args : List Value) (start last : Session)
    (value : Value) : routine.run args start ≠ .error (.returned value) last := by
  intro hreturned
  have hanswers := routine.run_answers args start
  rw [hreturned] at hanswers
  cases hanswers

/-- No call from outside yields a return. -/
theorem Session.call_ne_returned (session : Session) (callee : Value) (args : List Value)
    (last : Session) (value : Value) :
    session.call callee args ≠ .error (.returned value) last := by
  cases callee with
  | function f => exact callWithin_ne_returned _ f args session last value
  | native f => exact f.routine.run_ne_returned args session last value
  | int | text | bool | null | array | error =>
      intro hreturned
      cases hreturned

namespace Session

open Machine

/-- The current scope and the number of calls in progress are as they were. -/
def Restores (start session : Session) : Prop :=
  session.scope = start.scope ∧ session.depth = start.depth

theorem Confined.restores {binds : String → Prop} {start session : Session}
    (h : start.Confined binds session) : start.Restores session :=
  ⟨h.scope, h.depth⟩

theorem AtRest.counted {natives : Natives} {session : Session} (h : session.AtRest natives)
    (control : Control) {frames : List Frame} (hframes : frames.countP Frame.isCaller = 0) :
    Config.Counted 0 ⟨control, frames, session⟩ := by
  constructor
  · simp only [Config.callers]
    rw [h.depth, hframes]
  · simp only
    rw [h.depth]
    exact Nat.zero_le _

theorem AtRest.counted_call {natives : Natives} {session : Session} (h : session.AtRest natives)
    (callee : Value) (args : List Value) : (Config.ofCall session callee args).Counted 0 := by
  cases callee <;> exact h.counted _ rfl

/-- Whatever is evaluated or called, and however that ends, the current scope and the
number of calls in progress are as before. All the while, from the start of a run or a
call until it comes to what evaluation yields, the session counts the calls in progress,
of which there are never more than the limit. Neither calls nor native bodies yield a
return. So between the actions of a host the global scope is the current one and no call
is in progress. -/
theorem calls_bracketed {natives : Natives} {session : Session} (h : Reachable natives session) :
    (∀ (levels : Nat) (start : Session),
      (∀ e : Expr Nat, start.Restores (Eval.last (e.eval (callWithin levels) start))) ∧
      (∀ item : Item Nat, start.Restores (Eval.last (item.eval (callWithin levels) start))) ∧
      (∀ es : List (Expr Nat),
        start.Restores (Eval.last (Expr.evalAll (callWithin levels) es start))) ∧
      (∀ (last : Option Value) (items : List (Item Nat)),
        start.Restores (Eval.last (Item.evalAll (callWithin levels) last items start))) ∧
      (∀ (f : Closure) (args : List Value),
        start.Restores (Eval.last (callWithin levels f args start))) ∧
      (∀ (routine : Routine) (args : List Value),
        start.Restores (Eval.last (routine.run args start)))) ∧
    (∀ source : Program Unit,
      Reaches withinLimit (.ofProgram (session.load source).2 (session.load source).1)
        (.ofResult .ended [] (Item.evalAll (session.load source).2.callRule none
          (session.load source).1 (session.load source).2)) ∧
      ∀ config,
        Reaches withinLimit (.ofProgram (session.load source).2 (session.load source).1) config →
          config.session.depth = config.callers ∧ config.session.depth ≤ maxCalls) ∧
    (∀ (callee : Value) (args : List Value), callee.FitsIn session.store.size →
      (∀ value ∈ args, value.FitsIn session.store.size) →
        Reaches withinLimit (.ofCall session callee args)
          (.ofResult .value [] (session.call callee args)) ∧
        ∀ config, Reaches withinLimit (.ofCall session callee args) config →
          config.session.depth = config.callers ∧ config.session.depth ≤ maxCalls) ∧
    (∀ levels f args start last value,
      callWithin levels f args start ≠ .error (.returned value) last) ∧
    (∀ routine args start last value,
      Routine.run routine args start ≠ .error (.returned value) last) ∧
    session.AtRest natives := by
  have hcounted {config : Config} (hconfig : config.Counted 0) :
      config.session.depth = config.callers ∧ config.session.depth ≤ maxCalls :=
    ⟨by simpa using hconfig.depth, hconfig.limit⟩
  refine ⟨fun levels start => ?_, fun source => ?_, fun callee args hcallee hargs => ?_,
    callWithin_ne_returned, Routine.run_ne_returned, h.atRest⟩
  · exact ⟨fun e => (Expr.eval_confined levels start e).restores,
      fun item => (Item.eval_confined levels start item).restores,
      fun es => (Expr.evalAll_confined levels start es).restores,
      fun last items => (Item.evalAll_confined levels start last items).restores,
      fun f args => (callWithin_confined levels start f args).restores,
      fun routine args => (Routine.run_confined start routine args).restores⟩
  · have hloaded : (session.load source).2.AtRest natives :=
      ⟨h.atRest.scope, h.atRest.depth, h.atRest.natives, h.atRest.outermost⟩
    have hwell : (session.load source).2.WellFormed := h.wellFormed.of_eq rfl rfl
    have hdepth : (session.load source).2.depth ≤ maxCalls := h.depth_le
    refine ⟨hwell.reaches_program hdepth _, fun config hreaches => ?_⟩
    exact hcounted (hreaches.counted (hloaded.counted _ rfl))
  · refine ⟨h.wellFormed.reaches_call h.depth_le hcallee hargs, fun config hreaches => ?_⟩
    exact hcounted (hreaches.counted (h.atRest.counted_call callee args))

/-- A text that fails inside two calls leaves the session at rest. -/
theorem calls_bracketed_failed :
    Reachable .standard
        ((Session.start .standard false).run "fn(f) \x7b f(f) \x7d(fn(x) \x7b -true \x7d)").2 ∧
      ((Session.start .standard false).run
        "fn(f) \x7b f(f) \x7d(fn(x) \x7b -true \x7d)").2.AtRest .standard :=
  ⟨.run _ (.start false), (calls_bracketed (.run _ (.start false))).2.2.2.2.2⟩

end Session

end Scriptlet
