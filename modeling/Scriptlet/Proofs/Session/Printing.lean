import Scriptlet.Proofs.Session.Law
import Scriptlet.Proofs.Session.Machine
import Scriptlet.Shell

/-!
# What is printed

One native body prints: each of its arguments on a line, in order. So a step prints the
arguments of the native function that it applies, if that one has this body, and nothing
otherwise. What a run of the machine has printed are the lines of all these arguments.
-/

namespace Scriptlet

/-- Values printed one after another come on lines of their own. -/
theorem Session.output_printAll (args : List Value) (session : Session) :
    (args.foldl (fun session arg => session.print (arg.render ++ "\n")) session).output =
      session.output ++ String.join (args.map fun arg => Shell.line arg.render) := by
  induction args generalizing session with
  | nil => simp
  | cons arg args ih =>
      rw [List.foldl_cons, ih]
      simp [print, Shell.line, String.append_assoc]

/-- Calling with arguments leaves what was printed alone. -/
theorem Session.output_enter (session : Session) (f : Closure) (args : List Value) :
    (session.enter f args).output = session.output := by
  have hbind (args : List (String × Value)) (session : Session) :
      (args.foldl (fun session arg => session.set arg.1 arg.2) session).output =
        session.output := by
    induction args generalizing session with
    | nil => rfl
    | cons arg args ih => exact ih (session.set arg.1 arg.2)
  exact hbind (f.params.zip args) _

namespace Routine

variable {routine : Routine}

theorem answer_output (hroutine : routine ≠ .puts) (args : List Value) (session : Session) :
    (Eval.last (routine.answer args session)).output = session.output := by
  unfold answer
  split <;> first | rfl | exact absurd rfl hroutine

theorem run_output (hroutine : routine ≠ .puts) (args : List Value) (session : Session) :
    (Eval.last (routine.run args session)).output = session.output := by
  unfold run
  cases routine.arity? with
  | none => exact answer_output hroutine args session
  | some want =>
      dsimp only
      split
      · exact answer_output hroutine args session
      · rfl

end Routine

namespace Machine

/-- What the next step prints: the arguments, if it applies the native body that prints. -/
def Config.prints (config : Config) : List Value :=
  match config.control, config.frames with
  | .values args, .native f :: _ => if f.routine = .puts then args else []
  | _, _ => []

/-- A configuration leads to another, and these values are printed on the way, in order. -/
inductive Prints (admits : Nat → Bool) (start : Config) : List Value → Config → Prop where
  | refl : Prints admits start [] start
  | tail {values : List Value} {config next : Config} (h : Prints admits start values config)
      (hstep : step admits config = some next) :
      Prints admits start (values ++ config.prints) next

theorem Prints.reaches {admits : Nat → Bool} {start last : Config} {values : List Value}
    (h : Prints admits start values last) : Reaches admits start last := by
  induction h with
  | refl => exact .refl start
  | tail _ hstep ih => exact ih.trans (.of_step hstep)

theorem Reaches.prints {admits : Nat → Bool} {start last : Config}
    (h : Reaches admits start last) : ∃ values, Prints admits start values last := by
  induction h with
  | refl => exact ⟨[], .refl⟩
  | tail _ hstep ih =>
      obtain ⟨values, hvalues⟩ := ih
      exact ⟨_, hvalues.tail hstep⟩

section Steps

variable {admits : Nat → Bool} {frames : List Frame} {session : Session}

theorem output_beginExpr (e : Expr Nat) :
    (beginExpr frames session e).session.output = session.output := by
  cases e <;> rfl

theorem output_beginItem (item : Item Nat) :
    (beginItem frames session item).session.output = session.output := by
  cases item <;> rfl

theorem output_unbound (name : String) (hops : Nat) :
    (unbound name hops frames session).session.output = session.output := by
  unfold unbound
  dsimp only
  split <;> rfl

theorem output_lookup (name : String) (id : ScopeId) (hops : Nat) :
    (lookup name id hops frames session).session.output = session.output := by
  unfold lookup
  split
  · exact output_unbound name hops
  · split
    · rfl
    · rfl
    · exact output_unbound name hops

theorem output_call (f : Closure) (args : List Value) :
    (call admits f args frames session).session.output = session.output := by
  unfold call
  split
  · split
    · exact session.output_enter f args
    · rfl
  · rfl

theorem session_ofResult {α : Type} (out : α → Control)
    (result : EStateM.Result Unwind Session α) :
    (Config.ofResult out frames result).session = Eval.last result := by
  cases result <;> rfl

theorem output_ofExcept (result : Except Fault Value) :
    (Config.ofResult .value frames (Eval.ofExcept result session)).session.output =
      session.output := by
  cases result <;> rfl

theorem output_resume {value : Value} {frame : Frame} {next : Config}
    (hstep : resume value frames session frame = some next) :
    next.session.output = session.output := by
  cases frame with
  | unary | binary | index =>
      cases hstep
      exact output_ofExcept _
  | choice yes no =>
      simp only [resume] at hstep
      split at hstep
      · cases hstep
        rfl
      · cases no <;> cases hstep <;> rfl
  | arguments args => cases value <;> cases hstep <;> rfl
  | right | position | others | statement | bind | ret =>
      cases hstep
      rfl
  | branch | function | native | array | cons | items | caller => cases hstep

theorem output_resumeEnded {last : Option Value} {frame : Frame} {next : Config}
    (hstep : resumeEnded last frames session frame = some next) :
    next.session.output = session.output := by
  cases frame with
  | branch | items | caller =>
      cases hstep
      rfl
  | _ => cases hstep

theorem output_dropFrame (unwind : Unwind) (frame : Frame) :
    (dropFrame unwind frames session frame).session.output = session.output := by
  cases frame with
  | caller => cases unwind <;> rfl
  | _ => rfl

/-- Of what waits for a list of values, only a native function prints. -/
theorem output_resumeAll {values : List Value} {frame : Frame} {next : Config}
    (hstep : resumeAll values frames session frame = some next) :
    next.session.output = session.output ++ String.join
      ((Config.prints ⟨.values values, frame :: frames, session⟩).map fun value =>
        Shell.line value.render) := by
  cases frame with
  | native f =>
      cases hstep
      rw [session_ofResult, Config.prints]
      dsimp only
      split
      next hputs =>
        rw [hputs]
        exact session.output_printAll values
      next hother => simp [f.routine.run_output hother]
  | function | array | cons =>
      cases hstep
      exact (String.append_empty).symm
  | _ => cases hstep

/-- A step puts the lines of what it prints behind those there are. -/
theorem output_step {config next : Config} (hstep : step admits config = some next) :
    next.session.output = config.session.output ++ String.join
      (config.prints.map fun value => Shell.line value.render) := by
  obtain ⟨control, frames, session⟩ := config
  -- A step that is not one from a list of values prints nothing.
  have hsilent (hprints : Config.prints ⟨control, frames, session⟩ = [])
      (houtput : next.session.output = session.output) : next.session.output =
        session.output ++ String.join ((Config.prints ⟨control, frames, session⟩).map fun value =>
          Shell.line value.render) := by
    rw [hprints, houtput]
    exact (String.append_empty).symm
  cases control with
  | expr e =>
      cases hstep
      exact hsilent rfl (output_beginExpr e)
  | exprs es => cases es <;> cases hstep <;> exact hsilent rfl rfl
  | item item =>
      cases hstep
      exact hsilent rfl (output_beginItem item)
  | items last items => cases items <;> cases hstep <;> exact hsilent rfl rfl
  | lookup name id hops =>
      cases hstep
      exact hsilent rfl (output_lookup name id hops)
  | call f args =>
      cases hstep
      exact hsilent rfl (output_call f args)
  | value value =>
      cases frames with
      | nil => cases hstep
      | cons frame frames => exact hsilent rfl (output_resume hstep)
  | values values =>
      cases frames with
      | nil => cases hstep
      | cons frame frames => exact output_resumeAll hstep
  | ended last =>
      cases frames with
      | nil => cases hstep
      | cons frame frames => exact hsilent rfl (output_resumeEnded hstep)
  | unwinding unwind =>
      cases frames with
      | nil => cases hstep
      | cons frame frames =>
          cases hstep
          exact hsilent rfl (output_dropFrame unwind frame)

/-- What a run prints are the lines of the arguments. -/
theorem Prints.output {start last : Config} {values : List Value}
    (h : Prints admits start values last) :
    last.session.output = start.session.output ++ String.join
      (values.map fun value => Shell.line value.render) := by
  induction h with
  | refl => exact (String.append_empty).symm
  | tail _ hstep ih => simp [output_step hstep, ih, String.append_assoc]

end Steps

end Machine

end Scriptlet
