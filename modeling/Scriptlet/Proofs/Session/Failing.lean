import Scriptlet.Proofs.Session.Lexical
import Scriptlet.Proofs.Session.Printing

/-!
# Failures are not values

A run that fails hands its failure out as a value, and that is the only place where one
comes from. In a session that only runs texts no scope binds a failure, no array has one
in it, no native function is applied to one and none is printed. So a run that yields a
failure has failed.
-/

namespace Scriptlet

namespace Value

/-- A value is part of another when it is that value or part of an element of it. -/
inductive PartOf (part : Value) : Value → Prop where
  | self : PartOf part part
  | element {birth : Nat} {elements : List Value} {value : Value} (hvalue : value ∈ elements)
      (h : PartOf part value) : PartOf part (.array birth elements)

/-- No failure is part of the value. -/
def ErrorFree (value : Value) : Prop :=
  ∀ message, ¬(Value.error message).PartOf value

namespace ErrorFree

variable {value : Value} {birth : Nat} {elements args : List Value}

theorem plain (h : value.IsPlain) : value.ErrorFree := by
  intro message hpart
  cases hpart with
  | self => cases h
  | element => cases h

theorem function (f : Closure) : ErrorFree (.function f) := by
  intro message hpart
  cases hpart

theorem array (h : ∀ value ∈ elements, value.ErrorFree) : ErrorFree (.array birth elements) := by
  intro message hpart
  cases hpart with
  | element hvalue hpart => exact h _ hvalue message hpart

theorem element (h : ErrorFree (.array birth elements)) (hvalue : value ∈ elements) :
    value.ErrorFree :=
  fun message hpart => h message (.element hvalue hpart)

theorem ne_error (h : value.ErrorFree) (message : String) : value ≠ .error message := by
  rintro rfl
  exact h message .self

theorem getD_null {value? : Option Value} (h : ∀ value ∈ value?.toList, value.ErrorFree) :
    (value?.getD .null).ErrorFree := by
  cases value? with
  | none => exact .plain .null
  | some value => exact h value List.mem_cons_self

theorem oneOf (hargs : ∀ arg ∈ args, arg.ErrorFree) (h : value.OneOf args) :
    value.ErrorFree := by
  rcases h with hmem | ⟨birth, elements, harray, hmem⟩
  · exact hargs value hmem
  · exact (hargs _ harray).element hmem

end ErrorFree

end Value

namespace Session

/-- No scope binds a failure. -/
def ErrorFree (session : Session) : Prop :=
  ∀ value, session.store.Binds value → value.ErrorFree

namespace ErrorFree

variable {session other : Session}

theorem of_eq (h : session.ErrorFree) (hstore : other.store = session.store) :
    other.ErrorFree := by
  intro value hvalue
  rw [hstore] at hvalue
  exact h value hvalue

theorem set (h : session.ErrorFree) (name : String) {value : Value} (hvalue : value.ErrorFree) :
    (session.set name value).ErrorFree := by
  intro other hother
  rcases Store.Binds.of_set hother with rfl | hother
  · exact hvalue
  · exact h other hother

theorem bindAll (args : List (String × Value)) (h : session.ErrorFree)
    (hargs : ∀ arg ∈ args, arg.2.ErrorFree) :
    (args.foldl (fun session arg => session.set arg.1 arg.2) session).ErrorFree := by
  induction args generalizing session with
  | nil => exact h
  | cons arg args ih =>
      have hset := h.set arg.1 (hargs arg List.mem_cons_self)
      exact ih hset fun other hother => hargs other (List.mem_cons_of_mem arg hother)

theorem enter (h : session.ErrorFree) (f : Closure) {args : List Value}
    (hargs : ∀ arg ∈ args, arg.ErrorFree) : (session.enter f args).ErrorFree := by
  have hopened : (session.opened f).ErrorFree :=
    fun value hvalue => h value (Store.Binds.of_create hvalue)
  have hbound := hopened.bindAll (f.params.zip args) fun arg harg =>
    hargs arg.2 (List.of_mem_zip harg).2
  exact hbound.of_eq rfl

theorem printAll (args : List Value) (h : session.ErrorFree) :
    (args.foldl (fun session arg => session.print (arg.render ++ "\n")) session).ErrorFree := by
  induction args generalizing session with
  | nil => exact h
  | cons arg args ih => exact ih (h.of_eq rfl)

end ErrorFree

end Session

namespace Machine

/-- No failure is bound, on its way or waiting in a frame. -/
structure Config.ErrorFree (config : Config) : Prop where
  session : config.session.ErrorFree
  held : ∀ value ∈ config.control.held, value.ErrorFree
  waiting : ∀ frame ∈ config.frames, ∀ value ∈ frame.held, value.ErrorFree

section Steps

variable {control control' : Control} {frame : Frame}
variable {frames frames' : List Frame} {session session' : Session}

/-- A step that leaves the scopes alone. -/
theorem Config.ErrorFree.next (h : Config.ErrorFree ⟨control, frames, session⟩)
    (hstore : session'.store = session.store)
    (hheld : ∀ value ∈ control'.held, value.ErrorFree)
    (hwaiting : ∀ frame ∈ frames', ∀ value ∈ frame.held, value.ErrorFree) :
    Config.ErrorFree ⟨control', frames', session'⟩ :=
  ⟨h.session.of_eq hstore, hheld, hwaiting⟩

/-- Code to be evaluated next, before a frame that keeps nothing new. -/
theorem Config.ErrorFree.begin (h : Config.ErrorFree ⟨control, frames, session⟩)
    (hheld : control'.held = [])
    (hwaiting : ∀ frame ∈ frames', ∀ value ∈ frame.held, value.ErrorFree) :
    Config.ErrorFree ⟨control', frames', session⟩ :=
  h.next rfl (by simp [hheld]) hwaiting

theorem waiting_cons (hframe : ∀ value ∈ frame.held, value.ErrorFree)
    (hframes : ∀ frame ∈ frames, ∀ value ∈ frame.held, value.ErrorFree) :
    ∀ other ∈ frame :: frames, ∀ value ∈ other.held, value.ErrorFree :=
  List.forall_mem_cons.mpr ⟨hframe, hframes⟩

theorem held_singleton {value : Value} (hvalue : value.ErrorFree) :
    ∀ other ∈ [value], other.ErrorFree :=
  List.forall_mem_singleton.mpr hvalue

theorem errorFree_beginExpr (h : Config.ErrorFree ⟨control, frames, session⟩)
    (e : Expr Nat) : (beginExpr frames session e).ErrorFree := by
  have hframes : ∀ frame ∈ frames, ∀ value ∈ frame.held, value.ErrorFree := h.waiting
  cases e with
  | var => exact h.begin rfl hframes
  | lit literal =>
      exact h.next rfl (held_singleton (.plain (Value.isPlain_ofLiteral literal))) hframes
  | fn => exact h.next rfl (held_singleton (.function _)) hframes
  | unary | binary | cond | call | array | index =>
      exact h.begin rfl (waiting_cons (List.forall_mem_nil _) hframes)

theorem errorFree_beginItem (h : Config.ErrorFree ⟨control, frames, session⟩)
    (item : Item Nat) : (beginItem frames session item).ErrorFree := by
  cases item with
  | expr | bind | ret => exact h.begin rfl (waiting_cons (List.forall_mem_nil _) h.waiting)
  | block => exact h.begin rfl h.waiting

theorem errorFree_unbound (h : Config.ErrorFree ⟨control, frames, session⟩)
    (name : String) (hops : Nat) : (unbound name hops frames session).ErrorFree := by
  unfold unbound
  dsimp only
  split
  · exact h.next rfl (held_singleton (.plain (.native _))) h.waiting
  · exact h.next rfl (List.forall_mem_nil _) h.waiting

/-- What a look-up finds is bound. -/
theorem errorFree_lookup (h : Config.ErrorFree ⟨control, frames, session⟩)
    (name : String) (id : ScopeId) (hops : Nat) :
    (lookup name id hops frames session).ErrorFree := by
  unfold lookup
  cases hid : session.store.scopes[id]? with
  | none => exact errorFree_unbound h name hops
  | some scope =>
      dsimp only
      cases hlookup : scope.bindings.lookup name with
      | some value =>
          obtain ⟨_, _, hbindings, _⟩ := List.lookup_eq_some_iff.mp hlookup
          have hbinds : session.store.Binds value := ⟨id, scope, name, hid, by simp [hbindings]⟩
          exact h.next rfl (held_singleton (h.session _ hbinds)) h.waiting
      | none =>
          cases scope.parent with
          | none => exact errorFree_unbound h name hops
          | some parent => exact h.begin rfl h.waiting

theorem errorFree_call {admits : Nat → Bool} {f : Closure} {args : List Value}
    (h : Config.ErrorFree ⟨.call f args, frames, session⟩) :
    (call admits f args frames session).ErrorFree := by
  have hargs : ∀ arg ∈ args, arg.ErrorFree :=
    fun arg harg => h.held arg (List.mem_cons_of_mem _ harg)
  unfold call
  split
  · split
    · exact ⟨h.session.enter f hargs, List.forall_mem_nil _,
        waiting_cons (List.forall_mem_nil _) h.waiting⟩
    · exact h.next rfl (List.forall_mem_nil _) h.waiting
  · exact h.next rfl (List.forall_mem_nil _) h.waiting

theorem errorFree_ofExcept (h : Config.ErrorFree ⟨control, frames, session⟩)
    {result : Except Fault Value} (hok : ∀ value, result = .ok value → value.ErrorFree)
    (hframes : ∀ frame ∈ frames', ∀ value ∈ frame.held, value.ErrorFree) :
    (Config.ofResult .value frames' (Eval.ofExcept result session)).ErrorFree := by
  cases result with
  | ok value => exact h.next rfl (held_singleton (hok value rfl)) hframes
  | error fault => exact h.next rfl (List.forall_mem_nil _) hframes

theorem errorFree_resume {value : Value} {next : Config}
    (h : Config.ErrorFree ⟨.value value, frame :: frames, session⟩)
    (hstep : resume value frames session frame = some next) : next.ErrorFree := by
  obtain ⟨hframe, hframes⟩ := List.forall_mem_cons.mp h.waiting
  have hvalue : value.ErrorFree := h.held value List.mem_cons_self
  cases frame with
  | unary op =>
      cases hstep
      exact errorFree_ofExcept h (fun _ hok => .plain (UnaryOp.apply_isPlain hok)) hframes
  | binary left op =>
      cases hstep
      exact errorFree_ofExcept h (fun _ hok => .plain (BinaryOp.apply_isPlain hok)) hframes
  | index base =>
      cases hstep
      refine errorFree_ofExcept h (fun result hok => ?_) hframes
      rcases Value.atIndex_eq_ok hok with rfl | ⟨birth, elements, rfl, helement⟩
      · exact .plain .null
      · exact (hframe _ List.mem_cons_self).element helement
  | right | position | others =>
      cases hstep
      exact h.begin rfl (waiting_cons (held_singleton hvalue) hframes)
  | choice yes no =>
      have hbranch : ∀ frame ∈ .branch :: frames, ∀ value ∈ frame.held, value.ErrorFree :=
        waiting_cons (List.forall_mem_nil _) hframes
      simp only [resume] at hstep
      split at hstep
      · cases hstep
        exact h.begin rfl hbranch
      · cases no with
        | none =>
            cases hstep
            exact h.next rfl (held_singleton (.plain .null)) hframes
        | some items =>
            cases hstep
            exact h.begin rfl hbranch
  | arguments args =>
      cases value with
      | function f =>
          cases hstep
          exact h.begin rfl (waiting_cons (held_singleton hvalue) hframes)
      | native f =>
          cases hstep
          exact h.begin rfl (waiting_cons (List.forall_mem_nil _) hframes)
      | int | text | bool | null | array | error =>
          cases hstep
          exact h.next rfl (List.forall_mem_nil _) hframes
  | statement | ret =>
      cases hstep
      exact h.next rfl (held_singleton hvalue) hframes
  | bind name =>
      cases hstep
      exact ⟨h.session.set name hvalue, List.forall_mem_nil _, hframes⟩
  | branch | function | native | array | cons | items | caller => cases hstep

/-- A native body that has its arguments. -/
theorem errorFree_native {f : Native} {args : List Value}
    (h : Config.ErrorFree ⟨control, frames, session⟩)
    (hargs : ∀ arg ∈ args, arg.ErrorFree)
    (hframes : ∀ frame ∈ frames', ∀ value ∈ frame.held, value.ErrorFree) :
    (Config.ofResult .value frames' (f.routine.run args session)).ErrorFree := by
  have hanswers := f.routine.run_answers args session
  generalize f.routine.run args session = result at hanswers ⊢
  cases hanswers with
  | wrongArity | unsupported => exact h.next rfl (List.forall_mem_nil _) hframes
  | plain hplain => exact h.next rfl (held_singleton (.plain hplain)) hframes
  | given hvalue => exact h.next rfl (held_singleton (.oneOf hargs hvalue)) hframes
  | made helements =>
      refine h.next rfl (held_singleton (.array fun value hvalue => ?_)) hframes
      exact .oneOf hargs (helements value hvalue)
  | printed =>
      exact ⟨h.session.printAll args, held_singleton (.plain .null), hframes⟩

theorem errorFree_resumeAll {values : List Value} {next : Config}
    (h : Config.ErrorFree ⟨.values values, frame :: frames, session⟩)
    (hstep : resumeAll values frames session frame = some next) : next.ErrorFree := by
  obtain ⟨hframe, hframes⟩ := List.forall_mem_cons.mp h.waiting
  have hvalues : ∀ value ∈ values, value.ErrorFree := h.held
  cases frame with
  | function f =>
      cases hstep
      exact h.next rfl (List.forall_mem_cons.mpr ⟨.function f, hvalues⟩) hframes
  | native f =>
      cases hstep
      exact errorFree_native h hvalues hframes
  | array =>
      cases hstep
      exact h.next rfl (held_singleton (.array hvalues)) hframes
  | cons first =>
      cases hstep
      have hfirst : first.ErrorFree := hframe first List.mem_cons_self
      exact h.next rfl (List.forall_mem_cons.mpr ⟨hfirst, hvalues⟩) hframes
  | _ => cases hstep

theorem errorFree_resumeEnded {last : Option Value} {next : Config}
    (h : Config.ErrorFree ⟨.ended last, frame :: frames, session⟩)
    (hstep : resumeEnded last frames session frame = some next) : next.ErrorFree := by
  obtain ⟨_, hframes⟩ := List.forall_mem_cons.mp h.waiting
  have hlast : ∀ value ∈ last.toList, value.ErrorFree := h.held
  cases frame with
  | branch | caller =>
      cases hstep
      exact h.next rfl (held_singleton (.getD_null hlast)) hframes
  | items items =>
      cases hstep
      exact h.next rfl hlast hframes
  | _ => cases hstep

theorem errorFree_dropFrame {unwind : Unwind}
    (h : Config.ErrorFree ⟨.unwinding unwind, frame :: frames, session⟩) :
    (dropFrame unwind frames session frame).ErrorFree := by
  obtain ⟨_, hframes⟩ := List.forall_mem_cons.mp h.waiting
  cases frame with
  | caller scope => cases unwind <;> exact h.next rfl h.held hframes
  | _ => exact h.next rfl h.held hframes

/-- No step makes a failure into a value. -/
theorem errorFree_step {admits : Nat → Bool} {config next : Config}
    (h : config.ErrorFree) (hstep : step admits config = some next) :
    next.ErrorFree := by
  obtain ⟨control, frames, session⟩ := config
  cases control with
  | expr e =>
      cases hstep
      exact errorFree_beginExpr h e
  | exprs es =>
      cases es with
      | nil =>
          cases hstep
          exact h.begin rfl h.waiting
      | cons e es =>
          cases hstep
          exact h.begin rfl (waiting_cons (List.forall_mem_nil _) h.waiting)
  | item item =>
      cases hstep
      exact errorFree_beginItem h item
  | items last items =>
      cases items with
      | nil =>
          cases hstep
          exact h.next rfl h.held h.waiting
      | cons item items =>
          cases hstep
          exact h.begin rfl (waiting_cons (List.forall_mem_nil _) h.waiting)
  | lookup name id hops =>
      cases hstep
      exact errorFree_lookup h name id hops
  | call f args =>
      cases hstep
      exact errorFree_call h
  | value value =>
      cases frames with
      | nil => cases hstep
      | cons frame frames => exact errorFree_resume h hstep
  | values values =>
      cases frames with
      | nil => cases hstep
      | cons frame frames => exact errorFree_resumeAll h hstep
  | ended last =>
      cases frames with
      | nil => cases hstep
      | cons frame frames => exact errorFree_resumeEnded h hstep
  | unwinding unwind =>
      cases frames with
      | nil => cases hstep
      | cons frame frames =>
          cases hstep
          exact errorFree_dropFrame h

/-- At no moment of an evaluation is a failure a value. -/
theorem Reaches.errorFree {admits : Nat → Bool} {start last : Config}
    (h : Reaches admits start last) (hstart : start.ErrorFree) : last.ErrorFree :=
  h.invariant errorFree_step hstart

theorem Config.ErrorFree.prints {config : Config} (h : config.ErrorFree) :
    ∀ value ∈ config.prints, value.ErrorFree := by
  intro value hvalue
  unfold Config.prints at hvalue
  split at hvalue
  next args f frames hcontrol _ =>
    split at hvalue
    · exact h.held value (hcontrol ▸ hvalue)
    · exact absurd hvalue List.not_mem_nil
  next => exact absurd hvalue List.not_mem_nil

/-- No failure is printed. -/
theorem Prints.errorFree {admits : Nat → Bool} {start last : Config} {values : List Value}
    (h : Prints admits start values last) (hstart : start.ErrorFree) :
    ∀ value ∈ values, value.ErrorFree := by
  induction h with
  | refl => exact List.forall_mem_nil _
  | tail h _ ih =>
      exact List.forall_mem_append.mpr ⟨ih, (h.reaches.errorFree hstart).prints⟩

end Steps

end Machine

namespace Session

open Machine

/-- The sessions that running texts leads to from the start. What was printed may be
collected in between. -/
inductive Ran : Session → Prop where
  | start (recording : Bool) : Ran (Session.start .standard recording)
  | run {session : Session} (text : String) (h : Ran session) : Ran (session.run text).2
  | takeReport {session : Session} (h : Ran session) : Ran session.takeReport.2

theorem Ran.reachable {session : Session} (h : session.Ran) : Reachable .standard session := by
  induction h with
  | start recording => exact .start recording
  | run text _ ih => exact .run text ih
  | takeReport _ ih => exact .takeReport ih

/-- What evaluating the program of a text comes to. -/
def evaluation (session : Session) (text : String) :
    EStateM.Result Unwind Session (Option Value) :=
  let (program, loaded) := session.load (Parsed.ofText text).program
  Item.evalAll loaded.callRule none program loaded

/-- The configuration in which the program of a text begins. -/
def beginText (session : Session) (text : String) : Config :=
  let (program, loaded) := session.load (Parsed.ofText text).program
  .ofProgram loaded program

/-- The text is a program, and evaluating it ends with the fault. -/
def Faults (session : Session) (text : String) (fault : Fault) : Prop :=
  (Parsed.ofText text).errors = [] ∧
    ∃ last, session.evaluation text = .error (.fault fault) last

/-- The text is no program, or evaluating it ends with a fault. -/
def Fails (session : Session) (text : String) : Prop :=
  (Parsed.ofText text).errors ≠ [] ∨ ∃ fault, session.Faults text fault

section Texts

variable {session : Session} {text : String}

theorem run_of_errors (herrors : (Parsed.ofText text).errors ≠ []) :
    session.run text = (.error (Parsed.ofText text).errors, session) := by
  have hempty : (Parsed.ofText text).errors.isEmpty = false := by simpa using herrors
  simp [run, hempty]

/-- A run without errors of syntax is an evaluation whose fault becomes a value. -/
theorem run_of_no_errors (herrors : (Parsed.ofText text).errors = []) :
    session.run text =
      match session.evaluation text with
      | .ok value last => (.ok value, last)
      | .error (.returned value) last => (.ok (some value), last)
      | .error (.fault fault) last => (.ok (some (.error fault.message)), last) := by
  simp only [run, herrors, List.isEmpty_nil, if_true, evaluate, evaluation]
  generalize Item.evalAll _ _ _ _ = result
  cases result with
  | ok value last => rfl
  | error unwind last => cases unwind <;> rfl

theorem errorFree_beginText (hbound : session.ErrorFree) (text : String) :
    (session.beginText text).ErrorFree where
  session := hbound.of_eq rfl
  held := List.forall_mem_nil _
  waiting := List.forall_mem_nil _

theorem Reachable.reaches_evaluation {natives : Natives} (h : Reachable natives session)
    (text : String) :
    Reaches withinLimit (session.beginText text)
      (.ofResult .ended [] (session.evaluation text)) := by
  have hloaded : (session.load (Parsed.ofText text).program).2.WellFormed :=
    h.wellFormed.of_eq rfl rfl
  exact hloaded.reaches_program h.depth_le _

/-- What an evaluation ends with, in a session that binds no failure. -/
theorem Reachable.evaluation_errorFree {natives : Natives} (h : Reachable natives session)
    (hbound : session.ErrorFree) (text : String) :
    Config.ErrorFree (.ofResult .ended [] (session.evaluation text)) :=
  (h.reaches_evaluation text).errorFree (errorFree_beginText hbound text)

theorem Ran.errorFree (h : session.Ran) : session.ErrorFree := by
  induction h with
  | start recording => exact fun value hvalue => absurd hvalue (not_binds_start _ _ value)
  | @run session text h ih =>
      by_cases herrors : (Parsed.ofText text).errors = []
      · have hend := (h.reachable.evaluation_errorFree ih text).session
        rw [run_of_no_errors herrors]
        revert hend
        cases session.evaluation text with
        | ok value last => exact id
        | error unwind last => cases unwind <;> exact id
      · rw [run_of_errors herrors]
        exact ih
  | takeReport _ ih => exact ih

/-- The three ways a run comes out: rejected, failed, or with a value that has no failure
in it, or none. -/
theorem Ran.outcome (h : session.Ran) (text : String) :
    (∃ errors, errors ≠ [] ∧ (Parsed.ofText text).errors = errors ∧
      (session.run text).1 = .error errors) ∨
    (∃ fault, session.Faults text fault ∧
      (session.run text).1 = .ok (some (.error fault.message))) ∨
    (¬session.Fails text ∧ ∃ value? : Option Value, (∀ value ∈ value?, value.ErrorFree) ∧
      (session.run text).1 = .ok value?) := by
  by_cases herrors : (Parsed.ofText text).errors = []
  · refine .inr ?_
    have hend := (h.reachable.evaluation_errorFree h.errorFree text).held
    have hsound {result} (hresult : session.evaluation text = result)
        (hfine : ∀ fault last, result ≠ .error (.fault fault) last) : ¬session.Fails text := by
      rintro (hrejected | ⟨fault, _, last, hfault⟩)
      · exact hrejected herrors
      · exact hfine fault last (hresult ▸ hfault)
    rw [run_of_no_errors herrors]
    cases hresult : session.evaluation text with
    | ok value? last =>
        rw [hresult] at hend
        refine .inr ⟨hsound hresult (by simp), value?, fun value hvalue => ?_, rfl⟩
        exact hend value (Option.mem_toList.mpr hvalue)
    | error unwind last =>
        rw [hresult] at hend
        cases unwind with
        | returned value =>
            refine .inr ⟨hsound hresult (by simp), some value, fun other hother => ?_, rfl⟩
            exact hend other (Option.mem_some_iff.mp hother ▸ List.mem_cons_self)
        | fault fault => exact .inl ⟨fault, ⟨herrors, last, hresult⟩, rfl⟩
  · exact .inl ⟨_, herrors, rfl, by rw [run_of_errors herrors]⟩

/-- A fault is the only one that an evaluation ends with. -/
theorem Faults.unique {fault other : Fault} (h : session.Faults text fault)
    (hother : session.Faults text other) : fault = other := by
  obtain ⟨_, last, hlast⟩ := h
  obtain ⟨_, last', hlast'⟩ := hother
  rw [hlast] at hlast'
  cases hlast'
  rfl

/-- A run yields a failure exactly when its evaluation ends with the fault of that
message. -/
theorem Ran.yields_error_iff (h : session.Ran) (text message : String) :
    (session.run text).1 = .ok (some (.error message)) ↔
      ∃ fault, session.Faults text fault ∧ fault.message = message := by
  rcases h.outcome text with ⟨errors, hne, herrors, hrun⟩ | ⟨fault, hfault, hrun⟩ |
    ⟨hfine, value?, hfree, hrun⟩
  · rw [hrun]
    refine ⟨nofun, ?_⟩
    rintro ⟨_, ⟨hnone, _⟩, _⟩
    exact absurd (herrors.symm.trans hnone) hne
  · rw [hrun]
    constructor
    · intro heq
      cases heq
      exact ⟨fault, hfault, rfl⟩
    · rintro ⟨other, hother, rfl⟩
      rw [hfault.unique hother]
  · rw [hrun]
    constructor
    · intro heq
      cases heq
      exact absurd rfl ((hfree _ rfl).ne_error message)
    · rintro ⟨fault, hfault, _⟩
      exact absurd (.inr ⟨fault, hfault⟩) hfine

/-- An answer tells a failure from a value. -/
theorem Ran.succeeded_iff (h : session.Ran) (text : String) :
    (Shell.reply session text).1.succeeded = false ↔ session.Fails text := by
  unfold Shell.reply
  rcases hrun : session.run text with ⟨outcome, last⟩
  rcases h.outcome text with ⟨errors, hne, herrors, heq⟩ | ⟨fault, hfault, heq⟩ |
    ⟨hfine, value?, hfree, heq⟩
  · rw [hrun] at heq
    cases heq
    exact iff_of_true rfl (.inl (herrors ▸ hne))
  · rw [hrun] at heq
    cases heq
    exact iff_of_true rfl (.inr ⟨fault, hfault⟩)
  · rw [hrun] at heq
    cases heq
    refine iff_of_false ?_ hfine
    cases value? with
    | none => exact Bool.noConfusion
    | some value =>
        have hkind : value.kind ≠ .error := by
          cases value with
          | error message => exact absurd rfl ((hfree _ rfl).ne_error message)
          | _ => exact Value.Kind.noConfusion
        simpa [Session.takeReport] using hkind

/-- A script ends with the code of failure exactly when it fails. -/
theorem script_code_iff {bytes : List UInt8} (htext : Shell.decode? bytes = some text) :
    (Shell.script (.ok bytes)).code = Shell.failureCode ↔ Shell.freshSession.Fails text := by
  have hfresh : Shell.freshSession.Ran := .start false
  rw [← hfresh.succeeded_iff text]
  simp only [Shell.script, Shell.turn, htext]
  cases (Shell.reply Shell.freshSession text).1.succeeded <;> decide

/-- In a session that only runs texts failures are no values: whatever text is run, at no
moment does a scope bind one, also within arrays, or a native function have one among its
arguments. What was printed are the lines of the arguments of those that print, which have
none in them either. So a run yields a failure exactly when its evaluation ends with a fault,
whose message it gives, and every other value it yields has none in it. The answer to a text,
and the exit code of a script, tell the two apart. -/
theorem failures_are_no_values (h : session.Ran) (text : String) :
    (∀ value, session.store.Binds value → value.ErrorFree) ∧
    Reaches withinLimit (session.beginText text)
      (.ofResult .ended [] (session.evaluation text)) ∧
    (∀ config, Reaches withinLimit (session.beginText text) config →
      (∀ value, config.session.store.Binds value → value.ErrorFree) ∧
      (∀ (f : Native) (args : List Value) (frames : List Frame) (current : Session),
        config = ⟨.values args, .native f :: frames, current⟩ →
          ∀ arg ∈ args, arg.ErrorFree) ∧
      ∃ values : List Value, Prints withinLimit (session.beginText text) values config ∧
        (∀ value ∈ values, value.ErrorFree) ∧ config.session.output =
          session.output ++ String.join (values.map fun value => Shell.line value.render)) ∧
    (∀ message, (session.run text).1 = .ok (some (.error message)) ↔
      ∃ fault, session.Faults text fault ∧ fault.message = message) ∧
    (∀ value, (session.run text).1 = .ok (some value) → ¬session.Fails text →
      value.ErrorFree) ∧
    ((Shell.reply session text).1.succeeded = false ↔ session.Fails text) ∧
    (∀ bytes, Shell.decode? bytes = some text →
      ((Shell.script (.ok bytes)).code = Shell.failureCode ↔ Shell.freshSession.Fails text)) := by
  refine ⟨h.errorFree, h.reachable.reaches_evaluation text, fun config hreaches => ?_,
    h.yields_error_iff text, fun value hvalue hfine => ?_, h.succeeded_iff text,
    fun bytes htext => script_code_iff htext⟩
  · have hstart := errorFree_beginText h.errorFree text
    have hconfig := hreaches.errorFree hstart
    obtain ⟨values, hprints⟩ := hreaches.prints
    refine ⟨hconfig.session, ?_, values, hprints, hprints.errorFree hstart, hprints.output⟩
    rintro f args frames current rfl
    exact hconfig.held
  · rcases h.outcome text with ⟨errors, hne, herrors, _⟩ | ⟨fault, hfault, _⟩ |
      ⟨_, value?, hfree, hrun⟩
    · exact absurd (.inl (herrors ▸ hne)) hfine
    · exact absurd (.inr ⟨fault, hfault⟩) hfine
    · rw [hrun] at hvalue
      exact hfree value (Except.ok.inj hvalue)

/-- After a text that failed, no scope binds the failure, and a text that prints an array
is told from one that fails. -/
theorem failures_are_no_values_later :
    let session := ((Session.start .standard false).run "let a = [1]; -true").2
    session.Ran ∧ (∀ value, session.store.Binds value → value.ErrorFree) ∧
      ((Shell.reply session "puts(push(a, 2))").1.succeeded = false ↔
        session.Fails "puts(push(a, 2))") := by
  intro session
  have hran : session.Ran := .run _ (.start false)
  obtain ⟨hbound, _, _, _, _, hreply, _⟩ := failures_are_no_values hran "puts(push(a, 2))"
  exact ⟨hran, hbound, hreply⟩

end Texts

end Session

end Scriptlet
