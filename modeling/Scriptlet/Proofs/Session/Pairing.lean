import Mathlib.Data.List.Forall2
import Scriptlet.Proofs.Program.Names
import Scriptlet.Proofs.Session.Law

/-!
# Two evaluations side by side

A pairing says which two sessions go together, and which two values. If the few operations
on a session that evaluation is made of keep a pairing, the same program does the same in
two sessions that go together: it ends in the same way, with values that go together or
with the same fault. A pairing may also ask of programs that they have certain names only.
The induction over programs is done here once for all pairings.
-/

namespace Scriptlet

variable {α α' β β' : Type}

/-- Results of operations that need no session: values that go together, or the same
fault. -/
inductive Fault.Agree (post : α → α' → Prop) : Except Fault α → Except Fault α' → Prop where
  | ok {a : α} {a' : α'} (h : post a a') : Agree post (.ok a) (.ok a')
  | error (fault : Fault) : Agree post (.error fault) (.error fault)

theorem Fault.Agree.of_eq {post : α → α → Prop} {result result' : Except Fault α}
    (h : result' = result) (hpost : ∀ a, result = .ok a → post a a) :
    Agree post result result' := by
  subst h
  cases result' with
  | ok a => exact .ok (hpost a rfl)
  | error fault => exact .error fault

namespace Value

/-- Two values that differ at most in the numbers that decide identity, and in the
elements of an array, of which `fits` is to say more. -/
inductive Matches (fits : Value → Value → Prop) : Value → Value → Prop where
  | plain {value : Value} (h : value.IsPlain) : Matches fits value value
  | error (message : String) : Matches fits (.error message) (.error message)
  | array {birth birth' : Nat} {elements elements' : List Value}
      (h : List.Forall₂ fits elements elements') :
      Matches fits (.array birth elements) (.array birth' elements')
  | function {f f' : Closure} (hparams : f'.params = f.params) (hbody : f'.body = f.body) :
      Matches fits (.function f) (.function f')

/-- Elements at the same place go together, and so do two that are not there. -/
theorem getD_null_of_forall₂ {fits : Value → Value → Prop} {elements elements' : List Value}
    (h : List.Forall₂ fits elements elements') (hnull : fits .null .null) (i : Nat) :
    fits (elements[i]?.getD .null) (elements'[i]?.getD .null) := by
  induction h generalizing i with
  | nil => simpa using hnull
  | cons hhead _ ih =>
      cases i with
      | zero => simpa using hhead
      | succ i => simpa using ih i

namespace Matches

variable {fits : Value → Value → Prop} {value value' other other' : Value}

protected theorem refl (hfits : ∀ value, fits value value) : ∀ value, Matches fits value value
  | .int n => .plain (.int n)
  | .text s => .plain (.text s)
  | .bool b => .plain (.bool b)
  | .null => .plain .null
  | .native f => .plain (.native f)
  | .error message => .error message
  | .array _ _ => .array (List.forall₂_same.mpr fun value _ => hfits value)
  | .function _ => .function rfl rfl

theorem kind (h : Matches fits value value') : value'.kind = value.kind := by
  cases h <;> rfl

theorem of_array (h : Matches fits value value') (hkind : value.kind = .array) :
    ∃ birth birth' elements elements', value = .array birth elements ∧
      value' = .array birth' elements' ∧ List.Forall₂ fits elements elements' := by
  cases h with
  | plain h => cases h <;> cases hkind
  | error | function => cases hkind
  | array h => exact ⟨_, _, _, _, rfl, rfl, h⟩

theorem eq_of_string (h : Matches fits value value') (hkind : value.kind = .string) :
    ∃ s, value = .text s ∧ value' = .text s := by
  cases h with
  | plain h =>
      cases h with
      | text s => exact ⟨s, rfl, rfl⟩
      | int | bool | null | native => cases hkind
  | error | array | function => cases hkind

theorem truthy (h : Matches fits value value') : value'.truthy = value.truthy := by
  cases h <;> rfl

theorem unaryOp (h : Matches fits value value') (op : UnaryOp) :
    op.apply value' = op.apply value := by
  cases h with
  | plain | error => rfl
  | array | function => cases op <;> rfl

/-- Operators see no more of arrays and functions than whether they are identical. -/
theorem binaryOp (h : Matches fits value value') (h' : Matches fits other other')
    (hidentical : value'.identical other' = value.identical other) (op : BinaryOp) :
    op.apply value' other' = op.apply value other := by
  have hkind := h.kind
  have hkind' := h'.kind
  cases h with
  | plain hplain =>
      cases h' with
      | plain | error => rfl
      | array | function => cases hplain <;> cases op <;> simp_all [BinaryOp.apply]
  | error | array | function => cases op <;> simp_all [BinaryOp.apply]

theorem atIndex (h : Matches fits value value') (h' : Matches fits other other')
    (hnull : fits .null .null) :
    Fault.Agree fits (value.atIndex other) (value'.atIndex other') := by
  have hkind := h.kind
  have hkind' := h'.kind
  by_cases hkinds : value.kind = .array ∧ other.kind = .integer
  · obtain ⟨harray, hinteger⟩ := hkinds
    cases h with
    | plain hplain => cases hplain <;> cases harray
    | error | function => cases harray
    | array helements =>
        cases h' with
        | plain hplain =>
            cases hplain with
            | int i =>
                simp only [Value.atIndex]
                split
                · exact .ok hnull
                · exact .ok (getD_null_of_forall₂ helements hnull _)
            | text | bool | null | native => cases hinteger
        | error | array | function => cases hinteger
  · rw [atIndex_eq_error hkinds, atIndex_eq_error (by rwa [hkind, hkind']), hkind, hkind']
    exact .error _

end Matches

end Value

/-- What goes together when two evaluations run side by side. -/
structure Pairing where
  holds : Session → Session → Prop
  /-- How the first of two sessions may change. -/
  moves : Session → Session → Prop
  /-- Which values go together, given the first session. -/
  fits : Session → Value → Value → Prop
  /-- The names that programs and functions may have. -/
  names : String → Prop := fun _ => True

namespace Pairing

variable (pairing : Pairing)

/-- Two sessions go together that come after two others, of which `start` is the first. -/
structure Step (start last last' : Session) : Prop where
  holds : pairing.holds last last'
  moves : pairing.moves start last

/-- Two outcomes are of one kind, with sessions and values that go together, or with the
same fault. -/
inductive Outcome (post : Session → α → α' → Prop) (start : Session) :
    EStateM.Result Unwind Session α → EStateM.Result Unwind Session α' → Prop where
  | ok {a : α} {a' : α'} {last last' : Session} (hstep : pairing.Step start last last')
      (hpost : post last a a') : Outcome post start (.ok a last) (.ok a' last')
  | fault (fault : Fault) {last last' : Session} (hstep : pairing.Step start last last') :
      Outcome post start (.error (.fault fault) last) (.error (.fault fault) last')
  | returned {value value' : Value} {last last' : Session}
      (hstep : pairing.Step start last last') (hfits : pairing.fits last value value') :
      Outcome post start (.error (.returned value) last) (.error (.returned value') last')

/-- The operations on a session that evaluation is made of keep the pairing. -/
structure Kept : Prop where
  refl (session : Session) : pairing.moves session session
  trans {start middle session : Session} :
    pairing.moves start middle → pairing.moves middle session → pairing.moves start session
  fits_mono {start session : Session} {value value' : Value} :
    pairing.moves start session → pairing.fits start value value' →
      pairing.fits session value value'
  fits_plain {session : Session} {value : Value} :
    value.IsPlain → pairing.fits session value value
  fits_matches {session : Session} {value value' : Value} :
    pairing.fits session value value' → value.Matches (pairing.fits session) value'
  fits_identical {session : Session} {value value' other other' : Value} :
    pairing.fits session value value' → pairing.fits session other other' →
      value'.identical other' = value.identical other
  fits_function {session session' : Session} (literal : Nat) (params : List String)
    (body : Program Nat) :
    pairing.holds session session' →
      (∀ name ∈ params ++ Item.namesAll body, pairing.names name) →
        pairing.fits session (.function ⟨literal, params, body, session.scope⟩)
          (.function ⟨literal, params, body, session'.scope⟩)
  fits_names {session : Session} {f : Closure} {value' : Value} :
    pairing.fits session (.function f) value' → ∀ name ∈ f.names, pairing.names name
  natives {session session' : Session} :
    pairing.holds session session' → session'.natives = session.natives
  makeArray {session session' : Session} {elements elements' : List Value} :
    pairing.holds session session' →
      List.Forall₂ (pairing.fits session) elements elements' →
        pairing.Outcome pairing.fits session (Eval.makeArray elements session)
          (Eval.makeArray elements' session')
  print {session session' : Session} (text : String) :
    pairing.holds session session' →
      pairing.Step session (session.print text) (session'.print text)
  observe {session session' : Session} (event : Event) :
    pairing.holds session session' →
      pairing.Step session (session.observe event) (session'.observe event)
  get {session session' : Session} {name : String} :
    pairing.holds session session' → pairing.names name →
      pairing.Step session (session.get name).2 (session'.get name).2 ∧
        Option.Rel (pairing.fits session) (session.get name).1 (session'.get name).1
  set {session session' : Session} {value value' : Value} {name : String} :
    pairing.holds session session' → pairing.names name → pairing.fits session value value' →
      pairing.Step session (session.set name value) (session'.set name value')
  opened {session session' : Session} {f f' : Closure} :
    pairing.holds session session' → pairing.fits session (.function f) (.function f') →
      pairing.Step session (session.opened f) (session'.opened f')
  leave {session session' last last' : Session} :
    pairing.holds session session' → pairing.moves session last → pairing.holds last last' →
      pairing.Step last (last.leave session.scope) (last'.leave session'.scope)

/-- Two values go together if both are there, or else none is there. -/
def fits? (session : Session) : Option Value → Option Value → Prop :=
  Option.Rel (pairing.fits session)

/-- The values of two lists go together one by one. -/
def fitsAll (session : Session) : List Value → List Value → Prop :=
  List.Forall₂ (pairing.fits session)

/-- Two bindings are of one name, and their values go together. -/
def fitsBinding (session : Session) (binding binding' : String × Value) : Prop :=
  binding'.1 = binding.1 ∧ pairing.names binding.1 ∧ pairing.fits session binding.2 binding'.2

/-- Calls keep the pairing. -/
def KeptBy (call : CallRule) : Prop :=
  ∀ (session session' : Session) (f f' : Closure) (args args' : List Value),
    pairing.holds session session' → pairing.fits session (.function f) (.function f') →
      pairing.fitsAll session args args' →
        pairing.Outcome pairing.fits session (call f args session) (call f' args' session')

variable {pairing} {post : Session → α → α' → Prop} {post' : Session → β → β' → Prop}
variable {start start' session session' : Session}

theorem Step.refl (hpairing : pairing.Kept) (hholds : pairing.holds start start') :
    pairing.Step start start start' :=
  ⟨hholds, hpairing.refl start⟩

theorem Step.after (hpairing : pairing.Kept) (hmoves : pairing.moves start session)
    {last last' : Session} (h : pairing.Step session last last') :
    pairing.Step start last last' :=
  ⟨h.holds, hpairing.trans hmoves h.moves⟩

namespace Outcome

/-- Outcomes in later sessions are outcomes of the earlier ones. -/
theorem after (hpairing : pairing.Kept) (hmoves : pairing.moves start session)
    {result : EStateM.Result Unwind Session α} {result' : EStateM.Result Unwind Session α'}
    (h : pairing.Outcome post session result result') :
    pairing.Outcome post start result result' := by
  cases h with
  | ok hstep hpost => exact .ok (hstep.after hpairing hmoves) hpost
  | fault fault hstep => exact .fault fault (hstep.after hpairing hmoves)
  | returned hstep hfits => exact .returned (hstep.after hpairing hmoves) hfits

theorem step {result : EStateM.Result Unwind Session α}
    {result' : EStateM.Result Unwind Session α'} (h : pairing.Outcome post start result result') :
    pairing.Step start (Eval.last result) (Eval.last result') := by
  cases h with
  | ok hstep => exact hstep
  | fault fault hstep => exact hstep
  | returned hstep => exact hstep

theorem pure (hpairing : pairing.Kept) (hholds : pairing.holds start start') {a : α} {a' : α'}
    (ha : post start a a') :
    pairing.Outcome post start ((Pure.pure a : Eval α) start) ((Pure.pure a' : Eval α') start') :=
  .ok (.refl hpairing hholds) ha

theorem throw (hpairing : pairing.Kept) (hholds : pairing.holds start start') (fault : Fault) :
    pairing.Outcome post start ((throw (.fault fault) : Eval α) start)
      ((throw (.fault fault) : Eval α') start') :=
  .fault fault (.refl hpairing hholds)

theorem bind (hpairing : pairing.Kept) {x : Eval α} {x' : Eval α'} {f : α → Eval β}
    {f' : α' → Eval β'} (hx : pairing.Outcome post start (x start) (x' start'))
    (hf : ∀ a a' session session', pairing.holds session session' →
      pairing.moves start session → post session a a' →
        pairing.Outcome post' session (f a session) (f' a' session')) :
    pairing.Outcome post' start ((x >>= f) start) ((x' >>= f') start') := by
  change pairing.Outcome post' start (EStateM.bind x f start) (EStateM.bind x' f' start')
  unfold EStateM.bind
  generalize x start = result, x' start' = result' at hx ⊢
  cases hx with
  | ok hstep hpost => exact (hf _ _ _ _ hstep.holds hstep.moves hpost).after hpairing hstep.moves
  | fault fault hstep => exact .fault fault hstep
  | returned hstep hfits => exact .returned hstep hfits

theorem ofExcept (hpairing : pairing.Kept) (hholds : pairing.holds start start')
    {result : Except Fault α} {result' : Except Fault α'}
    (h : Fault.Agree (post start) result result') :
    pairing.Outcome post start (Eval.ofExcept result start) (Eval.ofExcept result' start') := by
  cases h with
  | ok hpost => exact .pure hpairing hholds hpost
  | error fault => exact .throw hpairing hholds fault

end Outcome

namespace Kept

/-- Steps that keep a pairing keep it one after the other. -/
theorem foldl (hpairing : pairing.Kept) (step : Session → α → Session)
    (related : Session → α → α → Prop)
    (hrelated : ∀ {start session : Session} {a a' : α}, pairing.moves start session →
      related start a a' → related session a a')
    (hstep : ∀ {session session' : Session} {a a' : α}, pairing.holds session session' →
      related session a a' → pairing.Step session (step session a) (step session' a'))
    {as as' : List α} (hholds : pairing.holds start start')
    (has : List.Forall₂ (related start) as as') :
    pairing.Step start (as.foldl step start) (as'.foldl step start') := by
  induction as generalizing start start' as' with
  | nil =>
      cases has
      exact .refl hpairing hholds
  | cons a as ih =>
      cases has with
      | cons hhead htail =>
          have hfirst := hstep hholds hhead
          have hothers := ih hfirst.holds (htail.imp fun _ _ h => hrelated hfirst.moves h)
          exact hothers.after hpairing hfirst.moves

theorem null (hpairing : pairing.Kept) (session : Session) : pairing.fits session .null .null :=
  hpairing.fits_plain .null

theorem getD_null (hpairing : pairing.Kept) {value? value?' : Option Value}
    (h : pairing.fits? session value? value?') :
    pairing.fits session (value?.getD .null) (value?'.getD .null) := by
  cases h with
  | some h => exact h
  | none => exact hpairing.null session

/-- What a name is bound to keeps the pairing, and so does a native function. -/
theorem var (hpairing : pairing.Kept) {name : String} (hholds : pairing.holds start start')
    (hname : pairing.names name) :
    pairing.Outcome pairing.fits start (Eval.var name start) (Eval.var name start') := by
  obtain ⟨hstep, hvalue⟩ := hpairing.get hholds hname
  have hnatives := hpairing.natives hstep.holds
  unfold Eval.var
  generalize start.get name = found, start'.get name = found' at hstep hvalue hnatives ⊢
  obtain ⟨value?, last⟩ := found
  obtain ⟨value?', last'⟩ := found'
  cases hvalue with
  | some hfits => exact .ok hstep (hpairing.fits_mono hstep.moves hfits)
  | none =>
      dsimp only at hnatives ⊢
      rw [hnatives]
      cases last.natives.get? name with
      | some native => exact .ok hstep (hpairing.fits_plain (.native native))
      | none => exact .fault _ hstep

end Kept

mutual

/-- Values that go together have the same texts. -/
theorem Kept.texts_eq (hpairing : pairing.Kept) :
    ∀ {value value' : Value}, pairing.fits start value value' →
      value'.render = value.render ∧ value'.outline = value.outline
  | .array birth elements, value', h => by
      have hmatches := hpairing.fits_matches h
      cases hmatches with
      | plain hplain => cases hplain
      | array helements =>
          obtain ⟨hrender, houtline⟩ := Kept.texts_eq_all hpairing helements
          simp only [Value.render, Value.outline, Value.renderEach_eq_map,
            Value.outlineEach_eq_map, hrender, houtline, and_self]
  | .function f, value', h => by
      have hmatches := hpairing.fits_matches h
      cases hmatches with
      | plain hplain => cases hplain
      | function hparams hbody =>
          simp only [Value.render, Value.outline, Closure.render, Closure.outline, hparams,
            hbody, and_self]
  | .int n, value', h | .text s, value', h | .bool b, value', h | .null, value', h
  | .native f, value', h | .error message, value', h => by
      have hmatches := hpairing.fits_matches h
      cases hmatches <;> exact ⟨rfl, rfl⟩

theorem Kept.texts_eq_all (hpairing : pairing.Kept) :
    ∀ {values values' : List Value}, pairing.fitsAll start values values' →
      values'.map Value.render = values.map Value.render ∧
        values'.map Value.outline = values.map Value.outline
  | [], values', h => by
      cases h
      exact ⟨rfl, rfl⟩
  | value :: values, values', h => by
      cases h with
      | cons hhead htail =>
          obtain ⟨hrender, houtline⟩ := Kept.texts_eq hpairing hhead
          obtain ⟨hrenders, houtlines⟩ := Kept.texts_eq_all hpairing htail
          simp only [List.map_cons, hrender, houtline, hrenders, houtlines, and_self]

end

namespace Kept

/-- Printing values that go together. -/
theorem puts (hpairing : pairing.Kept) {args args' : List Value}
    (hholds : pairing.holds start start') (hargs : pairing.fitsAll start args args') :
    pairing.Outcome pairing.fits start (Routine.puts.answer args start)
      (Routine.puts.answer args' start') := by
  have hprint {session session' : Session} {arg arg' : Value}
      (hholds : pairing.holds session session') (harg : pairing.fits session arg arg') :
      pairing.Step session (session.print (arg.render ++ "\n"))
        (session'.print (arg'.render ++ "\n")) := by
    rw [(hpairing.texts_eq harg).1]
    exact hpairing.print (arg.render ++ "\n") hholds
  have hprinted := hpairing.foldl (fun session arg => session.print (arg.render ++ "\n"))
    pairing.fits hpairing.fits_mono hprint hholds hargs
  exact .ok hprinted (hpairing.null _)

/-- A native body that works on an array, with further arguments or without. -/
theorem answer_array (hpairing : pairing.Kept) {routine : Routine} (hroutine : routine ≠ .puts)
    {birth birth' : Nat} {elements elements' args args' : List Value}
    (hholds : pairing.holds start start') (helements : pairing.fitsAll start elements elements')
    (hargs : pairing.fitsAll start args args') :
    pairing.Outcome pairing.fits start (routine.answer (.array birth elements :: args) start)
      (routine.answer (.array birth' elements' :: args') start') := by
  cases routine with
  | len =>
      cases hargs with
      | nil =>
          refine .pure hpairing hholds ?_
          rw [helements.length_eq]
          exact hpairing.fits_plain (.int _)
      | cons => exact .throw hpairing hholds _
  | first =>
      cases hargs with
      | nil =>
          refine .pure hpairing hholds ?_
          rw [List.head?_eq_getElem?, List.head?_eq_getElem?]
          exact Value.getD_null_of_forall₂ helements (hpairing.null _) 0
      | cons => exact .throw hpairing hholds _
  | last =>
      cases hargs with
      | nil =>
          refine .pure hpairing hholds ?_
          rw [List.getLast?_eq_getElem?, List.getLast?_eq_getElem?, helements.length_eq]
          exact Value.getD_null_of_forall₂ helements (hpairing.null _) _
      | cons => exact .throw hpairing hholds _
  | rest =>
      cases hargs with
      | nil =>
          cases helements with
          | nil => exact .pure hpairing hholds (hpairing.null _)
          | cons _ htail => exact hpairing.makeArray hholds htail
      | cons => cases helements <;> exact .throw hpairing hholds _
  | push =>
      cases hargs with
      | nil => exact .throw hpairing hholds _
      | cons hvalue hothers =>
          cases hothers with
          | nil =>
              have hmade := List.rel_append helements (.cons hvalue .nil)
              exact hpairing.makeArray hholds hmade
          | cons => exact .throw hpairing hholds _
  | puts => exact absurd rfl hroutine

/-- A native body that does not print, called with values that go together. -/
theorem answer (hpairing : pairing.Kept) {routine : Routine} (hroutine : routine ≠ .puts)
    {args args' : List Value} (hholds : pairing.holds start start')
    (hargs : pairing.fitsAll start args args') :
    pairing.Outcome pairing.fits start (routine.answer args start)
      (routine.answer args' start') := by
  cases hargs with
  | nil =>
      cases routine with
      | puts => exact absurd rfl hroutine
      | len | first | last | rest | push => exact .pure hpairing hholds (hpairing.null _)
  | @cons arg arg' args args' harg hargs =>
      have hkind := (hpairing.fits_matches harg).kind
      by_cases harray : arg.kind = .array
      · obtain ⟨birth, birth', elements, elements', rfl, rfl, helements⟩ :=
          (hpairing.fits_matches harg).of_array harray
        exact hpairing.answer_array hroutine hholds helements hargs
      by_cases htext : arg.kind = .string ∧ routine = .len
      · obtain ⟨s, rfl, rfl⟩ := (hpairing.fits_matches harg).eq_of_string htext.1
        rw [htext.2]
        cases hargs with
        | nil => exact .pure hpairing hholds (hpairing.fits_plain (.int _))
        | cons => exact .throw hpairing hholds _
      -- Anything else is of the wrong kind, and that kind is the same on both sides.
      · rw [Routine.answer_unsupported hroutine harray htext,
          Routine.answer_unsupported hroutine (by rwa [hkind]) (by rwa [hkind]), hkind]
        exact .throw hpairing hholds _

/-- Every native body keeps the pairing. -/
theorem run (hpairing : pairing.Kept) (routine : Routine) {args args' : List Value}
    (hholds : pairing.holds start start') (hargs : pairing.fitsAll start args args') :
    pairing.Outcome pairing.fits start (routine.run args start) (routine.run args' start') := by
  have hanswer : pairing.Outcome pairing.fits start (routine.answer args start)
      (routine.answer args' start') := by
    by_cases hroutine : routine = .puts
    · rw [hroutine]
      exact hpairing.puts hholds hargs
    · exact hpairing.answer hroutine hholds hargs
  unfold Routine.run
  cases routine.arity? with
  | none => exact hanswer
  | some want =>
      dsimp only
      rw [← hargs.length_eq]
      split
      · exact hanswer
      · exact .throw hpairing hholds _

end Kept

end Pairing

section Programs

variable {pairing : Pairing} {call : CallRule}

mutual

/-- An expression has values that go together in sessions that do. -/
theorem Expr.eval_pairs (hpairing : pairing.Kept) (hcall : pairing.KeptBy call) :
    ∀ (e : Expr Nat) {start start' : Session}, (∀ name ∈ e.names, pairing.names name) →
      pairing.holds start start' →
        pairing.Outcome pairing.fits start (e.eval call start) (e.eval call start')
  | .var name, start, start', hnames, hholds =>
      hpairing.var hholds (hnames name List.mem_cons_self)
  | .lit literal, start, start', _, hholds =>
      .pure hpairing hholds (hpairing.fits_plain (Value.isPlain_ofLiteral literal))
  | .unary op operand, start, start', hnames, hholds => by
      have hoperand := Expr.eval_pairs hpairing hcall operand hnames hholds
      refine .bind hpairing hoperand fun value value' session session' hholds _ hvalue => ?_
      have happly := (hpairing.fits_matches hvalue).unaryOp op
      exact .ofExcept hpairing hholds (.of_eq happly fun result hok =>
        hpairing.fits_plain (UnaryOp.apply_isPlain hok))
  | .binary left op right, start, start', hnames, hholds => by
      obtain ⟨hnames, hnames'⟩ := List.forall_mem_append.mp hnames
      have hleft := Expr.eval_pairs hpairing hcall left hnames hholds
      refine .bind hpairing hleft fun value value' session session' hholds _ hvalue => ?_
      have hright := Expr.eval_pairs hpairing hcall right hnames' hholds
      refine .bind hpairing hright fun other other' session session' hholds hmoves hother => ?_
      have hvalue := hpairing.fits_mono hmoves hvalue
      have happly := (hpairing.fits_matches hvalue).binaryOp (hpairing.fits_matches hother)
        (hpairing.fits_identical hvalue hother) op
      exact .ofExcept hpairing hholds (.of_eq happly fun result hok =>
        hpairing.fits_plain (BinaryOp.apply_isPlain hok))
  | .cond test yes no, start, start', hnames, hholds => by
      obtain ⟨hnames, hblocks⟩ := List.forall_mem_append.mp hnames
      obtain ⟨hyesnames, hnonames⟩ := List.forall_mem_append.mp hblocks
      have htest := Expr.eval_pairs hpairing hcall test hnames hholds
      refine .bind hpairing htest fun value value' session session' hholds _ hvalue => ?_
      rw [(hpairing.fits_matches hvalue).truthy]
      by_cases htruthy : value.truthy
      · rw [if_pos htruthy]
        have hyes := Item.evalAll_pairs hpairing hcall yes hyesnames hholds .none
        refine .bind hpairing hyes fun last last' session session' hholds _ hlast => ?_
        exact .pure hpairing hholds (hpairing.getD_null hlast)
      · rw [if_neg htruthy]
        exact Item.evalElse_pairs hpairing hcall no hnonames hholds
  | .fn literal params body, start, start', hnames, hholds =>
      .ok (.refl hpairing hholds) (hpairing.fits_function literal params body hholds hnames)
  | .call callee args, start, start', hnames, hholds => by
      obtain ⟨hnames, hnames'⟩ := List.forall_mem_append.mp hnames
      have hcallee := Expr.eval_pairs hpairing hcall callee hnames hholds
      refine .bind hpairing hcallee fun value value' session session' hholds _ hvalue => ?_
      have hargs := Expr.evalAll_pairs hpairing hcall args hnames' hholds
      have hmatches := hpairing.fits_matches hvalue
      cases hmatches with
      | @function f f' =>
          refine .bind hpairing hargs fun values values' session session' hholds hmoves hall => ?_
          have hf := hpairing.fits_mono hmoves hvalue
          exact hcall session session' f f' values values' hholds hf hall
      | plain hplain =>
          cases hplain with
          | native f =>
              refine .bind hpairing hargs fun values values' session session' hholds _ hvalues => ?_
              exact hpairing.run f.routine hholds hvalues
          | int | text | bool | null => exact .throw hpairing hholds _
      | error | array => exact .throw hpairing hholds _
  | .array elements, start, start', hnames, hholds => by
      have helements := Expr.evalAll_pairs hpairing hcall elements hnames hholds
      refine .bind hpairing helements fun values values' session session' hholds _ hvalues => ?_
      exact hpairing.makeArray hholds hvalues
  | .index base position, start, start', hnames, hholds => by
      obtain ⟨hnames, hnames'⟩ := List.forall_mem_append.mp hnames
      have hbase := Expr.eval_pairs hpairing hcall base hnames hholds
      refine .bind hpairing hbase fun value value' session session' hholds _ hvalue => ?_
      have hposition := Expr.eval_pairs hpairing hcall position hnames' hholds
      refine .bind hpairing hposition fun other other' session session' hholds hmoves hother => ?_
      have hvalue := hpairing.fits_mono hmoves hvalue
      exact .ofExcept hpairing hholds ((hpairing.fits_matches hvalue).atIndex
        (hpairing.fits_matches hother) (hpairing.null session))

theorem Item.eval_pairs (hpairing : pairing.Kept) (hcall : pairing.KeptBy call) :
    ∀ (item : Item Nat) {start start' : Session}, (∀ name ∈ item.names, pairing.names name) →
      pairing.holds start start' →
        pairing.Outcome pairing.fits? start (item.eval call start) (item.eval call start')
  | .expr e, start, start', hnames, hholds => by
      have he := Expr.eval_pairs hpairing hcall e hnames hholds
      refine .bind hpairing he fun value value' session session' hholds _ hvalue => ?_
      exact .pure hpairing hholds (.some hvalue)
  | .bind name init, start, start', hnames, hholds => by
      obtain ⟨hname, hnames⟩ := List.forall_mem_cons.mp hnames
      have hinit := Expr.eval_pairs hpairing hcall init hnames hholds
      refine .bind hpairing hinit fun value value' session session' hholds _ hvalue => ?_
      exact .ok (hpairing.set hholds hname hvalue) .none
  | .ret e, start, start', hnames, hholds => by
      have he := Expr.eval_pairs hpairing hcall e hnames hholds
      refine .bind hpairing he fun value value' session session' hholds _ hvalue => ?_
      exact .returned (.refl hpairing hholds) hvalue
  | .block items, start, start', hnames, hholds =>
      Item.evalAll_pairs hpairing hcall items hnames hholds .none

theorem Expr.evalAll_pairs (hpairing : pairing.Kept) (hcall : pairing.KeptBy call) :
    ∀ (es : List (Expr Nat)) {start start' : Session},
      (∀ name ∈ Expr.namesAll es, pairing.names name) → pairing.holds start start' →
        pairing.Outcome pairing.fitsAll start (Expr.evalAll call es start)
          (Expr.evalAll call es start')
  | [], start, start', _, hholds => .pure hpairing hholds .nil
  | e :: es, start, start', hnames, hholds => by
      obtain ⟨hnames, hnames'⟩ := List.forall_mem_append.mp hnames
      have he := Expr.eval_pairs hpairing hcall e hnames hholds
      refine .bind hpairing he fun value value' session session' hholds _ hvalue => ?_
      have hes := Expr.evalAll_pairs hpairing hcall es hnames' hholds
      refine .bind hpairing hes fun values values' session session' hholds hmoves hvalues => ?_
      exact .pure hpairing hholds (.cons (hpairing.fits_mono hmoves hvalue) hvalues)

theorem Item.evalAll_pairs (hpairing : pairing.Kept) (hcall : pairing.KeptBy call) :
    ∀ (items : List (Item Nat)) {last last' : Option Value} {start start' : Session},
      (∀ name ∈ Item.namesAll items, pairing.names name) → pairing.holds start start' →
        pairing.fits? start last last' →
          pairing.Outcome pairing.fits? start (Item.evalAll call last items start)
            (Item.evalAll call last' items start')
  | [], last, last', start, start', _, hholds, hlast => .pure hpairing hholds hlast
  | item :: items, last, last', start, start', hnames, hholds, _ => by
      obtain ⟨hnames, hnames'⟩ := List.forall_mem_append.mp hnames
      have hitem := Item.eval_pairs hpairing hcall item hnames hholds
      refine .bind hpairing hitem fun value value' session session' hholds _ hvalue => ?_
      exact Item.evalAll_pairs hpairing hcall items hnames' hholds hvalue

theorem Item.evalElse_pairs (hpairing : pairing.Kept) (hcall : pairing.KeptBy call) :
    ∀ (no : Option (List (Item Nat))) {start start' : Session},
      (∀ name ∈ Item.namesElse no, pairing.names name) → pairing.holds start start' →
        pairing.Outcome pairing.fits start (Item.evalElse call no start)
          (Item.evalElse call no start')
  | none, start, start', _, hholds => .pure hpairing hholds (hpairing.null start)
  | some items, start, start', hnames, hholds => by
      have hitems := Item.evalAll_pairs hpairing hcall items hnames hholds .none
      refine .bind hpairing hitems fun last last' session session' hholds _ hlast => ?_
      exact .pure hpairing hholds (hpairing.getD_null hlast)

end

end Programs

namespace Pairing

variable {pairing : Pairing} {start start' : Session} {f f' : Closure} {args args' : List Value}

/-- Functions that go together differ at most in where they come from. -/
theorem Kept.of_function (hpairing : pairing.Kept)
    (h : pairing.fits start (.function f) (.function f')) :
    f'.params = f.params ∧ f'.body = f.body := by
  have hmatches := hpairing.fits_matches h
  cases hmatches with
  | plain hplain => cases hplain
  | function hparams hbody => exact ⟨hparams, hbody⟩

/-- Parameters go with the values of one list as with those of the other. -/
theorem fitsAll_zip {params : List String} (hnames : ∀ name ∈ params, pairing.names name)
    (h : pairing.fitsAll start args args') :
    List.Forall₂ (pairing.fitsBinding start) (params.zip args) (params.zip args') := by
  induction params generalizing args args' with
  | nil => exact .nil
  | cons name params ih =>
      obtain ⟨hname, hnames⟩ := List.forall_mem_cons.mp hnames
      cases h with
      | nil => exact .nil
      | cons hhead htail => exact .cons ⟨rfl, hname, hhead⟩ (ih hnames htail)

/-- Calls of functions that go together begin in sessions that do. -/
theorem Kept.enter (hpairing : pairing.Kept) (hholds : pairing.holds start start')
    (hf : pairing.fits start (.function f) (.function f'))
    (hargs : pairing.fitsAll start args args') :
    pairing.Step start (start.enter f args) (start'.enter f' args') := by
  have hparams := (hpairing.of_function hf).1
  have hnames := (List.forall_mem_append.mp (hpairing.fits_names hf)).1
  have hopened := hpairing.opened hholds hf
  have hfits : pairing.fitsAll (start.opened f) args args' :=
    hargs.imp fun _ _ h => hpairing.fits_mono hopened.moves h
  have hset {session session' : Session} {binding binding' : String × Value}
      (hholds : pairing.holds session session')
      (h : pairing.fitsBinding session binding binding') :
      pairing.Step session (session.set binding.1 binding.2)
        (session'.set binding'.1 binding'.2) := by
    rw [h.1]
    exact hpairing.set hholds h.2.1 h.2.2
  have hbound := hpairing.foldl (fun session binding => session.set binding.1 binding.2)
    pairing.fitsBinding (fun hmoves h => ⟨h.1, h.2.1, hpairing.fits_mono hmoves h.2.2⟩) hset
    hopened.holds (fitsAll_zip hnames hfits)
  have hobserved := hpairing.observe (.call f.params) hbound.holds
  have hentered := (hobserved.after hpairing hbound.moves).after hpairing hopened.moves
  unfold Session.enter
  rw [hparams]
  exact hentered

/-- A call that ends leaves sessions and values that go together. -/
theorem Kept.endCall (hpairing : pairing.Kept) {entered : Session}
    (hholds : pairing.holds start start') (hmoves : pairing.moves start entered)
    {result result' : EStateM.Result Unwind Session (Option Value)}
    (h : pairing.Outcome pairing.fits? entered result result') :
    pairing.Outcome pairing.fits start (Eval.endCall start.scope result)
      (Eval.endCall start'.scope result') := by
  have hback {last last' : Session} (hstep : pairing.Step entered last last') :
      pairing.Step last (last.leave start.scope) (last'.leave start'.scope) ∧
        pairing.moves start last := by
    have hmoved := hpairing.trans hmoves hstep.moves
    exact ⟨hpairing.leave hholds hmoved hstep.holds, hmoved⟩
  cases h with
  | ok hstep hlast =>
      obtain ⟨hleft, hmoved⟩ := hback hstep
      exact .ok (hleft.after hpairing hmoved)
        (hpairing.fits_mono hleft.moves (hpairing.getD_null hlast))
  | fault reason hstep =>
      obtain ⟨hleft, hmoved⟩ := hback hstep
      exact .fault reason (hleft.after hpairing hmoved)
  | returned hstep hvalue =>
      obtain ⟨hleft, hmoved⟩ := hback hstep
      exact .ok (hleft.after hpairing hmoved) (hpairing.fits_mono hleft.moves hvalue)

/-- Calls keep a pairing that the operations keep. -/
theorem Kept.callWithin (hpairing : pairing.Kept) (levels : Nat) :
    pairing.KeptBy (callWithin levels) := by
  induction levels with
  | zero =>
      intro session session' f f' args args' hholds hf hargs
      obtain ⟨hparams, _⟩ := hpairing.of_function hf
      have hlength := hargs.length_eq
      by_cases harity : args.length = f.params.length
      · rw [callWithin_zero_of_length_eq harity,
          callWithin_zero_of_length_eq (by rw [← hlength, harity, hparams])]
        exact .throw hpairing hholds _
      · rw [callWithin_of_length_ne harity,
          callWithin_of_length_ne (by rwa [← hlength, hparams]), ← hlength, hparams]
        exact .throw hpairing hholds _
  | succ levels ih =>
      intro session session' f f' args args' hholds hf hargs
      obtain ⟨hparams, hbody⟩ := hpairing.of_function hf
      have hlength := hargs.length_eq
      by_cases harity : args.length = f.params.length
      · rw [callWithin_succ_of_length_eq harity,
          callWithin_succ_of_length_eq (by rw [← hlength, harity, hparams]), hbody]
        have hentered := hpairing.enter hholds hf hargs
        have hnames := (List.forall_mem_append.mp (hpairing.fits_names hf)).2
        have hrun := Item.evalAll_pairs hpairing ih f.body hnames hentered.holds .none
        exact hpairing.endCall hholds hentered.moves hrun
      · rw [callWithin_of_length_ne harity,
          callWithin_of_length_ne (by rwa [← hlength, hparams]), ← hlength, hparams]
        exact .throw hpairing hholds _

/-- Calling from outside keeps a pairing. -/
theorem Kept.call (hpairing : pairing.Kept) (hholds : pairing.holds start start')
    (hdepth : start'.depth = start.depth) {callee callee' : Value}
    (hcallee : pairing.fits start callee callee') (hargs : pairing.fitsAll start args args') :
    pairing.Outcome pairing.fits start (start.call callee args) (start'.call callee' args') := by
  have hmatches := hpairing.fits_matches hcallee
  cases hmatches with
  | function =>
      unfold Session.call Session.callRule
      rw [hdepth]
      exact hpairing.callWithin _ start start' _ _ args args' hholds hcallee hargs
  | plain hplain =>
      cases hplain with
      | native f => exact hpairing.run f.routine hholds hargs
      | int | text | bool | null => exact .throw hpairing hholds _
  | error | array => exact .throw hpairing hholds _

/-- Evaluating a program between calls keeps a pairing in which failures go together. -/
theorem Kept.evaluate (hpairing : pairing.Kept)
    (herror : ∀ session message, pairing.fits session (.error message) (.error message))
    {program : Program Nat} (hnames : ∀ name ∈ Item.namesAll program, pairing.names name)
    (hholds : pairing.holds start start') (hdepth : start'.depth = start.depth) :
    pairing.Step start (start.evaluate program).2 (start'.evaluate program).2 ∧
      pairing.fits? (start.evaluate program).2 (start.evaluate program).1
        (start'.evaluate program).1 := by
  have hrule : start'.callRule = start.callRule :=
    congrArg (fun depth => Scriptlet.callWithin (maxCalls - depth)) hdepth
  have hlast : pairing.fits? start none none := .none
  have hrun := Item.evalAll_pairs hpairing (hpairing.callWithin (maxCalls - start.depth)) program
    hnames hholds hlast
  unfold Session.evaluate
  rw [hrule, Session.callRule]
  generalize Item.evalAll _ none program start = result,
    Item.evalAll _ none program start' = result' at hrun ⊢
  cases hrun with
  | ok hstep hlast => exact ⟨hstep, hlast⟩
  | fault fault hstep => exact ⟨hstep, .some (herror _ fault.message)⟩
  | returned hstep hvalue => exact ⟨hstep, .some hvalue⟩

end Pairing

end Scriptlet
