import Scriptlet.Proofs.Session.Native

/-!
# What evaluation keeps

A law says what is to hold of sessions, how a session may change, and what is to hold
of the values at hand. If the few operations on a session that evaluation is made of
keep a law, and calls do, then every evaluation keeps it, whether it ends with a value,
a fault or a return. The induction over programs is done here once for all laws.
-/

namespace Scriptlet

variable {Mark : Type}

mutual

/-- The names that evaluating an expression may bind in the current scope: those of the
bindings outside its function literals. -/
def Expr.letNames : Expr Mark → List String
  | .var _ => []
  | .lit _ => []
  | .unary _ operand => operand.letNames
  | .binary left _ right => left.letNames ++ right.letNames
  | .cond test yes no => test.letNames ++ (Item.letNamesAll yes ++ Item.letNamesElse no)
  | .fn _ _ _ => []
  | .call callee args => callee.letNames ++ Expr.letNamesAll args
  | .array elements => Expr.letNamesAll elements
  | .index base position => base.letNames ++ position.letNames

def Item.letNames : Item Mark → List String
  | .expr e => e.letNames
  | .bind name init => name :: init.letNames
  | .ret e => e.letNames
  | .block items => Item.letNamesAll items

def Expr.letNamesAll : List (Expr Mark) → List String
  | [] => []
  | e :: es => e.letNames ++ Expr.letNamesAll es

def Item.letNamesAll : List (Item Mark) → List String
  | [] => []
  | item :: items => item.letNames ++ Item.letNamesAll items

def Item.letNamesElse : Option (List (Item Mark)) → List String
  | none => []
  | some items => Item.letNamesAll items

end

/-- The session in which a call of a function binds its parameters. -/
def Session.opened (session : Session) (f : Closure) : Session :=
  { session with
    store := (session.store.create (some f.scope)).2, scope := session.store.size,
    depth := session.depth + 1 }

/-- The session that an evaluation leaves, however it ends. -/
def Eval.last {α : Type} : EStateM.Result Unwind Session α → Session
  | .ok _ session => session
  | .error _ session => session

/-- What evaluation is to keep. -/
structure Law where
  holds : Session → Prop
  /-- How a session may change. -/
  moves : Session → Session → Prop
  /-- What a value has to satisfy in a session. -/
  fits : Session → Value → Prop
  /-- The names that may be bound in the current scope. -/
  binds : String → Prop

namespace Law

variable {α β : Type} (law : Law)

/-- The law is kept on the way to an outcome, and the result is as it should be. -/
def Outcome (post : Session → α → Prop) (start : Session) :
    EStateM.Result Unwind Session α → Prop
  | .ok a session => law.holds session ∧ law.moves start session ∧ post session a
  | .error unwind session =>
      law.holds session ∧ law.moves start session ∧
        ∀ value, unwind = .returned value → law.fits session value

/-- The operations on a session that evaluation is made of keep the law. -/
structure Kept : Prop where
  refl {session : Session} : law.holds session → law.moves session session
  trans {start middle session : Session} :
    law.moves start middle → law.moves middle session → law.moves start session
  fits_mono {start session : Session} {value : Value} :
    law.moves start session → law.fits start value → law.fits session value
  fits_plain {session : Session} {value : Value} : value.IsPlain → law.fits session value
  fits_element {session : Session} {birth : Nat} {elements : List Value} {value : Value} :
    law.fits session (.array birth elements) → value ∈ elements → law.fits session value
  fits_function {session : Session} (literal : Nat) (params : List String)
    (body : Program Nat) :
    law.holds session → law.fits session (.function ⟨literal, params, body, session.scope⟩)
  makeArray {session : Session} {elements : List Value} :
    law.holds session → (∀ value ∈ elements, law.fits session value) →
      law.Outcome law.fits session (Eval.makeArray elements session)
  print {session : Session} (text : String) :
    law.holds session → law.Outcome (fun _ _ => True) session (.ok () (session.print text))
  observe {session : Session} (event : Event) :
    law.holds session → law.Outcome (fun _ _ => True) session (.ok () (session.observe event))
  found {session : Session} {name : String} {value : Value} :
    law.holds session → session.store.get? session.scope name = some value →
      law.fits session value
  set {session : Session} {name : String} {value : Value} :
    law.holds session → law.binds name → law.fits session value →
      law.Outcome (fun _ _ => True) session (.ok () (session.set name value))

/-- Calls keep the law. -/
def KeptBy (call : CallRule) : Prop :=
  ∀ (session : Session) (f : Closure) (args : List Value), law.holds session →
    law.fits session (.function f) → (∀ value ∈ args, law.fits session value) →
      law.Outcome law.fits session (call f args session)

variable {law} {post : Session → α → Prop} {post' : Session → β → Prop} {start session : Session}

namespace Outcome

/-- What an evaluation leaves, however it ends. -/
theorem last {result : EStateM.Result Unwind Session α} (h : law.Outcome post start result) :
    law.holds (Eval.last result) ∧ law.moves start (Eval.last result) := by
  cases result <;> exact ⟨h.1, h.2.1⟩

/-- An outcome in a later session is one of the earlier session. -/
theorem after (hlaw : law.Kept) {result : EStateM.Result Unwind Session α}
    (hmoves : law.moves start session) (h : law.Outcome post session result) :
    law.Outcome post start result := by
  cases result with
  | ok a last =>
      obtain ⟨hholds, hlast, hpost⟩ := h
      exact ⟨hholds, hlaw.trans hmoves hlast, hpost⟩
  | error unwind last =>
      obtain ⟨hholds, hlast, hreturned⟩ := h
      exact ⟨hholds, hlaw.trans hmoves hlast, hreturned⟩

theorem pure (hlaw : law.Kept) (hholds : law.holds start) {a : α} (ha : post start a) :
    law.Outcome post start ((Pure.pure a : Eval α) start) :=
  ⟨hholds, hlaw.refl hholds, ha⟩

theorem fault (hlaw : law.Kept) (hholds : law.holds start) (fault : Fault) :
    law.Outcome post start ((throw (.fault fault) : Eval α) start) := by
  refine ⟨hholds, hlaw.refl hholds, fun value hreturned => ?_⟩
  cases hreturned

theorem bind (hlaw : law.Kept) {x : Eval α} {f : α → Eval β}
    (hx : law.Outcome post start (x start))
    (hf : ∀ a session, law.holds session → law.moves start session → post session a →
      law.Outcome post' session (f a session)) :
    law.Outcome post' start ((x >>= f) start) := by
  change law.Outcome post' start (EStateM.bind x f start)
  unfold EStateM.bind
  cases hresult : x start with
  | ok a session =>
      rw [hresult] at hx
      obtain ⟨hholds, hmoves, hpost⟩ := hx
      exact (hf a session hholds hmoves hpost).after hlaw hmoves
  | error unwind session =>
      rw [hresult] at hx
      exact hx

theorem ofExcept (hlaw : law.Kept) (hholds : law.holds start) {result : Except Fault α}
    (hok : ∀ a, result = .ok a → post start a) :
    law.Outcome post start (Eval.ofExcept result start) := by
  cases result with
  | ok a => exact pure hlaw hholds (hok a rfl)
  | error reason => exact fault hlaw hholds reason

/-- Steps that keep the law keep it one after the other. -/
theorem foldl (hlaw : law.Kept) (step : Session → α → Session) (as : List α)
    (hholds : law.holds start)
    (hstep : ∀ a ∈ as, ∀ session, law.holds session → law.moves start session →
      law.Outcome (fun _ _ => True) session (.ok () (step session a))) :
    law.Outcome (fun _ _ => True) start (.ok () (as.foldl step start)) := by
  induction as generalizing start with
  | nil => exact ⟨hholds, hlaw.refl hholds, True.intro⟩
  | cons a as ih =>
      have hfirst := hstep a List.mem_cons_self start hholds (hlaw.refl hholds)
      obtain ⟨hnext, hmoves, _⟩ := hfirst
      have hothers := ih hnext fun b hb session hsession hlater =>
        hstep b (List.mem_cons_of_mem a hb) session hsession (hlaw.trans hmoves hlater)
      exact hothers.after hlaw hmoves

end Outcome

variable {call : CallRule}

theorem Kept.null (hlaw : law.Kept) (session : Session) : law.fits session .null :=
  hlaw.fits_plain .null

theorem Kept.getD_null (hlaw : law.Kept) {value? : Option Value}
    (h : ∀ value ∈ value?, law.fits session value) : law.fits session (value?.getD .null) := by
  cases value? with
  | none => exact hlaw.null session
  | some value => exact h value rfl

/-- The value of a name keeps the law. -/
theorem Kept.var (hlaw : law.Kept) (name : String) (hholds : law.holds start) :
    law.Outcome law.fits start (Eval.var name start) := by
  have hobserve := hlaw.observe (.get name (start.store.search start.scope name).hops) hholds
  obtain ⟨hlast, hmoves, _⟩ := hobserve
  unfold Eval.var Session.get
  dsimp only
  cases hvalue : (start.store.search start.scope name).value? with
  | some value => exact ⟨hlast, hmoves, hlaw.fits_mono hmoves (hlaw.found hholds hvalue)⟩
  | none =>
      dsimp only
      cases (start.observe (.get name (start.store.search start.scope name).hops)).natives.get?
        name with
      | some native => exact ⟨hlast, hmoves, hlaw.fits_plain (.native native)⟩
      | none =>
          refine ⟨hlast, hmoves, fun value hreturned => ?_⟩
          cases hreturned

/-- A value at hand among arguments is as they are. -/
theorem Kept.oneOf (hlaw : law.Kept) {args : List Value}
    (hargs : ∀ value ∈ args, law.fits start value) {value : Value} (h : value.OneOf args) :
    law.fits start value := by
  rcases h with hmem | ⟨birth, elements, harray, hmem⟩
  · exact hargs value hmem
  · exact hlaw.fits_element (hargs _ harray) hmem

/-- What the native bodies answer keeps the law. -/
theorem Kept.run (hlaw : law.Kept) (routine : Routine) {args : List Value}
    (hholds : law.holds start) (hargs : ∀ value ∈ args, law.fits start value) :
    law.Outcome law.fits start (routine.run args start) := by
  have hanswers := routine.run_answers args start
  generalize routine.run args start = result at hanswers ⊢
  cases hanswers with
  | wrongArity | unsupported => exact .fault hlaw hholds _
  | plain h => exact .pure hlaw hholds (hlaw.fits_plain h)
  | given h => exact .pure hlaw hholds (hlaw.oneOf hargs h)
  | made h =>
      exact hlaw.makeArray hholds fun element helement => hlaw.oneOf hargs (h element helement)
  | printed =>
      have hprinted := Outcome.foldl hlaw
        (fun session arg => session.print (arg.render ++ "\n")) args hholds
        fun arg _ session hsession _ => hlaw.print (arg.render ++ "\n") hsession
      obtain ⟨hlast, hmoves, _⟩ := hprinted
      exact ⟨hlast, hmoves, hlaw.null _⟩

end Law

section Programs

variable {law : Law} {call : CallRule} {start : Session}

mutual

/-- Evaluating an expression keeps the law, if it binds only what the law allows. -/
theorem Expr.eval_keeps (hlaw : law.Kept) (hcall : law.KeptBy call) :
    ∀ (e : Expr Nat) {start : Session}, (∀ name ∈ e.letNames, law.binds name) →
      law.holds start → law.Outcome law.fits start (e.eval call start)
  | .var name, start, _, hholds => hlaw.var name hholds
  | .lit literal, start, _, hholds =>
      .pure hlaw hholds (hlaw.fits_plain (Value.isPlain_ofLiteral literal))
  | .unary op operand, start, hnames, hholds => by
      have hoperand := Expr.eval_keeps hlaw hcall operand hnames hholds
      refine .bind hlaw hoperand fun value session hholds _ _ => ?_
      exact .ofExcept hlaw hholds fun result hok => hlaw.fits_plain (UnaryOp.apply_isPlain hok)
  | .binary left op right, start, hnames, hholds => by
      have hleft := Expr.eval_keeps hlaw hcall left
        (fun name hname => hnames name (List.mem_append_left _ hname)) hholds
      refine .bind hlaw hleft fun value session hholds _ _ => ?_
      have hright := Expr.eval_keeps hlaw hcall right
        (fun name hname => hnames name (List.mem_append_right _ hname)) hholds
      refine .bind hlaw hright fun value' session hholds _ _ => ?_
      exact .ofExcept hlaw hholds fun result hok => hlaw.fits_plain (BinaryOp.apply_isPlain hok)
  | .cond test yes no, start, hnames, hholds => by
      have htest := Expr.eval_keeps hlaw hcall test
        (fun name hname => hnames name (List.mem_append_left _ hname)) hholds
      have hblocks : ∀ name ∈ Item.letNamesAll yes ++ Item.letNamesElse no, law.binds name :=
        fun name hname => hnames name (List.mem_append_right _ hname)
      refine .bind hlaw htest fun value session hholds _ _ => ?_
      by_cases htruthy : value.truthy
      · rw [if_pos htruthy]
        have hyes := Item.evalAll_keeps hlaw hcall yes none
          (fun name hname => hblocks name (List.mem_append_left _ hname)) hholds (by simp)
        refine .bind hlaw hyes fun last session hholds _ hlast => ?_
        exact .pure hlaw hholds (hlaw.getD_null hlast)
      · rw [if_neg htruthy]
        exact Item.evalElse_keeps hlaw hcall no
          (fun name hname => hblocks name (List.mem_append_right _ hname)) hholds
  | .fn literal params body, start, _, hholds =>
      ⟨hholds, hlaw.refl hholds, hlaw.fits_function literal params body hholds⟩
  | .call callee args, start, hnames, hholds => by
      have hcallee := Expr.eval_keeps hlaw hcall callee
        (fun name hname => hnames name (List.mem_append_left _ hname)) hholds
      refine .bind hlaw hcallee fun value session hholds _ hvalue => ?_
      have hargs := Expr.evalAll_keeps hlaw hcall args
        (fun name hname => hnames name (List.mem_append_right _ hname)) hholds
      cases value with
      | function f =>
          refine .bind hlaw hargs fun values session hholds hmoves hvalues => ?_
          exact hcall session f values hholds (hlaw.fits_mono hmoves hvalue) hvalues
      | native f =>
          refine .bind hlaw hargs fun values session hholds _ hvalues => ?_
          exact hlaw.run f.routine hholds hvalues
      | int | text | bool | null | array | error => exact .fault hlaw hholds _
  | .array elements, start, hnames, hholds => by
      have helements := Expr.evalAll_keeps hlaw hcall elements hnames hholds
      refine .bind hlaw helements fun values session hholds _ hvalues => ?_
      exact hlaw.makeArray hholds hvalues
  | .index base position, start, hnames, hholds => by
      have hbase := Expr.eval_keeps hlaw hcall base
        (fun name hname => hnames name (List.mem_append_left _ hname)) hholds
      refine .bind hlaw hbase fun value session hholds _ hvalue => ?_
      have hposition := Expr.eval_keeps hlaw hcall position
        (fun name hname => hnames name (List.mem_append_right _ hname)) hholds
      refine .bind hlaw hposition fun value' session' hholds hmoves _ => ?_
      refine .ofExcept hlaw hholds fun result hok => ?_
      rcases Value.atIndex_eq_ok hok with rfl | ⟨birth, elements, rfl, helement⟩
      · exact hlaw.null session'
      · exact hlaw.fits_element (hlaw.fits_mono hmoves hvalue) helement

theorem Item.eval_keeps (hlaw : law.Kept) (hcall : law.KeptBy call) :
    ∀ (item : Item Nat) {start : Session}, (∀ name ∈ item.letNames, law.binds name) →
      law.holds start →
        law.Outcome (fun session last => ∀ value ∈ last, law.fits session value) start
          (item.eval call start)
  | .expr e, start, hnames, hholds => by
      have he := Expr.eval_keeps hlaw hcall e hnames hholds
      refine .bind hlaw he fun value session hholds _ hvalue => ?_
      refine .pure hlaw hholds fun last hlast => ?_
      cases hlast
      exact hvalue
  | .bind name init, start, hnames, hholds => by
      have hinit := Expr.eval_keeps hlaw hcall init
        (fun other hother => hnames other (List.mem_cons_of_mem name hother)) hholds
      refine .bind hlaw hinit fun value session hholds _ hvalue => ?_
      have hset := hlaw.set hholds (hnames name List.mem_cons_self) hvalue
      obtain ⟨hholds, hmoves, _⟩ := hset
      exact ⟨hholds, hmoves, by simp⟩
  | .ret e, start, hnames, hholds => by
      have he := Expr.eval_keeps hlaw hcall e hnames hholds
      refine .bind hlaw he fun value session hholds _ hvalue => ?_
      refine ⟨hholds, hlaw.refl hholds, fun returned hreturned => ?_⟩
      cases hreturned
      exact hvalue
  | .block items, start, hnames, hholds =>
      Item.evalAll_keeps hlaw hcall items none hnames hholds (by simp)

theorem Expr.evalAll_keeps (hlaw : law.Kept) (hcall : law.KeptBy call) :
    ∀ (es : List (Expr Nat)) {start : Session}, (∀ name ∈ Expr.letNamesAll es, law.binds name) →
      law.holds start →
        law.Outcome (fun session values => ∀ value ∈ values, law.fits session value) start
          (Expr.evalAll call es start)
  | [], start, _, hholds => .pure hlaw hholds (by simp)
  | e :: es, start, hnames, hholds => by
      have he := Expr.eval_keeps hlaw hcall e
        (fun name hname => hnames name (List.mem_append_left _ hname)) hholds
      refine .bind hlaw he fun value session hholds _ hvalue => ?_
      have hes := Expr.evalAll_keeps hlaw hcall es
        (fun name hname => hnames name (List.mem_append_right _ hname)) hholds
      refine .bind hlaw hes fun values session hholds hmoves hvalues => ?_
      refine .pure hlaw hholds fun other hother => ?_
      rcases List.mem_cons.mp hother with rfl | hother
      · exact hlaw.fits_mono hmoves hvalue
      · exact hvalues other hother

theorem Item.evalAll_keeps (hlaw : law.Kept) (hcall : law.KeptBy call) :
    ∀ (items : List (Item Nat)) (last : Option Value) {start : Session},
      (∀ name ∈ Item.letNamesAll items, law.binds name) → law.holds start →
        (∀ value ∈ last, law.fits start value) →
          law.Outcome (fun session last => ∀ value ∈ last, law.fits session value) start
            (Item.evalAll call last items start)
  | [], last, start, _, hholds, hlast => .pure hlaw hholds hlast
  | item :: items, last, start, hnames, hholds, _ => by
      have hitem := Item.eval_keeps hlaw hcall item
        (fun name hname => hnames name (List.mem_append_left _ hname)) hholds
      refine .bind hlaw hitem fun value session hholds _ hvalue => ?_
      exact Item.evalAll_keeps hlaw hcall items value
        (fun name hname => hnames name (List.mem_append_right _ hname)) hholds hvalue

theorem Item.evalElse_keeps (hlaw : law.Kept) (hcall : law.KeptBy call) :
    ∀ (no : Option (List (Item Nat))) {start : Session},
      (∀ name ∈ Item.letNamesElse no, law.binds name) → law.holds start →
        law.Outcome law.fits start (Item.evalElse call no start)
  | none, start, _, hholds => .pure hlaw hholds (hlaw.null start)
  | some items, start, hnames, hholds => by
      have hitems := Item.evalAll_keeps hlaw hcall items none hnames hholds (by simp)
      refine .bind hlaw hitems fun last session hholds _ hlast => ?_
      exact .pure hlaw hholds (hlaw.getD_null hlast)

end

end Programs

namespace Law

variable {law body : Law} {levels : Nat} {start : Session}

/-- Binding the parameters of a function keeps what its body is to keep. -/
theorem Kept.enter (hbody : body.Kept) (hbinds : ∀ name, body.binds name) {f : Closure}
    {args : List Value} (hopened : body.holds (start.opened f))
    (hargs : ∀ value ∈ args, body.fits (start.opened f) value) :
    body.Outcome (fun _ _ => True) (start.opened f) (.ok () (start.enter f args)) := by
  have hset := Outcome.foldl hbody (fun session arg => session.set arg.1 arg.2)
    (f.params.zip args) hopened fun arg harg session hsession hmoves => by
      have hvalue := hargs arg.2 (List.of_mem_zip harg).2
      exact hbody.set hsession (hbinds arg.1) (hbody.fits_mono hmoves hvalue)
  obtain ⟨hlast, hmoves, _⟩ := hset
  exact (hbody.observe (.call f.params) hlast).after hbody hmoves

/-- Opening the scope of a call leads from a law to that of bodies, in which any name may be
bound, and leaving the scope leads back. -/
structure Opens (law body : Law) : Prop where
  binds (name : String) : body.binds name
  opened {session : Session} {f : Closure} :
    law.holds session → law.fits session (.function f) → body.holds (session.opened f) ∧
      ∀ value, law.fits session value → body.fits (session.opened f) value
  leave {session last : Session} {f : Closure} :
    law.holds session → law.fits session (.function f) → body.holds last →
      body.moves (session.opened f) last →
        law.holds (last.leave session.scope) ∧ law.moves session (last.leave session.scope) ∧
          ∀ value, body.fits last value → law.fits (last.leave session.scope) value

/-- Where no call may be opened, calls only fail. -/
theorem Kept.callWithin_zero (hlaw : law.Kept) : law.KeptBy (callWithin 0) := by
  intro session f args hholds _ _
  by_cases harity : args.length = f.params.length
  · rw [callWithin_zero_of_length_eq harity]
    exact .fault hlaw hholds _
  · rw [callWithin_of_length_ne harity]
    exact .fault hlaw hholds _

/-- Calls keep a law if bodies keep the one that opening a scope leads to. -/
theorem Kept.callWithin_succ (hlaw : law.Kept) (hbody : body.Kept) (hopens : law.Opens body)
    (hcall : body.KeptBy (callWithin levels)) : law.KeptBy (callWithin (levels + 1)) := by
  intro session f args hholds hf hargs
  by_cases harity : args.length = f.params.length
  · rw [callWithin_succ_of_length_eq harity]
    obtain ⟨hopened, hfits⟩ := hopens.opened hholds hf
    have henter := hbody.enter hopens.binds hopened fun value hvalue =>
      hfits value (hargs value hvalue)
    obtain ⟨hentered, hentering, _⟩ := henter
    -- The body may bind any name, since what it binds stays in the scope of the call.
    have hrun := Item.evalAll_keeps hbody hcall f.body none
      (fun name _ => hopens.binds name) hentered (by simp)
    cases hresult : Item.evalAll (callWithin levels) none f.body (session.enter f args) with
    | ok last? last =>
        rw [hresult] at hrun
        obtain ⟨hlast, hran, hlast?⟩ := hrun
        have hback := hopens.leave hholds hf hlast (hbody.trans hentering hran)
        obtain ⟨hend, hmoved, hvalues⟩ := hback
        exact ⟨hend, hmoved, hvalues _ (hbody.getD_null hlast?)⟩
    | error unwind last =>
        rw [hresult] at hrun
        obtain ⟨hlast, hran, hreturned⟩ := hrun
        have hback := hopens.leave hholds hf hlast (hbody.trans hentering hran)
        obtain ⟨hend, hmoved, hvalues⟩ := hback
        cases unwind with
        | returned value => exact ⟨hend, hmoved, hvalues value (hreturned value rfl)⟩
        | fault reason =>
            refine ⟨hend, hmoved, fun value hreturned => ?_⟩
            cases hreturned
  · rw [callWithin_of_length_ne harity]
    exact .fault hlaw hholds _

/-- Calls keep the laws of a family in which each opens another. -/
theorem keptBy_callWithin {Index : Type} {laws : Index → Law} (inner : Index → Index)
    (hkept : ∀ i, (laws i).Kept) (hopens : ∀ i, (laws i).Opens (laws (inner i))) (i : Index)
    (levels : Nat) : (laws i).KeptBy (callWithin levels) := by
  induction levels generalizing i with
  | zero => exact (hkept i).callWithin_zero
  | succ levels ih => exact (hkept i).callWithin_succ (hkept (inner i)) (hopens i) (ih (inner i))

/-- Calling from outside keeps a law that calls keep. -/
theorem Kept.call (hlaw : law.Kept) (hcall : law.KeptBy start.callRule) {callee : Value}
    {args : List Value} (hholds : law.holds start) (hcallee : law.fits start callee)
    (hargs : ∀ value ∈ args, law.fits start value) :
    law.Outcome law.fits start (start.call callee args) := by
  cases callee with
  | function f => exact hcall start f args hholds hcallee hargs
  | native f => exact hlaw.run f.routine hholds hargs
  | int | text | bool | null | array | error => exact .fault hlaw hholds _

/-- Evaluating a program keeps a law that calls keep, if a fault may become a value. -/
theorem Kept.evaluate (hlaw : law.Kept) (hcall : law.KeptBy start.callRule)
    (hfault : ∀ session message, law.fits session (.error message)) (program : Program Nat)
    (hnames : ∀ name ∈ Item.letNamesAll program, law.binds name) (hholds : law.holds start) :
    law.holds (start.evaluate program).2 ∧ law.moves start (start.evaluate program).2 ∧
      ∀ value ∈ (start.evaluate program).1, law.fits (start.evaluate program).2 value := by
  have hrun := Item.evalAll_keeps hlaw hcall program none hnames hholds (by simp)
  unfold Session.evaluate
  generalize Item.evalAll start.callRule none program start = result at hrun ⊢
  cases result with
  | ok last session => exact hrun
  | error unwind session =>
      obtain ⟨hlast, hmoves, hreturned⟩ := hrun
      cases unwind with
      | returned value =>
          refine ⟨hlast, hmoves, fun other hother => ?_⟩
          cases hother
          exact hreturned value rfl
      | fault fault =>
          refine ⟨hlast, hmoves, fun other hother => ?_⟩
          cases hother
          exact hfault session fault.message

end Law

end Scriptlet
