import Scriptlet.Proofs.Session.Machine
import Scriptlet.Proofs.Session.WellFormed

/-!
# The machine comes to what evaluation yields

From every well-formed session the machine arrives at the outcome of the evaluation: a
value for the frames that wait, or a fault or a return on its way through them. The
calls that may still be opened are counted down by the evaluation and counted up by the
session; together they are always the limit. Look-ups end because parents are older than
their children.
-/

namespace Scriptlet.Machine

variable {α β : Type}

/-- The machine comes to the outcome of an evaluation, whatever waits for it. -/
def Simulates (x : Eval α) (control : Control) (out : α → Control) (start : Session) : Prop :=
  ∀ frames, Reaches withinLimit ⟨control, frames, start⟩ (.ofResult out frames (x start))

/-- An evaluation whose first part waits in a frame. -/
theorem Simulates.bind {x : Eval α} {f : α → Eval β} {control : Control} {out : α → Control}
    {out' : β → Control} {start : Session} (hx : Simulates x control out start) {law : Law}
    {post : Session → α → Prop} (hkeeps : law.Outcome post start (x start)) (frame : Frame)
    (hframe : frame.isCaller = false) {frames : List Frame}
    (hf : ∀ a session, law.holds session → law.moves start session → post session a →
      Reaches withinLimit ⟨out a, frame :: frames, session⟩ (.ofResult out' frames (f a session))) :
    Reaches withinLimit ⟨control, frame :: frames, start⟩
      (.ofResult out' frames ((x >>= f) start)) := by
  change Reaches withinLimit _ (.ofResult out' frames (EStateM.bind x f start))
  have hfirst := hx (frame :: frames)
  unfold EStateM.bind
  cases hresult : x start with
  | ok a session =>
      rw [hresult] at hfirst hkeeps
      obtain ⟨hholds, hmoves, hpost⟩ := hkeeps
      exact hfirst.trans (hf a session hholds hmoves hpost)
  | error unwind session =>
      -- The frame is no call, so it is dropped and stops nothing.
      rw [hresult] at hfirst
      refine hfirst.trans (.of_step ?_)
      cases frame with
      | caller scope => cases hframe
      | _ => rfl

section Lookups

variable {session : Session} {name : String}

/-- A search that is cut off only below the oldest scope is not cut off. -/
theorem reaches_lookup (h : session.WellFormed) (name : String) (limit : Nat) {id : ScopeId}
    (hid : id < limit) (hops : Nat) (frames : List Frame) :
    Reaches withinLimit ⟨.lookup name id hops, frames, session⟩
      (match (session.store.searchWithin name limit id).value? with
      | some value => ⟨.value value, frames, session.observe
          (.get name (hops + (session.store.searchWithin name limit id).hops))⟩
      | none => unbound name (hops + (session.store.searchWithin name limit id).hops) frames
          session) := by
  induction limit generalizing id hops with
  | zero => cases hid
  | succ limit ih =>
      have hstep : step withinLimit ⟨.lookup name id hops, frames, session⟩ =
          some (lookup name id hops frames session) := rfl
      unfold Store.searchWithin
      unfold lookup at hstep
      cases hscope : session.store.scopes[id]? with
      | none =>
          rw [hscope] at hstep
          exact .of_step hstep
      | some scope =>
          rw [hscope] at hstep
          dsimp only at hstep ⊢
          cases hlookup : scope.bindings.lookup name with
          | some value =>
              rw [hlookup] at hstep
              exact .of_step hstep
          | none =>
              rw [hlookup] at hstep
              cases hparent : scope.parent with
              | none =>
                  rw [hparent] at hstep
                  exact .of_step hstep
              | some parent =>
                  rw [hparent] at hstep
                  -- The parent is older, so one look-up less is enough for it.
                  have holder : parent < id := h.parent hscope hparent
                  have hrest := ih (Nat.lt_of_lt_of_le holder (Nat.le_of_lt_succ hid)) (hops + 1)
                  rw [Nat.add_right_comm] at hrest
                  exact Reaches.head hstep hrest

theorem simulates_var (h : session.WellFormed) :
    Simulates (Eval.var name) (.expr (.var name)) .value session := by
  intro frames
  have hlookup := reaches_lookup h name session.store.size h.scope 0 frames
  refine Reaches.head rfl ?_
  unfold Eval.var Session.get Store.search
  simp only [Nat.zero_add] at hlookup
  dsimp only
  cases hvalue : (session.store.searchWithin name session.store.size session.scope).value? with
  | some value =>
      rw [hvalue] at hlookup
      exact hlookup
  | none =>
      rw [hvalue] at hlookup
      dsimp only at hlookup ⊢
      unfold unbound at hlookup
      dsimp only at hlookup
      generalize (session.observe _) = observed at hlookup ⊢
      cases hnative : observed.natives.get? name with
      | some native =>
          rw [hnative] at hlookup
          exact hlookup
      | none =>
          rw [hnative] at hlookup
          exact hlookup

end Lookups

/-- The machine comes to the outcome of every call. -/
def SimulatesCalls (depth : Nat) (rule : CallRule) : Prop :=
  ∀ (session : Session) (f : Closure) (args : List Value), (Law.wellFormed depth).holds session →
    (Law.wellFormed depth).fits session (.function f) →
      (∀ value ∈ args, (Law.wellFormed depth).fits session value) →
        Simulates (rule f args) (.call f args) .value session

section Programs

variable {depth : Nat} {rule : CallRule}

mutual

theorem simulates_expr (hkept : (Law.wellFormed depth).KeptBy rule)
    (hcalls : SimulatesCalls depth rule) :
    ∀ (e : Expr Nat) {start : Session}, (Law.wellFormed depth).holds start →
      Simulates (e.eval rule) (.expr e) .value start
  | .var name, start, hholds => simulates_var hholds.1
  | .lit literal, start, _ => fun frames => .of_step rfl
  | .unary op operand, start, hholds => by
      intro frames
      have hoperand := simulates_expr hkept hcalls operand hholds
      have hkeeps := operand.eval_wellFormed hkept hholds
      refine Reaches.head rfl (hoperand.bind hkeeps (.unary op) rfl ?_)
      intro value session _ _ _
      exact .of_step rfl
  | .binary left op right, start, hholds => by
      intro frames
      have hleft := simulates_expr hkept hcalls left hholds
      have hkeeps := left.eval_wellFormed hkept hholds
      refine Reaches.head rfl (hleft.bind hkeeps (.right op right) rfl ?_)
      intro value session hsession _ _
      have hright := simulates_expr hkept hcalls right hsession
      have hkeeps' := right.eval_wellFormed hkept hsession
      refine Reaches.head rfl (hright.bind hkeeps' (.binary value op) rfl ?_)
      intro value' session' _ _ _
      exact .of_step rfl
  | .cond test yes no, start, hholds => by
      intro frames
      have htest := simulates_expr hkept hcalls test hholds
      have hkeeps := test.eval_wellFormed hkept hholds
      refine Reaches.head rfl (htest.bind hkeeps (.choice yes no) rfl ?_)
      intro value session hsession _ _
      by_cases htruthy : value.truthy
      · have hstep : step withinLimit ⟨.value value, .choice yes no :: frames, session⟩ =
            some ⟨.items none yes, .branch :: frames, session⟩ := if_pos htruthy
        have hyes := simulates_items hkept hcalls yes none hsession
        have hkeeps' := Item.evalAll_wellFormed hkept yes hsession
        rw [if_pos htruthy]
        refine Reaches.head hstep (hyes.bind hkeeps' .branch rfl ?_)
        intro last session' _ _ _
        exact .of_step rfl
      · rw [if_neg htruthy]
        exact reaches_else hkept hcalls no hsession htruthy frames
  | .fn literal params body, start, _ => fun frames => .of_step rfl
  | .call callee args, start, hholds => by
      intro frames
      have hcallee := simulates_expr hkept hcalls callee hholds
      have hkeeps := callee.eval_wellFormed hkept hholds
      refine Reaches.head rfl (hcallee.bind hkeeps (.arguments args) rfl ?_)
      intro value session hsession _ hvalue
      have hargs := simulates_exprs hkept hcalls args hsession
      have hkeeps' := Expr.evalAll_wellFormed hkept args hsession
      cases value with
      | function f =>
          refine Reaches.head rfl (hargs.bind hkeeps' (.function f) rfl ?_)
          intro values session' hsession' hmoves hvalues
          have hf := (Law.wellFormed_kept depth).fits_mono hmoves hvalue
          exact Reaches.head rfl (hcalls session' f values hsession' hf hvalues frames)
      | native f =>
          refine Reaches.head rfl (hargs.bind hkeeps' (.native f) rfl ?_)
          intro values session' _ _ _
          exact .of_step rfl
      | int | text | bool | null | array | error => exact .of_step rfl
  | .array elements, start, hholds => by
      intro frames
      have helements := simulates_exprs hkept hcalls elements hholds
      have hkeeps := Expr.evalAll_wellFormed hkept elements hholds
      refine Reaches.head rfl (helements.bind hkeeps .array rfl ?_)
      intro values session _ _ _
      exact .of_step rfl
  | .index base position, start, hholds => by
      intro frames
      have hbase := simulates_expr hkept hcalls base hholds
      have hkeeps := base.eval_wellFormed hkept hholds
      refine Reaches.head rfl (hbase.bind hkeeps (.position position) rfl ?_)
      intro value session hsession _ _
      have hposition := simulates_expr hkept hcalls position hsession
      have hkeeps' := position.eval_wellFormed hkept hsession
      refine Reaches.head rfl (hposition.bind hkeeps' (.index value) rfl ?_)
      intro value' session' _ _ _
      exact .of_step rfl

theorem simulates_item (hkept : (Law.wellFormed depth).KeptBy rule)
    (hcalls : SimulatesCalls depth rule) :
    ∀ (item : Item Nat) {start : Session}, (Law.wellFormed depth).holds start →
      Simulates (item.eval rule) (.item item) .ended start
  | .expr e, start, hholds => by
      intro frames
      have he := simulates_expr hkept hcalls e hholds
      have hkeeps := e.eval_wellFormed hkept hholds
      refine Reaches.head rfl (he.bind hkeeps .statement rfl ?_)
      intro value session _ _ _
      exact .of_step rfl
  | .bind name init, start, hholds => by
      intro frames
      have hinit := simulates_expr hkept hcalls init hholds
      have hkeeps := init.eval_wellFormed hkept hholds
      refine Reaches.head rfl (hinit.bind hkeeps (.bind name) rfl ?_)
      intro value session _ _ _
      exact .of_step rfl
  | .ret e, start, hholds => by
      intro frames
      have he := simulates_expr hkept hcalls e hholds
      have hkeeps := e.eval_wellFormed hkept hholds
      refine Reaches.head rfl (he.bind hkeeps .ret rfl ?_)
      intro value session _ _ _
      exact .of_step rfl
  | .block items, start, hholds => by
      intro frames
      have hitems := simulates_items hkept hcalls items none hholds
      exact Reaches.head rfl (hitems frames)

theorem simulates_exprs (hkept : (Law.wellFormed depth).KeptBy rule)
    (hcalls : SimulatesCalls depth rule) :
    ∀ (es : List (Expr Nat)) {start : Session}, (Law.wellFormed depth).holds start →
      Simulates (Expr.evalAll rule es) (.exprs es) .values start
  | [], start, _ => fun frames => .of_step rfl
  | e :: es, start, hholds => by
      intro frames
      have he := simulates_expr hkept hcalls e hholds
      have hkeeps := e.eval_wellFormed hkept hholds
      refine Reaches.head rfl (he.bind hkeeps (.others es) rfl ?_)
      intro value session hsession _ _
      have hes := simulates_exprs hkept hcalls es hsession
      have hkeeps' := Expr.evalAll_wellFormed hkept es hsession
      refine Reaches.head rfl (hes.bind hkeeps' (.cons value) rfl ?_)
      intro values session' _ _ _
      exact .of_step rfl

theorem simulates_items (hkept : (Law.wellFormed depth).KeptBy rule)
    (hcalls : SimulatesCalls depth rule) :
    ∀ (items : List (Item Nat)) (last : Option Value) {start : Session},
      (Law.wellFormed depth).holds start →
        Simulates (Item.evalAll rule last items) (.items last items) .ended start
  | [], last, start, _ => fun frames => .of_step rfl
  | item :: items, last, start, hholds => by
      intro frames
      have hitem := simulates_item hkept hcalls item hholds
      have hkeeps := item.eval_wellFormed hkept hholds
      refine Reaches.head rfl (hitem.bind hkeeps (.items items) rfl ?_)
      intro value session hsession _ _
      have hitems := simulates_items hkept hcalls items value hsession
      exact Reaches.head rfl (hitems frames)

theorem reaches_else (hkept : (Law.wellFormed depth).KeptBy rule)
    (hcalls : SimulatesCalls depth rule) :
    ∀ (no : Option (List (Item Nat))) {start : Session} {value : Value}
      {yes : List (Item Nat)}, (Law.wellFormed depth).holds start → ¬value.truthy →
        ∀ frames, Reaches withinLimit ⟨.value value, .choice yes no :: frames, start⟩
          (.ofResult .value frames (Item.evalElse rule no start))
  | none, start, value, yes, _, htruthy => fun frames => .of_step (if_neg htruthy)
  | some items, start, value, yes, hholds, htruthy => by
      intro frames
      have hstep : step withinLimit ⟨.value value, .choice yes (some items) :: frames, start⟩ =
          some ⟨.items none items, .branch :: frames, start⟩ := if_neg htruthy
      have hitems := simulates_items hkept hcalls items none hholds
      have hkeeps := Item.evalAll_wellFormed hkept items hholds
      refine Reaches.head hstep (hitems.bind hkeeps .branch rfl ?_)
      intro last session _ _ _
      exact .of_step rfl

end

end Programs

/-- The calls in progress and those that may still be opened are the limit together. -/
theorem simulates_calls {depth levels : Nat} (hlimit : depth + levels = maxCalls) :
    SimulatesCalls depth (callWithin levels) := by
  induction levels generalizing depth with
  | zero =>
      intro session f args hholds _ _ frames
      -- No call may be opened any more: the session has reached the limit.
      have hfull : withinLimit session.depth = false := by
        rw [hholds.2]
        exact decide_eq_false (Nat.not_lt_of_le (Nat.le_of_eq hlimit.symm))
      by_cases harity : args.length = f.params.length
      · rw [callWithin_zero_of_length_eq harity]
        exact .of_step (congrArg some (call_of_full harity hfull))
      · rw [callWithin_of_length_ne harity]
        exact .of_step (congrArg some (call_of_length_ne harity))
  | succ levels ih =>
      intro session f args hholds hf hargs frames
      have hopen : withinLimit session.depth = true := by
        rw [hholds.2]
        exact decide_eq_true (by omega)
      by_cases harity : args.length = f.params.length
      · rw [callWithin_succ_of_length_eq harity]
        have hopened : (Law.wellFormed (depth + 1)).holds (session.opened f) :=
          ⟨hholds.1.opened hf.of_function, congrArg (· + 1) hholds.2⟩
        have hargs' : ∀ value ∈ args, (Law.wellFormed (depth + 1)).fits (session.opened f) value :=
          fun value hvalue => (hargs value hvalue).mono (session.size_opened f)
        have henter := (Law.wellFormed_kept (depth + 1)).enter (fun _ => True.intro) hopened hargs'
        have hdeeper : SimulatesCalls (depth + 1) (callWithin levels) := ih (by omega)
        have hbody := simulates_items (Law.wellFormed_keptBy (depth + 1) levels) hdeeper f.body none
          henter.1
        have hrun := hbody (.caller session.scope :: frames)
        refine Reaches.head (congrArg some (call_of_open harity hopen)) (hrun.trans ?_)
        -- The frame of the call catches whatever the body comes to.
        cases Item.evalAll (callWithin levels) none f.body (session.enter f args) with
        | ok last session' => exact .of_step rfl
        | error unwind session' => cases unwind <;> exact .of_step rfl
      · rw [callWithin_of_length_ne harity]
        exact .of_step (congrArg some (call_of_length_ne harity))

end Scriptlet.Machine
