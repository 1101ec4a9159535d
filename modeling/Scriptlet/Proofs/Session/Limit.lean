import Scriptlet.Proofs.Session.Cutting

/-!
# The limit on calls only cuts

A program that finishes without the limit, with no more calls open at once than may be,
comes out the same under the limit. One that ever comes to a call beyond the limit ends at
the first such call, and what it did before stays.
-/

namespace Scriptlet

section First

variable {n spare : Nat}

/-- An evaluation that finishes, with calls to spare, finishes without them or comes to one
call too many. -/
theorem Expr.finishes_within {e : Expr Nat} {start : Session} {outcome : Eval.Outcome Value}
    (h : e.Finishes (n + spare) start outcome) :
    e.Finishes n start outcome ∨ ∃ first, e.Enters 0 n start first := by
  refine (Expr.eval_comes (callWithin_cut n) e start).within fun few hfew => ?_
  have heval := Expr.eval_of_finishes (callWithin_faithful (Nat.le_add_right n spare)) hfew
  exact heval.symm.trans (Expr.eval_of_finishes (callWithin_faithful (Nat.le_refl _)) h)

theorem Expr.finishesAll_within {es : List (Expr Nat)} {start : Session}
    {outcome : Eval.Outcome (List Value)} (h : Expr.FinishesAll (n + spare) es start outcome) :
    Expr.FinishesAll n es start outcome ∨ ∃ first, Expr.EntersAll 0 n es start first := by
  refine (Expr.evalAll_comes (callWithin_cut n) es start).within fun few hfew => ?_
  have heval := Expr.evalAll_of_finishes (callWithin_faithful (Nat.le_add_right n spare)) hfew
  exact heval.symm.trans (Expr.evalAll_of_finishes (callWithin_faithful (Nat.le_refl _)) h)

theorem Item.finishes_within {item : Item Nat} {start : Session}
    {outcome : Eval.Outcome (Option Value)} (h : item.Finishes (n + spare) start outcome) :
    item.Finishes n start outcome ∨ ∃ first, item.Enters 0 n start first := by
  refine (Item.eval_comes (callWithin_cut n) item start).within fun few hfew => ?_
  have heval := Item.eval_of_finishes (callWithin_faithful (Nat.le_add_right n spare)) hfew
  exact heval.symm.trans (Item.eval_of_finishes (callWithin_faithful (Nat.le_refl _)) h)

/-- Whatever call comes to one call too many, some call was the first to. -/
def Closure.EnterFirst (spare n : Nat) : Prop :=
  ∀ {f : Closure} {args : List Value} {start moment : Session},
    f.Enters spare n args start moment → ∃ first, f.Enters 0 n args start first

mutual

/-- If an evaluation comes to one call too many at all, then it does so for a first time,
which may be before the time at hand. -/
theorem Expr.enters_first (hcalls : Closure.EnterFirst spare n) :
    ∀ {e : Expr Nat} {start moment : Session}, e.Enters spare n start moment →
      ∃ first, e.Enters 0 n start first
  | .var _, _, _, h | .lit _, _, _, h | .fn _ _ _, _, _, h => by cases h
  | .unary _ _, _, _, h => by
      cases h with
      | unary hoperand =>
          obtain ⟨first, hfirst⟩ := Expr.enters_first hcalls hoperand
          exact ⟨first, .unary hfirst⟩
  | .binary _ _ _, _, _, h => by
      cases h with
      | left hleft =>
          obtain ⟨first, hfirst⟩ := Expr.enters_first hcalls hleft
          exact ⟨first, .left hfirst⟩
      | right hleft hright =>
          rcases Expr.finishes_within hleft with hleft | ⟨first, hfirst⟩
          · obtain ⟨first, hfirst⟩ := Expr.enters_first hcalls hright
            exact ⟨first, .right hleft hfirst⟩
          · exact ⟨first, .left hfirst⟩
  | .cond _ _ _, _, _, h => by
      cases h with
      | test htest =>
          obtain ⟨first, hfirst⟩ := Expr.enters_first hcalls htest
          exact ⟨first, .test hfirst⟩
      | yes htest htruthy hyes =>
          rcases Expr.finishes_within htest with htest | ⟨first, hfirst⟩
          · obtain ⟨first, hfirst⟩ := Item.entersAll_first hcalls hyes
            exact ⟨first, .yes htest htruthy hfirst⟩
          · exact ⟨first, .test hfirst⟩
      | no htest htruthy hno =>
          rcases Expr.finishes_within htest with htest | ⟨first, hfirst⟩
          · obtain ⟨first, hfirst⟩ := Item.entersAll_first hcalls hno
            exact ⟨first, .no htest htruthy hfirst⟩
          · exact ⟨first, .test hfirst⟩
  | .call _ _, _, _, h => by
      cases h with
      | callee hcallee =>
          obtain ⟨first, hfirst⟩ := Expr.enters_first hcalls hcallee
          exact ⟨first, .callee hfirst⟩
      | args hcallee hvalue hargs =>
          rcases Expr.finishes_within hcallee with hcallee | ⟨first, hfirst⟩
          · obtain ⟨first, hfirst⟩ := Expr.entersAll_first hcalls hargs
            exact ⟨first, .args hcallee hvalue hfirst⟩
          · exact ⟨first, .callee hfirst⟩
      | call hcallee hargs hcall =>
          rcases Expr.finishes_within hcallee with hcallee | ⟨first, hfirst⟩
          · rcases Expr.finishesAll_within hargs with hargs | ⟨first, hfirst⟩
            · obtain ⟨first, hfirst⟩ := hcalls hcall
              exact ⟨first, .call hcallee hargs hfirst⟩
            · exact ⟨first, .args hcallee (.inl rfl) hfirst⟩
          · exact ⟨first, .callee hfirst⟩
  | .array _, _, _, h => by
      cases h with
      | array helements =>
          obtain ⟨first, hfirst⟩ := Expr.entersAll_first hcalls helements
          exact ⟨first, .array hfirst⟩
  | .index _ _, _, _, h => by
      cases h with
      | base hbase =>
          obtain ⟨first, hfirst⟩ := Expr.enters_first hcalls hbase
          exact ⟨first, .base hfirst⟩
      | position hbase hposition =>
          rcases Expr.finishes_within hbase with hbase | ⟨first, hfirst⟩
          · obtain ⟨first, hfirst⟩ := Expr.enters_first hcalls hposition
            exact ⟨first, .position hbase hfirst⟩
          · exact ⟨first, .base hfirst⟩

theorem Item.enters_first (hcalls : Closure.EnterFirst spare n) :
    ∀ {item : Item Nat} {start moment : Session}, item.Enters spare n start moment →
      ∃ first, item.Enters 0 n start first
  | .expr _, _, _, h => by
      cases h with
      | expr he =>
          obtain ⟨first, hfirst⟩ := Expr.enters_first hcalls he
          exact ⟨first, .expr hfirst⟩
  | .bind _ _, _, _, h => by
      cases h with
      | bind hinit =>
          obtain ⟨first, hfirst⟩ := Expr.enters_first hcalls hinit
          exact ⟨first, .bind hfirst⟩
  | .ret _, _, _, h => by
      cases h with
      | ret he =>
          obtain ⟨first, hfirst⟩ := Expr.enters_first hcalls he
          exact ⟨first, .ret hfirst⟩
  | .block _, _, _, h => by
      cases h with
      | block hitems =>
          obtain ⟨first, hfirst⟩ := Item.entersAll_first hcalls hitems
          exact ⟨first, .block hfirst⟩

theorem Expr.entersAll_first (hcalls : Closure.EnterFirst spare n) :
    ∀ {es : List (Expr Nat)} {start moment : Session}, Expr.EntersAll spare n es start moment →
      ∃ first, Expr.EntersAll 0 n es start first
  | [], _, _, h => by cases h
  | _ :: _, _, _, h => by
      cases h with
      | head he =>
          obtain ⟨first, hfirst⟩ := Expr.enters_first hcalls he
          exact ⟨first, .head hfirst⟩
      | tail he hes =>
          rcases Expr.finishes_within he with he | ⟨first, hfirst⟩
          · obtain ⟨first, hfirst⟩ := Expr.entersAll_first hcalls hes
            exact ⟨first, .tail he hfirst⟩
          · exact ⟨first, .head hfirst⟩

theorem Item.entersAll_first (hcalls : Closure.EnterFirst spare n) :
    ∀ {items : List (Item Nat)} {start moment : Session},
      Item.EntersAll spare n items start moment → ∃ first, Item.EntersAll 0 n items start first
  | [], _, _, h => by cases h
  | _ :: _, _, _, h => by
      cases h with
      | head hitem =>
          obtain ⟨first, hfirst⟩ := Item.enters_first hcalls hitem
          exact ⟨first, .head hfirst⟩
      | tail hitem hitems =>
          rcases Item.finishes_within hitem with hitem | ⟨first, hfirst⟩
          · obtain ⟨first, hfirst⟩ := Item.entersAll_first hcalls hitems
            exact ⟨first, .tail hitem hfirst⟩
          · exact ⟨first, .head hfirst⟩

end

theorem Closure.enters_first (spare n : Nat) : Closure.EnterFirst spare n := by
  intro f args start moment h
  induction n generalizing f args start moment with
  | zero =>
      cases h with
      | here harity => exact ⟨start, .here harity⟩
  | succ n ih =>
      cases h with
      | inside harity hbody =>
          obtain ⟨first, hfirst⟩ := Item.entersAll_first ih hbody
          exact ⟨first, .inside harity hfirst⟩

end First

namespace Session

/-- Between runs, a program that finishes without the limit, with no more calls open at once
than may be, has the same value or fault under the limit, and leaves the same session. If
without the limit it ever comes to a call with the right number of arguments while as many
are open as may be, then the limit ends it at the first such call, in the session as it is
at that moment, back in the scope of the program. One of the two is the case. Native
functions run whatever number of calls may be opened, and a wrong number of arguments is
found before the limit. -/
theorem limit_only_cuts {session : Session} (h : session.depth = 0) (program : Program Nat) :
    (∀ n ≤ maxCalls, ∀ value? later,
      Item.FinishesAll n none program session (.ok value? later) →
        session.evaluate program = (value?, later)) ∧
    (∀ n ≤ maxCalls, ∀ value later,
      Item.FinishesAll n none program session (.error (.returned value) later) →
        session.evaluate program = (some value, later)) ∧
    (∀ n ≤ maxCalls, ∀ fault later,
      Item.FinishesAll n none program session (.error (.fault fault) later) →
        session.evaluate program = (some (.error fault.message), later)) ∧
    (∀ spare moment, Item.EntersAll spare maxCalls program session moment →
      ∃ first, Item.EntersAll 0 maxCalls program session first) ∧
    (∀ first, Item.EntersAll 0 maxCalls program session first →
      session.evaluate program =
        (some (.error "stack overflow: more than 4096 nested calls"), first.backTo session)) ∧
    ((∃ outcome, Item.FinishesAll maxCalls none program session outcome) ∨
      ∃ first, Item.EntersAll 0 maxCalls program session first) ∧
    (∀ levels callee args start s s' f values,
      Expr.eval (callWithin levels) callee start = .ok (.native f) s →
        Expr.evalAll (callWithin levels) args s = .ok values s' →
          (Expr.call callee args).eval (callWithin levels) start = f.routine.run values s') ∧
    (∀ levels (f : Closure) (args : List Value) start, args.length ≠ f.params.length →
      callWithin levels f args start =
        .error (.fault (.wrongArity args.length f.params.length)) start) := by
  have hrule : session.callRule = callWithin maxCalls := by rw [callRule, h, Nat.sub_zero]
  have hfinishes {n : Nat} (hn : n ≤ maxCalls) {outcome : Eval.Outcome (Option Value)}
      (hprogram : Item.FinishesAll n none program session outcome) :
      Item.evalAll session.callRule none program session = outcome := by
    rw [hrule]
    exact Item.evalAll_of_finishes (callWithin_faithful hn) hprogram
  refine ⟨fun n hn value? later hprogram => ?_, fun n hn value later hprogram => ?_,
    fun n hn fault later hprogram => ?_,
    fun spare moment => Item.entersAll_first (Closure.enters_first spare maxCalls),
    fun first hprogram => ?_, ?_, fun levels callee args start s s' f values hcallee hargs => ?_,
    fun levels f args start harity => callWithin_of_length_ne harity start⟩
  · rw [evaluate, hfinishes hn hprogram]
  · rw [evaluate, hfinishes hn hprogram]
  · rw [evaluate, hfinishes hn hprogram]
  · rw [evaluate, hrule, Item.evalAll_of_enters (callWithin_overflows maxCalls) hprogram]
    rfl
  · rcases (Item.evalAll_comes (callWithin_cut maxCalls) program none session).either with h | h
    · exact .inl ⟨_, h⟩
    · exact .inr h
  · exact (Eval.bind_of_ok hcallee).trans (Eval.bind_of_ok hargs)

/-- The body of a function that calls its argument with itself. -/
def selfCall : Program Nat := [.expr (.call (.var "f") [.var "f"])]

/-- A name that the current scope bound last has that value. -/
theorem finishes_var {session : Session} {name : String} {value : Value}
    {parent : Option ScopeId} {bindings : List (String × Value)} (n : Nat)
    (hbound : session.store.scopes[session.scope]? = some ⟨parent, (name, value) :: bindings⟩) :
    (Expr.var name).Finishes n session (.ok value (session.observe (.get name 0))) := by
  have hsize : 0 < session.store.size :=
    Nat.zero_lt_of_lt (Array.getElem?_eq_some_iff.mp hbound).1
  obtain ⟨limit, hlimit⟩ := Nat.exists_eq_add_one_of_ne_zero (Nat.ne_of_gt hsize)
  have hfound : session.store.search session.scope name = ⟨some value, 0⟩ := by
    simp [Store.search, hlimit, Store.searchWithin, hbound]
  have heval : Eval.var name session = .ok value (session.observe (.get name 0)) := by
    simp [Eval.var, Session.get, hfound]
  exact heval ▸ .var name

/-- The scope of a call of a function of one parameter. -/
theorem enter_bound (session : Session) {f : Closure} {name : String} (hparams : f.params = [name])
    (value : Value) :
    (session.enter f [value]).store.scopes[(session.enter f [value]).scope]? =
      some ⟨some f.scope, [(name, value)]⟩ := by
  simp only [enter, hparams, List.zip_cons_cons, List.zip_nil_right, List.foldl_cons,
    List.foldl_nil, observe, set]
  simp [Store.scopes_set_getElem?, Store.create, Store.size]

/-- Where the function is bound to its own parameter, its body comes to a call however many
are open. -/
theorem selfCall_enters (n : Nat) {session : Session} {f : Closure} {parent : Option ScopeId}
    {bindings : List (String × Value)} (hparams : f.params = ["f"]) (hbody : f.body = selfCall)
    (hbound : session.store.scopes[session.scope]? =
      some ⟨parent, ("f", .function f) :: bindings⟩) :
    ∃ moment, Item.EntersAll 0 n selfCall session moment := by
  have harity : [Value.function f].length = f.params.length := by
    rw [hparams]
    rfl
  -- The argument is looked up in the same scope, once the function has been found there.
  have hargs (n : Nat) {session : Session} {parent : Option ScopeId}
      {bindings : List (String × Value)} (hbound : session.store.scopes[session.scope]? =
        some ⟨parent, ("f", .function f) :: bindings⟩) :
      Expr.FinishesAll n [.var "f"] (session.observe (.get "f" 0)) (.ok [.function f]
        ((session.observe (.get "f" 0)).observe (.get "f" 0))) := by
    have hobserved : (session.observe (.get "f" 0)).store.scopes[
        (session.observe (.get "f" 0)).scope]? = some ⟨parent, ("f", .function f) :: bindings⟩ :=
      hbound
    exact .cons (finishes_var n hobserved) .nil
  induction n generalizing session parent bindings with
  | zero =>
      exact ⟨_, .head (.expr (.call (finishes_var 0 hbound) (hargs 0 hbound) (.here harity)))⟩
  | succ n ih =>
      obtain ⟨moment, hinside⟩ := ih (enter_bound _ hparams (.function f))
      rw [← hbody] at hinside
      exact ⟨moment, .head (.expr (.call (finishes_var _ hbound) (hargs _ hbound)
        (.inside harity hinside)))⟩

/-- A call is one call open at once, so it finishes; and a function that calls itself
without end is stopped at the limit. -/
theorem limit_only_cuts_selfCall :
    let start := Session.start .standard false
    let single : Program Nat := [.expr (.call (.fn 0 [] []) [])]
    let endless : Program Nat := [.expr (.call (.fn 0 ["f"] selfCall) [.fn 1 ["f"] selfCall])]
    start.depth = 0 ∧
    (∃ later, Item.FinishesAll 1 none single start (.ok (some .null) later) ∧
      start.evaluate single = (some .null, later)) ∧
    (∃ first, Item.EntersAll 0 maxCalls endless start first ∧
      start.evaluate endless =
        (some (.error "stack overflow: more than 4096 nested calls"), first.backTo start)) := by
  intro start single endless
  refine ⟨rfl, ?_, ?_⟩
  · have hbody : Item.FinishesAll 0 none [] (start.enter ⟨0, [], [], start.scope⟩ [])
        (.ok none (start.enter ⟨0, [], [], start.scope⟩ [])) := .nil
    have hsingle : Item.FinishesAll 1 none single start (.ok (some .null) _) :=
      .cons (.expr (.callFunction (.fn 0 [] []) .nil (.call rfl hbody))) .nil
    exact ⟨_, hsingle, (limit_only_cuts rfl single).1 1 (by decide) _ _ hsingle⟩
  · let outer : Closure := ⟨0, ["f"], selfCall, start.scope⟩
    let inner : Closure := ⟨1, ["f"], selfCall, start.scope⟩
    have hbound := enter_bound start (show outer.params = ["f"] from rfl) (.function inner)
    obtain ⟨first, hfirst⟩ := selfCall_enters (maxCalls - 1) rfl rfl hbound
    have hendless : Item.EntersAll 0 maxCalls endless start first :=
      .head (.expr (.call (.fn 0 ["f"] selfCall) (.cons (.fn 1 ["f"] selfCall) .nil)
        (.inside rfl hfirst)))
    exact ⟨first, hendless, (limit_only_cuts rfl endless).2.2.2.2.1 first hendless⟩

end Session

end Scriptlet
