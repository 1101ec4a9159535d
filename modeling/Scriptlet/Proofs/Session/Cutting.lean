import Scriptlet.Proofs.Session.Bracketing
import Scriptlet.Proofs.Session.Unlimited

/-!
# Evaluation under a limit on calls

With so many calls that may be opened, an evaluation that finishes without the limit, and
with no more calls open at once, comes out the same. One that comes to one call too many
ends there. There is no third way. Each of the three facts is shown for programs from the
same fact about calls, and for calls by induction on how many may be opened.
-/

namespace Scriptlet

namespace Eval

variable {α β : Type} {x : Eval α} {f : α → Eval β} {start session : Session}

theorem bind_of_ok {a : α} (h : x start = .ok a session) : (x >>= f) start = f a session := by
  change EStateM.bind x f start = _
  rw [EStateM.bind, h]

theorem bind_of_error {unwind : Unwind} (h : x start = .error unwind session) :
    (x >>= f) start = .error unwind session := by
  change EStateM.bind x f start = _
  rw [EStateM.bind, h]

/-- To pass a result on through a function is to change the outcome by it. -/
theorem bind_pure (f : α → β) {outcome : Outcome α} (h : x start = outcome) :
    (x >>= fun a => pure (f a)) start = outcome.map f := by
  cases outcome with
  | ok a session => exact bind_of_ok h
  | error unwind session => exact bind_of_error h

end Eval

/-- A call that finishes with so many calls open comes out as the rules say. -/
def CallRule.Faithful (n : Nat) (call : CallRule) : Prop :=
  ∀ {f : Closure} {args : List Value} {start : Session} {outcome : Eval.Outcome Value},
    f.Finishes n args start outcome → call f args start = outcome

section Finishing

variable {n : Nat} {call : CallRule}

mutual

/-- An evaluation that finishes comes out as the rules say, if calls do. -/
theorem Expr.eval_of_finishes (hcalls : call.Faithful n) :
    ∀ {e : Expr Nat} {start : Session} {outcome : Eval.Outcome Value},
      e.Finishes n start outcome → e.eval call start = outcome
  | .var _, _, _, h => by
      cases h
      rfl
  | .lit _, _, _, h => by
      cases h
      rfl
  | .fn _ _ _, _, _, h => by
      cases h
      rfl
  | .unary _ _, _, _, h => by
      cases h with
      | unary hoperand => exact Eval.bind_of_ok (Expr.eval_of_finishes hcalls hoperand)
      | unaryStops hoperand => exact Eval.bind_of_error (Expr.eval_of_finishes hcalls hoperand)
  | .binary _ _ _, _, _, h => by
      cases h with
      | binary hleft hright =>
          exact (Eval.bind_of_ok (Expr.eval_of_finishes hcalls hleft)).trans
            (Eval.bind_of_ok (Expr.eval_of_finishes hcalls hright))
      | leftStops hleft => exact Eval.bind_of_error (Expr.eval_of_finishes hcalls hleft)
      | rightStops hleft hright =>
          exact (Eval.bind_of_ok (Expr.eval_of_finishes hcalls hleft)).trans
            (Eval.bind_of_error (Expr.eval_of_finishes hcalls hright))
  | .cond _ _ _, _, _, h => by
      cases h with
      | yes htest htruthy hyes =>
          refine (Eval.bind_of_ok (Expr.eval_of_finishes hcalls htest)).trans ?_
          rw [if_pos htruthy]
          exact Eval.bind_pure _ (Item.evalAll_of_finishes hcalls hyes)
      | no htest htruthy hno =>
          refine (Eval.bind_of_ok (Expr.eval_of_finishes hcalls htest)).trans ?_
          rw [if_neg (by simp [htruthy])]
          exact Item.evalElse_of_finishes hcalls hno
      | testStops htest => exact Eval.bind_of_error (Expr.eval_of_finishes hcalls htest)
  | .call _ _, _, _, h => by
      cases h with
      | callFunction hcallee hargs hcall =>
          refine (Eval.bind_of_ok (Expr.eval_of_finishes hcalls hcallee)).trans ?_
          exact (Eval.bind_of_ok (Expr.evalAll_of_finishes hcalls hargs)).trans (hcalls hcall)
      | callNative hcallee hargs =>
          refine (Eval.bind_of_ok (Expr.eval_of_finishes hcalls hcallee)).trans ?_
          exact Eval.bind_of_ok (Expr.evalAll_of_finishes hcalls hargs)
      | @notCallable _ _ _ _ _ value hcallee hvalue =>
          refine (Eval.bind_of_ok (Expr.eval_of_finishes hcalls hcallee)).trans ?_
          cases value with
          | function => exact absurd (.inl rfl) hvalue
          | native => exact absurd (.inr rfl) hvalue
          | int | text | bool | null | array | error => rfl
      | calleeStops hcallee => exact Eval.bind_of_error (Expr.eval_of_finishes hcalls hcallee)
      | @argsStop _ _ _ _ _ _ value _ hcallee hvalue hargs =>
          refine (Eval.bind_of_ok (Expr.eval_of_finishes hcalls hcallee)).trans ?_
          have hstop := Expr.evalAll_of_finishes hcalls hargs
          cases value with
          | function => exact Eval.bind_of_error hstop
          | native => exact Eval.bind_of_error hstop
          | int | text | bool | null | array | error =>
              simp [Value.IsCallable, Value.kind] at hvalue
  | .array _, _, _, h => by
      cases h with
      | array helements => exact Eval.bind_of_ok (Expr.evalAll_of_finishes hcalls helements)
      | elementsStop helements =>
          exact Eval.bind_of_error (Expr.evalAll_of_finishes hcalls helements)
  | .index _ _, _, _, h => by
      cases h with
      | index hbase hposition =>
          exact (Eval.bind_of_ok (Expr.eval_of_finishes hcalls hbase)).trans
            (Eval.bind_of_ok (Expr.eval_of_finishes hcalls hposition))
      | baseStops hbase => exact Eval.bind_of_error (Expr.eval_of_finishes hcalls hbase)
      | positionStops hbase hposition =>
          exact (Eval.bind_of_ok (Expr.eval_of_finishes hcalls hbase)).trans
            (Eval.bind_of_error (Expr.eval_of_finishes hcalls hposition))

theorem Item.eval_of_finishes (hcalls : call.Faithful n) :
    ∀ {item : Item Nat} {start : Session} {outcome : Eval.Outcome (Option Value)},
      item.Finishes n start outcome → item.eval call start = outcome
  | .expr _, _, _, h => by
      cases h with
      | expr he => exact Eval.bind_pure some (Expr.eval_of_finishes hcalls he)
  | .bind _ _, _, _, h => by
      cases h with
      | bind hinit => exact Eval.bind_of_ok (Expr.eval_of_finishes hcalls hinit)
      | bindStops hinit => exact Eval.bind_of_error (Expr.eval_of_finishes hcalls hinit)
  | .ret _, _, _, h => by
      cases h with
      | ret he => exact Eval.bind_of_ok (Expr.eval_of_finishes hcalls he)
      | retStops he => exact Eval.bind_of_error (Expr.eval_of_finishes hcalls he)
  | .block _, _, _, h => by
      cases h with
      | block hitems => exact Item.evalAll_of_finishes hcalls hitems

theorem Expr.evalAll_of_finishes (hcalls : call.Faithful n) :
    ∀ {es : List (Expr Nat)} {start : Session} {outcome : Eval.Outcome (List Value)},
      Expr.FinishesAll n es start outcome → Expr.evalAll call es start = outcome
  | [], _, _, h => by
      cases h
      rfl
  | _ :: _, _, _, h => by
      cases h with
      | @cons _ _ _ _ _ value _ he hes =>
          refine (Eval.bind_of_ok (Expr.eval_of_finishes hcalls he)).trans ?_
          exact Eval.bind_pure (value :: ·) (Expr.evalAll_of_finishes hcalls hes)
      | stops he => exact Eval.bind_of_error (Expr.eval_of_finishes hcalls he)

theorem Item.evalAll_of_finishes (hcalls : call.Faithful n) :
    ∀ {items : List (Item Nat)} {last : Option Value} {start : Session}
      {outcome : Eval.Outcome (Option Value)},
      Item.FinishesAll n last items start outcome → Item.evalAll call last items start = outcome
  | [], _, _, _, h => by
      cases h
      rfl
  | _ :: _, _, _, _, h => by
      cases h with
      | cons hitem hitems =>
          exact (Eval.bind_of_ok (Item.eval_of_finishes hcalls hitem)).trans
            (Item.evalAll_of_finishes hcalls hitems)
      | stops hitem => exact Eval.bind_of_error (Item.eval_of_finishes hcalls hitem)

theorem Item.evalElse_of_finishes (hcalls : call.Faithful n) :
    ∀ {no : Option (List (Item Nat))} {start : Session} {outcome : Eval.Outcome Value},
      Item.FinishesElse n no start outcome → Item.evalElse call no start = outcome
  | none, _, _, h => by
      cases h
      rfl
  | some _, _, _, h => by
      cases h with
      | some hitems => exact Eval.bind_pure _ (Item.evalAll_of_finishes hcalls hitems)

end

end Finishing

/-- Calls that finish come out the same when as many may be opened, or more. -/
theorem callWithin_faithful {n levels : Nat} (hlevels : n ≤ levels) :
    CallRule.Faithful n (callWithin levels) := by
  intro f args start outcome h
  induction n generalizing levels f args start outcome with
  | zero =>
      cases h with
      | wrongArity harity => exact callWithin_of_length_ne harity start
  | succ n ih =>
      cases h with
      | wrongArity harity => exact callWithin_of_length_ne harity start
      | call harity hbody =>
          obtain ⟨levels, rfl⟩ := Nat.exists_eq_add_of_lt hlevels
          rw [callWithin_succ_of_length_eq harity]
          rw [Item.evalAll_of_finishes (ih (Nat.le_add_right n levels)) hbody]

/-- A moment of an evaluation, back in the scope where the evaluation started. -/
def Session.backTo (moment start : Session) : Session :=
  { moment with scope := start.scope, depth := start.depth }

theorem Session.Restores.backTo_eq {start session : Session} (h : start.Restores session)
    (moment : Session) : moment.backTo session = moment.backTo start := by
  rw [backTo, backTo, h.1, h.2]

/-- How an evaluation comes out that opens one call too many. -/
def Eval.overflow {α : Type} (moment start : Session) : Eval.Outcome α :=
  .error (.fault .tooManyCalls) (moment.backTo start)

/-- What comes first has a result and leaves scope and depth as they were. -/
theorem Eval.overflow_after {α β : Type} {x : Eval α} {f : α → Eval β} {start s moment : Session}
    {a : α} (hx : x start = .ok a s ∧ start.Restores s)
    (hf : f a s = Eval.overflow moment s) : (x >>= f) start = Eval.overflow moment start := by
  rw [Eval.bind_of_ok hx.1, hf, Eval.overflow, hx.2.backTo_eq]
  rfl

section Overflowing

variable {n : Nat}

/-- A call that comes to one call too many ends there. -/
def CallRule.Overflows (n : Nat) (call : CallRule) : Prop :=
  ∀ {f : Closure} {args : List Value} {start moment : Session},
    f.Enters 0 n args start moment → call f args start = Eval.overflow moment start

/-- A confined evaluation leaves scope and depth as they were. -/
theorem Eval.ran {α : Type} {binds : String → Prop} {x : Eval α} {start s : Session} {a : α}
    (hx : x start = .ok a s) (hconfined : start.Confined binds (Eval.last (x start))) :
    x start = .ok a s ∧ start.Restores s := by
  have hrestores := hconfined.restores
  rw [hx] at hrestores
  exact ⟨hx, hrestores⟩

/-- A finished evaluation has its result when as many calls may be opened. -/
theorem Expr.eval_ran {e : Expr Nat} {start s : Session} {value : Value}
    (h : e.Finishes n start (.ok value s)) :
    e.eval (callWithin n) start = .ok value s ∧ start.Restores s :=
  Eval.ran (Expr.eval_of_finishes (callWithin_faithful (Nat.le_refl n)) h)
    (Expr.eval_confined n start e)

theorem Expr.evalAll_ran {es : List (Expr Nat)} {start s : Session} {values : List Value}
    (h : Expr.FinishesAll n es start (.ok values s)) :
    Expr.evalAll (callWithin n) es start = .ok values s ∧ start.Restores s :=
  Eval.ran (Expr.evalAll_of_finishes (callWithin_faithful (Nat.le_refl n)) h)
    (Expr.evalAll_confined n start es)

theorem Item.eval_ran {item : Item Nat} {start s : Session} {value? : Option Value}
    (h : item.Finishes n start (.ok value? s)) :
    item.eval (callWithin n) start = .ok value? s ∧ start.Restores s :=
  Eval.ran (Item.eval_of_finishes (callWithin_faithful (Nat.le_refl n)) h)
    (Item.eval_confined n start item)

mutual

/-- An evaluation that comes to one call too many ends there, if calls do. -/
theorem Expr.eval_of_enters (hcalls : CallRule.Overflows n (callWithin n)) :
    ∀ {e : Expr Nat} {start moment : Session}, e.Enters 0 n start moment →
      e.eval (callWithin n) start = Eval.overflow moment start
  | .var _, _, _, h | .lit _, _, _, h | .fn _ _ _, _, _, h => by cases h
  | .unary _ _, _, _, h => by
      cases h with
      | unary hoperand => exact Eval.bind_of_error (Expr.eval_of_enters hcalls hoperand)
  | .binary _ _ _, _, _, h => by
      cases h with
      | left hleft => exact Eval.bind_of_error (Expr.eval_of_enters hcalls hleft)
      | right hleft hright =>
          refine Eval.overflow_after (Expr.eval_ran hleft) ?_
          exact Eval.bind_of_error (Expr.eval_of_enters hcalls hright)
  | .cond _ _ _, _, _, h => by
      cases h with
      | test htest => exact Eval.bind_of_error (Expr.eval_of_enters hcalls htest)
      | yes htest htruthy hyes =>
          refine Eval.overflow_after (Expr.eval_ran htest) ?_
          rw [if_pos htruthy]
          exact Eval.bind_of_error (Item.evalAll_of_enters hcalls hyes)
      | no htest htruthy hno =>
          refine Eval.overflow_after (Expr.eval_ran htest) ?_
          rw [if_neg (by simp [htruthy])]
          exact Eval.bind_of_error (Item.evalAll_of_enters hcalls hno)
  | .call _ _, _, _, h => by
      cases h with
      | callee hcallee => exact Eval.bind_of_error (Expr.eval_of_enters hcalls hcallee)
      | @args _ _ _ _ _ _ value hcallee hvalue hargs =>
          refine Eval.overflow_after (Expr.eval_ran hcallee) ?_
          have hoverflow := Expr.evalAll_of_enters hcalls hargs
          cases value with
          | function => exact Eval.bind_of_error hoverflow
          | native => exact Eval.bind_of_error hoverflow
          | int | text | bool | null | array | error =>
              simp [Value.IsCallable, Value.kind] at hvalue
      | call hcallee hargs hcall =>
          refine Eval.overflow_after (Expr.eval_ran hcallee) ?_
          exact Eval.overflow_after (Expr.evalAll_ran hargs) (hcalls hcall)
  | .array _, _, _, h => by
      cases h with
      | array helements => exact Eval.bind_of_error (Expr.evalAll_of_enters hcalls helements)
  | .index _ _, _, _, h => by
      cases h with
      | base hbase => exact Eval.bind_of_error (Expr.eval_of_enters hcalls hbase)
      | position hbase hposition =>
          refine Eval.overflow_after (Expr.eval_ran hbase) ?_
          exact Eval.bind_of_error (Expr.eval_of_enters hcalls hposition)

theorem Item.eval_of_enters (hcalls : CallRule.Overflows n (callWithin n)) :
    ∀ {item : Item Nat} {start moment : Session}, item.Enters 0 n start moment →
      item.eval (callWithin n) start = Eval.overflow moment start
  | .expr _, _, _, h => by
      cases h with
      | expr he => exact Eval.bind_of_error (Expr.eval_of_enters hcalls he)
  | .bind _ _, _, _, h => by
      cases h with
      | bind hinit => exact Eval.bind_of_error (Expr.eval_of_enters hcalls hinit)
  | .ret _, _, _, h => by
      cases h with
      | ret he => exact Eval.bind_of_error (Expr.eval_of_enters hcalls he)
  | .block _, _, _, h => by
      cases h with
      | block hitems => exact Item.evalAll_of_enters hcalls hitems

theorem Expr.evalAll_of_enters (hcalls : CallRule.Overflows n (callWithin n)) :
    ∀ {es : List (Expr Nat)} {start moment : Session}, Expr.EntersAll 0 n es start moment →
      Expr.evalAll (callWithin n) es start = Eval.overflow moment start
  | [], _, _, h => by cases h
  | _ :: _, _, _, h => by
      cases h with
      | head he => exact Eval.bind_of_error (Expr.eval_of_enters hcalls he)
      | tail he hes =>
          refine Eval.overflow_after (Expr.eval_ran he) ?_
          exact Eval.bind_of_error (Expr.evalAll_of_enters hcalls hes)

theorem Item.evalAll_of_enters (hcalls : CallRule.Overflows n (callWithin n)) :
    ∀ {items : List (Item Nat)} {last : Option Value} {start moment : Session},
      Item.EntersAll 0 n items start moment →
        Item.evalAll (callWithin n) last items start = Eval.overflow moment start
  | [], _, _, _, h => by cases h
  | _ :: _, _, _, _, h => by
      cases h with
      | head hitem => exact Eval.bind_of_error (Item.eval_of_enters hcalls hitem)
      | tail hitem hitems =>
          exact Eval.overflow_after (Item.eval_ran hitem)
            (Item.evalAll_of_enters hcalls hitems)

end

end Overflowing

/-- Calls end at one call too many, however deep in them it comes. -/
theorem callWithin_overflows (n : Nat) : CallRule.Overflows n (callWithin n) := by
  intro f args start moment h
  induction n generalizing f args start moment with
  | zero =>
      cases h with
      | here harity => exact callWithin_zero_of_length_eq harity start
  | succ n ih =>
      cases h with
      | inside harity hbody =>
          rw [callWithin_succ_of_length_eq harity, Item.evalAll_of_enters ih hbody]
          have hdepth : (start.enter f args).depth = start.depth + 1 :=
            (Law.enter_confined start f args).depth
          simp only [Eval.overflow, Eval.endCall, Session.backTo, Session.leave, hdepth,
            Nat.add_sub_cancel]

/-- What an evaluation under a limit can come to: a value or a stop, which the rules
without the limit give too, or one call too many. -/
inductive Eval.Comes {α : Type} (finishes : Eval.Outcome α → Prop) (enters : Session → Prop)
    (outcome : Eval.Outcome α) : Prop where
  | value {a : α} {s : Session} (heq : outcome = .ok a s) (h : finishes (.ok a s))
  | stops {unwind : Unwind} {s : Session} (heq : outcome = .error unwind s)
      (h : finishes (.error unwind s))
  | enters {moment : Session} (h : enters moment)

namespace Eval.Comes

variable {α : Type} {finishes : Eval.Outcome α → Prop} {enters : Session → Prop}
  {outcome : Eval.Outcome α}

theorem of_eq {outcome' : Eval.Outcome α} (heq : outcome = outcome') (h : finishes outcome') :
    Comes finishes enters outcome := by
  cases outcome' with
  | ok a s => exact .value heq h
  | error unwind s => exact .stops heq h

/-- Either it finishes or it comes to one call too many. -/
theorem either (h : Comes finishes enters outcome) :
    finishes outcome ∨ ∃ moment, enters moment := by
  cases h with
  | value heq h => exact .inl (heq ▸ h)
  | stops heq h => exact .inl (heq ▸ h)
  | enters h => exact .inr ⟨_, h⟩

/-- What finishes with calls to spare does so without them, unless it comes to one call too
many. -/
theorem within {spared : Eval.Outcome α} (h : Comes finishes enters outcome)
    (hsame : ∀ outcome, finishes outcome → outcome = spared) :
    finishes spared ∨ ∃ moment, enters moment := by
  rcases h.either with hfew | hmany
  · rw [hsame outcome hfew] at hfew
    exact .inl hfew
  · exact .inr hmany

end Eval.Comes

/-- A call finishes or comes to one call too many. -/
def CallRule.Cut (n : Nat) (call : CallRule) : Prop :=
  ∀ (f : Closure) (args : List Value) (start : Session),
    Eval.Comes (f.Finishes n args start) (f.Enters 0 n args start) (call f args start)

section Cutting

variable {n : Nat} {call : CallRule}

mutual

/-- An evaluation finishes or comes to one call too many, if calls do. -/
theorem Expr.eval_comes (hcalls : call.Cut n) :
    ∀ (e : Expr Nat) (start : Session),
      Eval.Comes (e.Finishes n start) (e.Enters 0 n start) (e.eval call start)
  | .var name, _ => .of_eq rfl (.var name)
  | .lit literal, _ => .of_eq rfl (.lit literal)
  | .fn literal params body, _ => .of_eq rfl (.fn literal params body)
  | .unary _ operand, start => by
      cases Expr.eval_comes hcalls operand start with
      | value heq h => exact .of_eq (Eval.bind_of_ok heq) (.unary h)
      | stops heq h => exact .of_eq (Eval.bind_of_error heq) (.unaryStops h)
      | enters h => exact .enters (.unary h)
  | .binary left _ right, start => by
      cases Expr.eval_comes hcalls left start with
      | @value _ s heq h =>
          cases Expr.eval_comes hcalls right s with
          | value heq' h' =>
              exact .of_eq ((Eval.bind_of_ok heq).trans (Eval.bind_of_ok heq')) (.binary h h')
          | stops heq' h' =>
              exact .of_eq ((Eval.bind_of_ok heq).trans (Eval.bind_of_error heq'))
                (.rightStops h h')
          | enters h' => exact .enters (.right h h')
      | stops heq h => exact .of_eq (Eval.bind_of_error heq) (.leftStops h)
      | enters h => exact .enters (.left h)
  | .cond test yes no, start => by
      cases Expr.eval_comes hcalls test start with
      | @value value s heq h =>
          cases htruthy : value.truthy with
          | true =>
              rcases (Item.evalAll_comes hcalls yes none s).either with h' | ⟨_, h'⟩
              · refine .of_eq ((Eval.bind_of_ok heq).trans ?_) (.yes h htruthy h')
                rw [if_pos htruthy]
                exact Eval.bind_pure _ rfl
              · exact .enters (.yes h htruthy h')
          | false =>
              have hfalse : ¬value.truthy = true := by simp [htruthy]
              cases no with
              | none =>
                  refine .of_eq ((Eval.bind_of_ok heq).trans ?_) (.no h htruthy .none)
                  rw [if_neg hfalse]
                  rfl
              | some items =>
                  rcases (Item.evalAll_comes hcalls items none s).either with h' | ⟨_, h'⟩
                  · refine .of_eq ((Eval.bind_of_ok heq).trans ?_) (.no h htruthy (.some h'))
                    rw [if_neg hfalse]
                    exact Eval.bind_pure _ rfl
                  · exact .enters (.no h htruthy h')
      | stops heq h => exact .of_eq (Eval.bind_of_error heq) (.testStops h)
      | enters h => exact .enters (.test h)
  | .call callee args, start => by
      cases Expr.eval_comes hcalls callee start with
      | @value value s heq h =>
          cases value with
          | function f =>
              cases Expr.evalAll_comes hcalls args s with
              | @value values s' heq' h' =>
                  rcases (hcalls f values s').either with h'' | ⟨_, h''⟩
                  · exact .of_eq ((Eval.bind_of_ok heq).trans (Eval.bind_of_ok heq'))
                      (.callFunction h h' h'')
                  · exact .enters (.call h h' h'')
              | stops heq' h' =>
                  exact .of_eq ((Eval.bind_of_ok heq).trans (Eval.bind_of_error heq'))
                    (.argsStop h (.inl rfl) h')
              | enters h' => exact .enters (.args h (.inl rfl) h')
          | native f =>
              cases Expr.evalAll_comes hcalls args s with
              | value heq' h' =>
                  exact .of_eq ((Eval.bind_of_ok heq).trans (Eval.bind_of_ok heq'))
                    (.callNative h h')
              | stops heq' h' =>
                  exact .of_eq ((Eval.bind_of_ok heq).trans (Eval.bind_of_error heq'))
                    (.argsStop h (.inr rfl) h')
              | enters h' => exact .enters (.args h (.inr rfl) h')
          | int | text | bool | null | array | error =>
              exact .of_eq (Eval.bind_of_ok heq)
                (.notCallable h (by simp [Value.IsCallable, Value.kind]))
      | stops heq h => exact .of_eq (Eval.bind_of_error heq) (.calleeStops h)
      | enters h => exact .enters (.callee h)
  | .array elements, start => by
      cases Expr.evalAll_comes hcalls elements start with
      | value heq h => exact .of_eq (Eval.bind_of_ok heq) (.array h)
      | stops heq h => exact .of_eq (Eval.bind_of_error heq) (.elementsStop h)
      | enters h => exact .enters (.array h)
  | .index base position, start => by
      cases Expr.eval_comes hcalls base start with
      | @value _ s heq h =>
          cases Expr.eval_comes hcalls position s with
          | value heq' h' =>
              exact .of_eq ((Eval.bind_of_ok heq).trans (Eval.bind_of_ok heq')) (.index h h')
          | stops heq' h' =>
              exact .of_eq ((Eval.bind_of_ok heq).trans (Eval.bind_of_error heq'))
                (.positionStops h h')
          | enters h' => exact .enters (.position h h')
      | stops heq h => exact .of_eq (Eval.bind_of_error heq) (.baseStops h)
      | enters h => exact .enters (.base h)

theorem Item.eval_comes (hcalls : call.Cut n) :
    ∀ (item : Item Nat) (start : Session),
      Eval.Comes (item.Finishes n start) (item.Enters 0 n start) (item.eval call start)
  | .expr e, start => by
      cases Expr.eval_comes hcalls e start with
      | value heq h => exact .of_eq (Eval.bind_pure some heq) (.expr h)
      | stops heq h => exact .of_eq (Eval.bind_pure some heq) (.expr h)
      | enters h => exact .enters (.expr h)
  | .bind name init, start => by
      cases Expr.eval_comes hcalls init start with
      | value heq h => exact .of_eq (Eval.bind_of_ok heq) (.bind h)
      | stops heq h => exact .of_eq (Eval.bind_of_error heq) (.bindStops h)
      | enters h => exact .enters (.bind h)
  | .ret e, start => by
      cases Expr.eval_comes hcalls e start with
      | value heq h => exact .of_eq (Eval.bind_of_ok heq) (.ret h)
      | stops heq h => exact .of_eq (Eval.bind_of_error heq) (.retStops h)
      | enters h => exact .enters (.ret h)
  | .block items, start => by
      rcases (Item.evalAll_comes hcalls items none start).either with h | ⟨_, h⟩
      · exact .of_eq rfl (.block h)
      · exact .enters (.block h)

theorem Expr.evalAll_comes (hcalls : call.Cut n) :
    ∀ (es : List (Expr Nat)) (start : Session),
      Eval.Comes (Expr.FinishesAll n es start) (Expr.EntersAll 0 n es start)
        (Expr.evalAll call es start)
  | [], _ => .of_eq rfl .nil
  | e :: es, start => by
      cases Expr.eval_comes hcalls e start with
      | @value value s heq h =>
          rcases (Expr.evalAll_comes hcalls es s).either with h' | ⟨_, h'⟩
          · exact .of_eq ((Eval.bind_of_ok heq).trans (Eval.bind_pure (value :: ·) rfl))
              (.cons h h')
          · exact .enters (.tail h h')
      | stops heq h => exact .of_eq (Eval.bind_of_error heq) (.stops h)
      | enters h => exact .enters (.head h)

theorem Item.evalAll_comes (hcalls : call.Cut n) :
    ∀ (items : List (Item Nat)) (last : Option Value) (start : Session),
      Eval.Comes (Item.FinishesAll n last items start) (Item.EntersAll 0 n items start)
        (Item.evalAll call last items start)
  | [], _, _ => .of_eq rfl .nil
  | item :: items, last, start => by
      cases Item.eval_comes hcalls item start with
      | @value value? s heq h =>
          rcases (Item.evalAll_comes hcalls items value? s).either with h' | ⟨_, h'⟩
          · exact .of_eq (Eval.bind_of_ok heq) (.cons h h')
          · exact .enters (.tail h h')
      | stops heq h => exact .of_eq (Eval.bind_of_error heq) (.stops h)
      | enters h => exact .enters (.head h)

end

end Cutting

/-- With so many calls that may be opened, a call finishes or comes to one too many. -/
theorem callWithin_cut (n : Nat) : CallRule.Cut n (callWithin n) := by
  induction n with
  | zero =>
      intro f args start
      by_cases harity : args.length = f.params.length
      · exact .enters (.here harity)
      · exact .of_eq (callWithin_of_length_ne harity start) (.wrongArity harity)
  | succ n ih =>
      intro f args start
      by_cases harity : args.length = f.params.length
      · rcases (Item.evalAll_comes ih f.body none (start.enter f args)).either with h | ⟨_, h⟩
        · exact .of_eq (callWithin_succ_of_length_eq harity start) (.call harity h)
        · exact .enters (.inside harity h)
      · exact .of_eq (callWithin_of_length_ne harity start) (.wrongArity harity)

end Scriptlet
