import Scriptlet.Proofs.Session.Pairing
import Scriptlet.Session.Run

/-!
# What evaluation does not see

The number of function literals is for numbering more of them only, and what was printed
and recorded is only ever added to. A change of these that every operation on a session
commutes with is not seen: an evaluation comes to the same outcome, in the session that
the change makes of the one it comes to without.
-/

namespace Scriptlet

/-- A change of sessions that commutes with what evaluation is made of. -/
structure Session.Unseen (change : Session → Session) : Prop where
  store (session : Session) : (change session).store = session.store
  scope (session : Session) : (change session).scope = session.scope
  depth (session : Session) : (change session).depth = session.depth
  natives (session : Session) : (change session).natives = session.natives
  makeArray (elements : List Value) (session : Session) :
    (change session).makeArray elements =
      ((session.makeArray elements).1, change (session.makeArray elements).2)
  print (text : String) (session : Session) :
    (change session).print text = change (session.print text)
  observe (event : Event) (session : Session) :
    (change session).observe event = change (session.observe event)
  set (name : String) (value : Value) (session : Session) :
    (change session).set name value = change (session.set name value)
  opened (f : Closure) (session : Session) :
    (change session).opened f = change (session.opened f)
  leave (caller : ScopeId) (session : Session) :
    (change session).leave caller = change (session.leave caller)

/-- An outcome in the session changed. -/
def Eval.changed {α : Type} (change : Session → Session) :
    EStateM.Result Unwind Session α → EStateM.Result Unwind Session α
  | .ok a session => .ok a (change session)
  | .error unwind session => .error unwind (change session)

namespace Pairing

/-- The second session is the first one changed, and the values are the same. -/
def changed (change : Session → Session) : Pairing where
  holds session session' := session' = change session
  moves _ _ := True
  fits _ value value' := value = value'

variable {change : Session → Session} {session last last' : Session}

theorem changed_step (h : last' = change last) : (changed change).Step session last last' :=
  ⟨h, True.intro⟩

theorem changed_fits? (value? : Option Value) :
    (changed change).fits? session value? value? := by
  cases value? with
  | none => exact .none
  | some value => exact .some rfl

theorem changed_kept (h : Session.Unseen change) : (changed change).Kept where
  refl _ := True.intro
  trans _ _ := True.intro
  fits_mono _ hvalue := hvalue
  fits_plain _ := rfl
  fits_matches {_ value _} hvalue := by
    cases hvalue
    exact .refl (fun _ => rfl) value
  fits_identical hvalue hother := by
    cases hvalue
    cases hother
    rfl
  fits_function {session _} literal params body hholds _ := by
    cases hholds
    exact congrArg (fun scope => Value.function ⟨literal, params, body, scope⟩)
      (h.scope session).symm
  fits_names _ _ _ := True.intro
  natives {session _} hholds := by
    cases hholds
    exact h.natives session
  makeArray {session _ elements _} hholds helements := by
    cases hholds
    have hsame := List.forall₂_eq_eq_eq ▸ helements
    cases hsame
    have hmade := h.makeArray elements session
    exact .ok (changed_step (congrArg Prod.snd hmade)) (congrArg Prod.fst hmade).symm
  print {session _} text hholds := by
    cases hholds
    exact changed_step (h.print text session)
  observe {session _} event hholds := by
    cases hholds
    exact changed_step (h.observe event session)
  get {session _ name} hholds _ := by
    cases hholds
    simp only [Session.get, h.store, h.scope]
    exact ⟨changed_step (h.observe _ session), changed_fits? _⟩
  set {session _ value _ name} hholds _ hvalue := by
    cases hholds
    cases hvalue
    exact changed_step (h.set name value session)
  opened {session _ f _} hholds hf := by
    cases hholds
    cases hf
    exact changed_step (h.opened f session)
  leave {session _ last _} hholds _ hlast := by
    cases hholds
    cases hlast
    rw [h.scope]
    exact changed_step (h.leave session.scope last)

end Pairing

/-- Items come to the same outcome in a session changed unseen. -/
theorem Item.evalAll_changed {change : Session → Session} (h : Session.Unseen change)
    (levels : Nat) (last : Option Value) (items : List (Item Nat)) (session : Session) :
    Item.evalAll (callWithin levels) last items (change session) =
      Eval.changed change (Item.evalAll (callWithin levels) last items session) := by
  have hkept := Pairing.changed_kept h
  have hholds : (Pairing.changed change).holds session (change session) := rfl
  have hpairs := Item.evalAll_pairs hkept (hkept.callWithin levels) items
    (fun _ _ => True.intro) hholds (Pairing.changed_fits? last)
  generalize Item.evalAll (callWithin levels) last items session = result,
    Item.evalAll (callWithin levels) last items (change session) = result' at hpairs ⊢
  cases hpairs with
  | ok hstep hlast =>
      cases hstep.holds
      cases hlast with
      | some hvalue =>
          cases hvalue
          rfl
      | none => rfl
  | fault reason hstep =>
      cases hstep.holds
      rfl
  | returned hstep hvalue =>
      cases hstep.holds
      cases hvalue
      rfl

namespace Session

/-- The same session with another number of function literals. -/
def withLiterals (literals : Nat) (session : Session) : Session :=
  { session with literals }

theorem withLiterals_unseen (literals : Nat) : Unseen (withLiterals literals) := by
  constructor <;> intros <;> rfl

/-- The same session behind an earlier output and earlier events, the latest of which come
first. -/
def behind (output : String) (events : List Event) (session : Session) : Session :=
  { session with
    output := output ++ session.output, trace? := session.trace?.map (· ++ events) }

theorem behind_unseen (output : String) (events : List Event) : Unseen (behind output events) where
  store _ := rfl
  scope _ := rfl
  depth _ := rfl
  natives _ := rfl
  makeArray _ _ := rfl
  print text session := by simp [behind, Session.print, String.append_assoc]
  observe event session := by
    simp only [behind, Session.observe, Option.map_map]
    rfl
  set name value session := by
    simp only [behind, Session.set, Session.observe, Option.map_map]
    rfl
  opened _ _ := rfl
  leave _ _ := rfl

/-- A program has the same value in a session changed unseen. -/
theorem evaluate_changed {change : Session → Session} (h : Unseen change) (session : Session)
    (program : Program Nat) :
    (change session).evaluate program =
      ((session.evaluate program).1, change (session.evaluate program).2) := by
  have hrule : (change session).callRule = session.callRule :=
    congrArg (fun depth => callWithin (maxCalls - depth)) (h.depth session)
  unfold evaluate
  rw [hrule, callRule, Item.evalAll_changed h]
  cases Item.evalAll (callWithin (maxCalls - session.depth)) none program session with
  | ok value last => rfl
  | error unwind last => cases unwind <;> rfl

/-- What was printed and recorded before does not matter to a text, which only adds to it. -/
theorem run_behind (output : String) (events : List Event) (session : Session) (text : String) :
    (session.behind output events).run text =
      ((session.run text).1, (session.run text).2.behind output events) := by
  have hload : (session.behind output events).load (Parsed.ofText text).program =
      ((session.load (Parsed.ofText text).program).1,
        (session.load (Parsed.ofText text).program).2.behind output events) := rfl
  unfold run
  dsimp only
  split
  · rw [hload, evaluate_changed (behind_unseen output events)]
  · rfl

end Session

theorem Item.evalAll_withLiterals (levels : Nat) (last : Option Value) (items : List (Item Nat))
    (session : Session) (literals : Nat) :
    Item.evalAll (callWithin levels) last items (session.withLiterals literals) =
      Eval.changed (Session.withLiterals literals)
        (Item.evalAll (callWithin levels) last items session) :=
  Item.evalAll_changed (Session.withLiterals_unseen literals) levels last items session

end Scriptlet
