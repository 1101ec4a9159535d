/-!
# Checked computations

An operation that has no result outside its domain is partial. A checked computation
says what each of its partial operations fails with there, and sets that apart from the
errors that the computation raises itself. It agrees with a plain computation when it
has the same outcomes, from all states of interest, and so meets no hazard.
-/

namespace Scriptlet

/-- What a partial operation fails with outside its domain. -/
inductive Hazard where
  /-- A part of a text or of a list whose ends are no places in it, in order. -/
  | slice
  /-- An element that a list does not have. -/
  | position
  /-- A token that is no operator. -/
  | operator
  /-- A counter taken below zero or beyond its bound. -/
  | counter
  /-- An integer out of range. -/
  | overflow
  | zeroDivisor
  /-- A repetition with no round left. -/
  | endless
  deriving DecidableEq

/-- A computation that can meet hazards beside raising errors of its own. -/
abbrev Checked (ε σ α : Type) := EStateM (Hazard ⊕ ε) σ α

namespace Checked

variable {ε ε' σ τ α β : Type}

/-- The result of a partial operation, which has to exist. -/
def expect (hazard : Hazard) : Option α → Checked ε σ α
  | some a => pure a
  | none => throw (.inl hazard)

/-- Raises an error. -/
def raise (error : ε) : Checked ε σ α :=
  throw (.inr error)

/-- Runs a computation up to its error, if it raises one. A hazard is not held up. -/
def attempt (p : Checked ε σ α) : Checked ε' σ (Except ε α) := fun state =>
  match p state with
  | .ok a state => .ok (.ok a) state
  | .error (.inr error) state => .ok (.error error) state
  | .error (.inl hazard) state => .error (.inl hazard) state

/-- The outcome of an attempt, raised again if it is an error. -/
def conclude : Except ε α → Checked ε σ α
  | .ok a => pure a
  | .error error => raise error

/-- The predecessor of a counter. -/
def decrement? : Nat → Option Nat
  | 0 => none
  | count + 1 => some count

/-- The successor of a counter that is a word of 64 bits. -/
def increment? (count : Nat) : Option Nat :=
  if count + 1 < UInt64.size then some (count + 1) else none

@[simp]
theorem expect_some (hazard : Hazard) (a : α) :
    (expect hazard (some a) : Checked ε σ α) = pure a :=
  rfl

/-- A computation that has succeeded hands over to what follows it. -/
theorem bind_of_ok {p : Checked ε σ α} {f : α → Checked ε σ β} {a : α} {state next : σ}
    (h : p state = .ok a next) : (p >>= f) state = f a next := by
  change EStateM.bind p f state = _
  simp [EStateM.bind, h]

theorem bind_of_error {p : Checked ε σ α} {f : α → Checked ε σ β} {error : Hazard ⊕ ε}
    {state next : σ} (h : p state = .error error next) : (p >>= f) state = .error error next := by
  change EStateM.bind p f state = _
  simp [EStateM.bind, h]

theorem get_bind (f : σ → Checked ε σ β) (state : σ) : (get >>= f) state = f state state :=
  rfl

theorem set_bind (next : σ) (f : PUnit → Checked ε σ β) (state : σ) :
    (set next >>= f) state = f ⟨⟩ next :=
  rfl

theorem modify_bind (change : σ → σ) (f : PUnit → Checked ε σ β) (state : σ) :
    (modify change >>= f) state = f ⟨⟩ (change state) :=
  rfl

/-- The outcome of a plain computation, for a checked one that keeps more in its state. -/
def outcome (place : σ → τ) : EStateM.Result ε σ α → EStateM.Result (Hazard ⊕ ε) τ α
  | .ok a state => .ok a (place state)
  | .error error state => .error (.inr error) (place state)

/-- A plain computation, which has no partial operations. -/
def plain (p : EStateM ε σ α) : Checked ε σ α := fun state =>
  outcome id (p state)

/-- The state that a computation leaves, however it ends. -/
def left : EStateM.Result ε σ α → σ
  | .ok _ state => state
  | .error _ state => state

/-- How a computation ends, without the state. -/
def ending : EStateM.Result ε σ α → Except ε α
  | .ok a _ => .ok a
  | .error error _ => .error error

/-- An attempt at a computation that meets no hazard comes to an end. -/
theorem attempt_of_eq {place : σ → τ} {p : Checked ε τ α} {state : τ}
    {result : EStateM.Result ε σ α} (h : p state = outcome place result) :
    (attempt p : Checked ε' τ (Except ε α)) state = .ok (ending result) (place (left result)) := by
  cases result <;> simp [attempt, h, outcome, ending, left]

/-- Concluding an attempt gives the outcome back, in whatever state that leaves. -/
theorem conclude_ending (place : σ → τ) (result : EStateM.Result ε σ α) :
    conclude (ending result) (place (left result)) = outcome place result := by
  cases result <;> rfl

/-- From states of interest, which it keeps to, a plain computation has the outcomes
of a checked one. -/
def Agrees (holds : σ → Prop) (place : σ → τ) (p : Checked ε τ α) (q : EStateM ε σ α) : Prop :=
  ∀ state, holds state → p (place state) = outcome place (q state) ∧ holds (left (q state))

namespace Agrees

variable {holds : σ → Prop} {place : σ → τ} {p : Checked ε τ α} {q : EStateM ε σ α}

theorem pure (a : α) : Agrees holds place (pure a : Checked ε τ α) (pure a) :=
  fun _ hstate => ⟨rfl, hstate⟩

theorem raise (error : ε) : Agrees holds place (raise error : Checked ε τ α) (throw error) :=
  fun _ hstate => ⟨rfl, hstate⟩

theorem bind {f : α → Checked ε τ β} {g : α → EStateM ε σ β} (h : Agrees holds place p q)
    (hf : ∀ a, Agrees holds place (f a) (g a)) : Agrees holds place (p >>= f) (q >>= g) := by
  intro state hstate
  obtain ⟨heq, hleft⟩ := h state hstate
  change EStateM.bind p f (place state) = outcome place (EStateM.bind q g state) ∧
    holds (left (EStateM.bind q g state))
  simp only [EStateM.bind, heq]
  cases hq : q state with
  | ok a next =>
      rw [hq] at hleft
      exact hf a next hleft
  | error error next =>
      rw [hq] at hleft
      exact ⟨rfl, hleft⟩

theorem plain (h : ∀ state, holds state → holds (left (q state))) :
    Agrees holds id (plain q) q :=
  fun state hstate => ⟨rfl, h state hstate⟩

end Agrees

end Checked

end Scriptlet
