import Scriptlet.Parser

/-!
# Outcomes of parsers

When a parser built from smaller ones succeeds, and with what. Each lemma takes
one combinator apart; a repetition is taken apart by an invariant.
-/

namespace Scriptlet.Parser

variable {α β : Type} {tokens rest : List Token}

theorem bind_eq_ok {p : Parser α} {f : α → Parser β} {b : β} :
    (p >>= f) tokens = .ok b rest ↔
      ∃ a middle, p tokens = .ok a middle ∧ f a middle = .ok b rest := by
  change EStateM.bind p f tokens = _ ↔ _
  unfold EStateM.bind
  cases p tokens with
  | ok a middle =>
      constructor
      · exact fun h => ⟨a, middle, rfl, h⟩
      · intro hbind
        obtain ⟨_, _, h, hf⟩ := hbind
        cases h
        exact hf
  | error error middle => simp

theorem bind_eq_error {p : Parser α} {f : α → Parser β} {error : ParseError} :
    (p >>= f) tokens = .error error rest ↔
      p tokens = .error error rest ∨
        ∃ a middle, p tokens = .ok a middle ∧ f a middle = .error error rest := by
  change EStateM.bind p f tokens = _ ↔ _
  unfold EStateM.bind
  cases p tokens with
  | ok a middle =>
      constructor
      · exact fun h => .inr ⟨a, middle, rfl, h⟩
      · intro hbind
        obtain ⟨⟨⟩⟩ | ⟨_, _, h, hf⟩ := hbind
        cases h
        exact hf
  | error error middle => simp

theorem pure_eq_ok {a b : α} :
    (pure a : Parser α) tokens = .ok b rest ↔ a = b ∧ tokens = rest := by
  change EStateM.Result.ok a tokens = _ ↔ _
  simp

/-- A parser that has succeeded hands over to what follows it. -/
theorem bind_of_ok {p : Parser α} {f : α → Parser β} {a : α} (h : p tokens = .ok a rest) :
    (p >>= f) tokens = f a rest := by
  change EStateM.bind p f tokens = _
  simp [EStateM.bind, h]

/-- A parser that has failed stays where it is. -/
theorem bind_of_error {p : Parser α} {f : α → Parser β} {error : ParseError}
    (h : p tokens = .error error rest) : (p >>= f) tokens = .error error rest :=
  bind_eq_error.mpr (.inl h)

theorem next?_bind_cons {f : Option Token → Parser β} (token : Token) (behind : List Token) :
    (next? >>= f) (token :: behind) = f (some token) behind :=
  rfl

@[simp]
theorem pure_ne_error {a : α} {error : ParseError} :
    (pure a : Parser α) tokens ≠ .error error rest :=
  nofun

@[simp]
theorem peek?_eq_ok {token? : Option Token} :
    peek? tokens = .ok token? rest ↔ tokens.head? = token? ∧ tokens = rest := by
  simp [peek?]

@[simp]
theorem failHere_ne_ok {cause : ParseError.Cause} {a : α} :
    failHere cause tokens ≠ .ok a rest := by
  simp [failHere]

@[simp]
theorem failBehind_ne_ok {cause : ParseError.Cause} {token : Token} {a : α} :
    failBehind cause token tokens ≠ .ok a rest := by
  simp [failBehind]

/-- An outcome that leaves all tokens, when the next token is known. -/
theorem ok_eq_ok_iff_head {p : Token → Prop} (a : α) (h : ∀ token ∈ tokens.head?, p token) :
    (EStateM.Result.ok a tokens : EStateM.Result ParseError (List Token) α) = .ok a rest ↔
      tokens = rest ∧ ∀ token ∈ rest.head?, p token := by
  constructor
  · intro hok
    cases hok
    exact ⟨rfl, h⟩
  · intro hrest
    rw [hrest.1]

theorem accept_eq_ok_true {kind : Token.Kind} :
    accept kind tokens = .ok true rest ↔ ∃ token, token.kind = kind ∧ tokens = token :: rest := by
  cases tokens with
  | nil => simp [accept]
  | cons head tokens =>
      simp only [accept]
      by_cases h : head.kind = kind
      · rw [if_pos h]
        constructor
        · intro hok
          cases hok
          exact ⟨head, h, rfl⟩
        · intro htoken
          obtain ⟨_, _, heq⟩ := htoken
          cases heq
          rfl
      · rw [if_neg h]
        simp only [EStateM.Result.ok.injEq, Bool.false_eq_true, false_and, false_iff]
        intro htoken
        obtain ⟨_, hkind, heq⟩ := htoken
        cases heq
        exact h hkind

theorem accept_eq_ok_false {kind : Token.Kind} :
    accept kind tokens = .ok false rest ↔
      tokens = rest ∧ ∀ token ∈ rest.head?, token.kind ≠ kind := by
  cases tokens with
  | nil => exact ok_eq_ok_iff_head false (by simp)
  | cons head tokens =>
      simp only [accept]
      by_cases h : head.kind = kind
      · rw [if_pos h]
        simp only [EStateM.Result.ok.injEq, Bool.true_eq_false, false_and, false_iff]
        intro hrest
        obtain ⟨rfl, hnot⟩ := hrest
        exact hnot head rfl h
      · rw [if_neg h]
        exact ok_eq_ok_iff_head false (by simpa using h)

theorem require_eq_ok {what : ParseError.Required} {token : Token} :
    require what tokens = .ok token rest ↔ token.kind = what.kind ∧ tokens = token :: rest := by
  cases tokens with
  | nil => simp [require]
  | cons head tokens =>
      by_cases h : head.kind = what.kind
      · simp only [require, h, if_true, EStateM.Result.ok.injEq, List.cons.injEq]
        constructor
        · intro hok
          obtain ⟨rfl, rfl⟩ := hok
          exact ⟨h, rfl, rfl⟩
        · intro htoken
          obtain ⟨_, rfl, rfl⟩ := htoken
          exact ⟨rfl, rfl⟩
      · simp only [require, h, if_false, failHere_ne_ok, List.cons.injEq, false_iff]
        intro htoken
        obtain ⟨hkind, rfl, _⟩ := htoken
        exact h hkind

theorem accept_ne_error {kind : Token.Kind} {error : ParseError} :
    accept kind tokens ≠ .error error rest := by
  cases tokens with
  | nil => simp [accept]
  | cons head tokens =>
      simp only [accept]
      split <;> simp

theorem require_eq_error {what : ParseError.Required} {error : ParseError} :
    require what tokens = .error error rest ↔
      (∀ token ∈ tokens.head?, token.kind ≠ what.kind) ∧ error = ⟨.missing what, tokens⟩ ∧
        tokens = rest := by
  cases tokens with
  | nil => simp [require, failHere, eq_comm]
  | cons head tokens =>
      by_cases h : head.kind = what.kind <;> simp [require, failHere, h, eq_comm]

theorem iterate_of_some {step : α → Parser (Option α)} (h : Advances step) {a b : α}
    (hstep : step a tokens = .ok (some b) rest) : iterate step a tokens = iterate step b rest := by
  rw [iterate_eq h, hstep]

theorem iterate_of_none {step : α → Parser (Option α)} (h : Advances step) {a : α}
    (hstep : step a tokens = .ok none rest) : iterate step a tokens = .ok a rest := by
  rw [iterate_eq h, hstep]

theorem iterate_of_error {step : α → Parser (Option α)} (h : Advances step) {a : α}
    {error : ParseError} (hstep : step a tokens = .error error rest) :
    iterate step a tokens = .error error rest := by
  rw [iterate_eq h, hstep]

/-- What holds at the start of a repetition and is kept by every step that goes
on holds at its end, where the step has nothing to add. -/
theorem iterate_invariant {step : α → Parser (Option α)} (h : Advances step)
    (invariant : α → List Token → Prop) {a b : α}
    (keep : ∀ {a b tokens rest}, invariant a tokens → step a tokens = .ok (some b) rest →
      invariant b rest)
    (start : invariant a tokens) (hend : iterate step a tokens = .ok b rest) :
    ∃ last, invariant b last ∧ step b last = .ok none rest := by
  generalize hn : tokens.length = n
  induction n using Nat.strongRecOn generalizing a tokens with
  | _ n ih =>
      rw [iterate_eq h] at hend
      split at hend
      · rename_i next behind hstep
        have hlt := h.length_lt hstep
        exact ih behind.length (hn ▸ hlt) (keep start hstep) hend rfl
      · rename_i behind hstep
        simp only [EStateM.Result.ok.injEq] at hend
        obtain ⟨rfl, rfl⟩ := hend
        exact ⟨tokens, start, hstep⟩
      · simp at hend

end Scriptlet.Parser
