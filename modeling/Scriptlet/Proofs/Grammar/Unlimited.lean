import Scriptlet.Proofs.Grammar.Congruence
import Scriptlet.Proofs.Parser.Outcome

/-!
# The grammar without a limit on nesting

A parser leaves a tail of what it is given, and whatever opens a level of nesting
has read a token before. So a token list bounds the nesting it can need, and with
as many levels as there are tokens no limit is felt: that is the parser without a
limit, which satisfies the equations of the grammar. A parser with a limit either
agrees with it or gives up because of the limit.
-/

namespace Scriptlet

namespace Parser

variable {α β : Type}

/-- The tokens that an outcome leaves. -/
def left : EStateM.Result ParseError (List Token) α → List Token
  | .ok _ rest => rest
  | .error _ rest => rest

/-- Two parsers agree on every list of so many tokens at most, and leave a tail
of it. -/
def AgreeUpTo (count : Nat) (p q : Parser α) : Prop :=
  ∀ tokens, tokens.length ≤ count → p tokens = q tokens ∧ left (q tokens) <:+ tokens

namespace AgreeUpTo

variable {count : Nat}

theorem bind {p q : Parser α} {f g : α → Parser β} (hp : AgreeUpTo count p q)
    (hf : ∀ a, AgreeUpTo count (f a) (g a)) : AgreeUpTo count (p >>= f) (q >>= g) := by
  intro tokens hlen
  obtain ⟨heq, hsuffix⟩ := hp tokens hlen
  change EStateM.bind p f tokens = EStateM.bind q g tokens ∧ _
  change _ ∧ left (EStateM.bind q g tokens) <:+ tokens
  unfold EStateM.bind
  rw [heq]
  cases hq : q tokens with
  | ok a rest =>
      rw [hq] at hsuffix
      obtain ⟨heq, hrest⟩ := hf a rest (Nat.le_trans hsuffix.length_le hlen)
      exact ⟨heq, hrest.trans hsuffix⟩
  | error error rest =>
      rw [hq] at hsuffix
      exact ⟨rfl, hsuffix⟩

theorem pure (a : α) : AgreeUpTo count (Pure.pure a) (Pure.pure a) :=
  fun _ _ => ⟨rfl, List.suffix_rfl⟩

theorem iterate {step step' : α → Parser (Option α)}
    (hstep : ∀ a, AgreeUpTo count (step a) (step' a)) (a : α) :
    AgreeUpTo count (iterate step a) (iterate step' a) := by
  intro tokens hlen
  unfold Parser.iterate
  exact iterateWithin_related (m := Parser) (AgreeUpTo count) pure bind hstep tokens a tokens hlen

theorem congruence (count : Nat) : Congruence (AgreeUpTo count) where
  pure := pure
  bind := bind
  peek? := fun _ _ => ⟨rfl, List.suffix_rfl⟩
  next? := by
    intro tokens _
    cases tokens with
    | nil => exact ⟨rfl, List.suffix_rfl⟩
    | cons token rest => exact ⟨rfl, List.suffix_cons token rest⟩
  failHere _ := fun _ _ => ⟨rfl, List.suffix_rfl⟩
  failBehind _ _ := fun _ _ => ⟨rfl, List.suffix_rfl⟩
  accept kind := by
    intro tokens _
    refine ⟨rfl, ?_⟩
    cases tokens with
    | nil => exact List.suffix_rfl
    | cons token rest =>
        simp only [Steps.accept, accept]
        split
        · exact List.suffix_cons token rest
        · exact List.suffix_rfl
  require what := by
    intro tokens _
    refine ⟨rfl, ?_⟩
    cases tokens with
    | nil => exact List.suffix_rfl
    | cons token rest =>
        simp only [Steps.require, require]
        split
        · exact List.suffix_cons token rest
        · exact List.suffix_rfl
  iterate a hstep := iterate hstep a
  unaryOp hop := by
    rw [unaryOp_of_kind hop]
    exact pure _
  continuation? _ := pure _

end AgreeUpTo

/-- The first parser does what the second does, or else gives up because it may
open no more levels of nesting. -/
def CutsOff (p q : Parser α) : Prop :=
  ∀ tokens, (∃ blamed rest, p tokens = .error ⟨.tooDeep, blamed⟩ rest) ∨ p tokens = q tokens

namespace CutsOff

theorem refl (p : Parser α) : CutsOff p p :=
  fun _ => .inr rfl

theorem bind {p q : Parser α} {f g : α → Parser β} (hp : CutsOff p q)
    (hf : ∀ a, CutsOff (f a) (g a)) : CutsOff (p >>= f) (q >>= g) := by
  intro tokens
  change (∃ blamed rest, EStateM.bind p f tokens = _) ∨
    EStateM.bind p f tokens = EStateM.bind q g tokens
  unfold EStateM.bind
  rcases hp tokens with ⟨blamed, rest, h⟩ | heq
  · rw [h]
    exact .inl ⟨blamed, rest, rfl⟩
  · rw [heq]
    cases q tokens with
    | ok a rest => exact hf a rest
    | error error rest => exact .inr rfl

theorem iterate {step step' : α → Parser (Option α)} (hstep : ∀ a, CutsOff (step a) (step' a))
    (a : α) : CutsOff (iterate step a) (iterate step' a) := by
  intro tokens
  unfold Parser.iterate
  exact iterateWithin_related (m := Parser) CutsOff (fun _ => refl _) bind hstep tokens a
    tokens

theorem congruence : Congruence CutsOff where
  pure _ := refl _
  bind := bind
  peek? := refl _
  next? := refl _
  failHere _ := refl _
  failBehind _ _ := refl _
  accept _ := refl _
  require _ := refl _
  iterate a hstep := iterate hstep a
  unaryOp _ := refl _
  continuation? _ := refl _

end CutsOff

end Parser

namespace Grammar

open Scriptlet.Parser

variable {inner inner' : Nested}

/-- The rest of an expression, behind its first token. -/
theorem expr_rest_agree {count : Nat} (h : Parts.Related (AgreeUpTo count) inner inner')
    (floor : Precedence) (token : Token) :
    AgreeUpTo count (operand inner token >>= iterate (extend inner floor))
      (operand inner' token >>= iterate (extend inner' floor)) :=
  have hcongr := AgreeUpTo.congruence count
  hcongr.bind (operand_related hcongr h token) fun left =>
    hcongr.iterate left fun left => extend_related hcongr h floor left

/-- The rest of a block, behind its opening brace. -/
theorem block_rest_agree {count : Nat} (h : Parts.Related (AgreeUpTo count) inner inner') :
    AgreeUpTo count
      (do
        let found ← iterate (oneMore inner) []
        let _ ← require .closeBrace
        return found.reverse)
      (do
        let found ← iterate (oneMore inner') []
        let _ ← require .closeBrace
        return found.reverse) :=
  have hcongr := AgreeUpTo.congruence count
  hcongr.bind (hcongr.iterate [] fun found => oneMore_related hcongr h found)
    fun _ => hcongr.bind (hcongr.require _) fun _ => hcongr.pure _

/-- What opens levels agrees on one token more than what is inside it, because a
token is read first. -/
theorem expr_agree {count : Nat}
    (h : ∀ less < count, Parts.Related (AgreeUpTo less) inner inner') (floor : Precedence) :
    AgreeUpTo count (expr inner floor) (expr inner' floor) := by
  intro tokens hlen
  cases tokens with
  | nil => exact ⟨rfl, List.suffix_rfl⟩
  | cons token rest =>
      have hrest := expr_rest_agree (h rest.length hlen) floor token
      obtain ⟨heq, hsuffix⟩ := hrest rest (Nat.le_refl _)
      exact ⟨heq, hsuffix.trans (List.suffix_cons token rest)⟩

theorem block_agree {count : Nat}
    (h : ∀ less < count, Parts.Related (AgreeUpTo less) inner inner') :
    AgreeUpTo count (block inner) (block inner') := by
  intro tokens hlen
  cases tokens with
  | nil => exact ⟨rfl, List.suffix_rfl⟩
  | cons token rest =>
      by_cases hkind : token.kind = .leftBrace
      · have hopen : require .openBrace (token :: rest) = .ok token rest :=
          require_eq_ok.mpr ⟨hkind, rfl⟩
        have hrest := block_rest_agree (h rest.length hlen)
        obtain ⟨heq, hsuffix⟩ := hrest rest (Nat.le_refl _)
        unfold block
        dsimp only [Steps.require]
        rw [bind_of_ok hopen, bind_of_ok hopen]
        exact ⟨heq, hsuffix.trans (List.suffix_cons token rest)⟩
      · have hclosed : require .openBrace (token :: rest) =
            failHere (.missing .openBrace) (token :: rest) := if_neg hkind
        have hblock (inner : Nested) : block inner (token :: rest) =
            failHere (.missing .openBrace) (token :: rest) := by
          change EStateM.bind _ _ _ = _
          simp only [EStateM.bind, Steps.require, hclosed]
          rfl
        rw [hblock, hblock]
        exact ⟨rfl, List.suffix_rfl⟩

end Grammar

namespace Nested

open Scriptlet.Parser

/-- With more levels than there are tokens, the number of levels does not matter. -/
theorem within_agree {count levels levels' : Nat} (h : count < levels) (h' : count < levels') :
    Parts.Related (AgreeUpTo count) (within levels) (within levels') := by
  induction count using Nat.strongRecOn generalizing levels levels' with
  | _ count ih =>
      obtain ⟨levels, rfl⟩ := Nat.exists_eq_succ_of_ne_zero (Nat.ne_of_gt (Nat.zero_lt_of_lt h))
      obtain ⟨levels', rfl⟩ := Nat.exists_eq_succ_of_ne_zero (Nat.ne_of_gt (Nat.zero_lt_of_lt h'))
      have hless : ∀ less < count,
          Parts.Related (AgreeUpTo less) (within levels) (within levels') :=
        fun less hlt => ih less hlt (by omega) (by omega)
      exact ⟨fun p => Grammar.expr_agree hless p, Grammar.block_agree hless⟩

/-- The parsers that may open any number of levels. -/
def unlimited : Nested where
  expr p := fun tokens => (within (tokens.length + 1)).expr p tokens
  block := fun tokens => (within (tokens.length + 1)).block tokens

theorem unlimited_agree {count levels : Nat} (h : count < levels) :
    Parts.Related (AgreeUpTo count) unlimited (within levels) where
  expr p := fun tokens hlen =>
    ((within_agree (Nat.lt_succ_self tokens.length) (Nat.lt_of_le_of_lt hlen h)).expr p)
      tokens (Nat.le_refl _)
  block := fun tokens hlen =>
    (within_agree (Nat.lt_succ_self tokens.length) (Nat.lt_of_le_of_lt hlen h)).block
      tokens (Nat.le_refl _)

/-- Without a limit the equations of the grammar hold as they stand. -/
theorem unlimited_expr (p : Precedence) : unlimited.expr p = Grammar.expr unlimited p := by
  funext tokens
  have hless : ∀ less < tokens.length,
      Parts.Related (AgreeUpTo less) unlimited (within tokens.length) :=
    fun less hlt => unlimited_agree hlt
  exact ((Grammar.expr_agree hless p) tokens (Nat.le_refl _)).1.symm

theorem unlimited_block : unlimited.block = Grammar.block unlimited := by
  funext tokens
  have hless : ∀ less < tokens.length,
      Parts.Related (AgreeUpTo less) unlimited (within tokens.length) :=
    fun less hlt => unlimited_agree hlt
  exact ((Grammar.block_agree hless) tokens (Nat.le_refl _)).1.symm

/-- A limit on the levels only makes a parser give up. -/
theorem within_cutsOff (levels : Nat) : Parts.Related CutsOff (within levels) unlimited := by
  induction levels with
  | zero =>
      exact ⟨fun p tokens => .inl ⟨tokens, tokens, rfl⟩, fun tokens => .inl ⟨tokens, tokens, rfl⟩⟩
  | succ levels ih =>
      constructor
      · intro p
        rw [unlimited_expr]
        exact Grammar.expr_related CutsOff.congruence ih p
      · rw [unlimited_block]
        exact Grammar.block_related CutsOff.congruence ih

end Nested

end Scriptlet
