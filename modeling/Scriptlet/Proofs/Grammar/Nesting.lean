import Scriptlet.Proofs.Grammar.Equations
import Scriptlet.Proofs.Program.Nesting

/-!
# What is read keeps to the levels of nesting

A parser that may open so many levels of nesting yields only programs that need no more.
So the nesting of every item that a text is read into is within the limit, whatever
parentheses the text has besides.
-/

namespace Scriptlet

namespace Parser

variable {α β : Type}

/-- Whatever a parser succeeds with has the property. -/
def Yields (P : α → Prop) (p : Parser α) : Prop :=
  ∀ tokens a rest, p tokens = .ok a rest → P a

namespace Yields

variable {P : α → Prop} {Q : β → Prop}

theorem any (p : Parser α) : Yields (fun _ => True) p :=
  fun _ _ _ _ => True.intro

theorem pure {a : α} (h : P a) : Yields P (Pure.pure a : Parser α) := by
  intro tokens b rest hok
  obtain ⟨rfl, _⟩ := pure_eq_ok.mp hok
  exact h

theorem bind {p : Parser α} {f : α → Parser β} (hp : Yields P p)
    (hf : ∀ a, P a → Yields Q (f a)) : Yields Q (p >>= f) := by
  intro tokens b rest hok
  obtain ⟨a, middle, ha, hb⟩ := bind_eq_ok.mp hok
  exact hf a (hp tokens a middle ha) middle b rest hb

theorem failHere (cause : ParseError.Cause) : Yields P (Parser.failHere cause) :=
  fun _ _ _ hok => absurd hok failHere_ne_ok

theorem failBehind (cause : ParseError.Cause) (token : Token) :
    Yields P (Parser.failBehind cause token) :=
  fun _ _ _ hok => absurd hok failBehind_ne_ok

/-- What every step that goes on keeps holds at the end of a repetition. -/
theorem iterate {step : α → Parser (Option α)}
    (hstep : ∀ a, P a → Yields (fun next? => ∀ next ∈ next?, P next) (step a)) {a : α} (ha : P a) :
    Yields P (iterate step a) := by
  suffices ∀ (rounds tokens : List Token) (a b : α) (rest : List Token), P a →
      iterateWithin step rounds a tokens = .ok b rest → P b from
    fun tokens b rest hok => this tokens tokens a b rest ha hok
  intro rounds
  induction rounds with
  | nil =>
      intro tokens a b rest ha hok
      cases hok
      exact ha
  | cons _ rounds ih =>
      intro tokens a b rest ha hok
      rw [iterateWithin_cons] at hok
      split at hok
      · rename_i next behind hround
        exact ih behind next b rest (hstep a ha tokens _ behind hround next rfl) hok
      · cases hok
        exact ha
      · cases hok

end Yields

end Parser

open Scriptlet.Parser

/-- The parsers of a nesting yield what needs no more than so many levels. -/
structure Nested.Bounded (levels : Nat) (inner : Nested) : Prop where
  expr (p : Precedence) : Yields (fun e => e.nesting ≤ levels) (inner.expr p)
  block : Yields (fun items => Item.nestingAll items + 1 ≤ levels) inner.block

namespace Grammar

variable {α : Type} {P : α → Prop} {levels : Nat} {inner : Nested}

theorem listUpTo_yields (closing : ParseError.Required) {element : Parser α}
    (h : Yields P element) : Yields (fun as => ∀ a ∈ as, P a) (listUpTo closing element) := by
  have hmore (found : List α) (hfound : ∀ a ∈ found, P a) :
      Yields (fun as => ∀ a ∈ as, P a) (moreElements element found) := by
    refine .iterate (fun found hfound => ?_) hfound
    refine .bind (.any _) fun comma _ => ?_
    split
    · refine .bind h fun a ha => .pure fun next hnext => ?_
      cases hnext
      simpa using ⟨ha, hfound⟩
    · exact .pure (by simp)
  refine .bind (.any _) fun closed _ => ?_
  split
  · exact .pure (by simp)
  · refine .bind (P := fun as => ∀ a ∈ as, P a) ?_ fun as has => ?_
    · refine .bind h fun first hfirst => ?_
      refine .bind (hmore [first] (by simpa using hfirst)) fun as has => .pure ?_
      simpa using has
    · exact .bind (.any _) fun _ _ => .pure has

theorem exprs_yield (closing : ParseError.Required) (h : inner.Bounded levels) :
    Yields (fun es => Expr.nestingAll es ≤ levels) (listUpTo closing (inner.expr .lowest)) :=
  fun tokens es rest hok =>
    Expr.nestingAll_le.mpr (listUpTo_yields closing (h.expr .lowest) tokens es rest hok)

theorem choice_yields (h : inner.Bounded levels) :
    Yields (fun e => e.nesting ≤ levels + 1) (choice inner) := by
  refine .bind (.any _) fun _ _ => .bind (h.expr _) fun test htest => ?_
  refine .bind (.any _) fun _ _ => .bind h.block fun yes hyes => ?_
  refine .bind (.any _) fun more _ => ?_
  split
  · refine .bind h.block fun no hno => .pure ?_
    simp only [Expr.nesting, Item.nestingElse]
    omega
  · refine .pure ?_
    simp only [Expr.nesting, Item.nestingElse]
    omega

theorem function_yields (h : inner.Bounded levels) :
    Yields (fun e => e.nesting ≤ levels + 1) (function inner) := by
  refine .bind (.any _) fun _ _ => .bind (.any _) fun params _ => ?_
  refine .bind h.block fun body hbody => .pure ?_
  simp only [Expr.nesting]
  omega

theorem operand_yields (h : inner.Bounded levels) (token : Token) :
    Yields (fun e => e.nesting ≤ levels + 1) (operand inner token) := by
  unfold operand
  split
  · exact .pure (Nat.le_add_left 1 levels)
  · split
    · exact .pure (Nat.le_add_left 1 levels)
    · exact .failBehind _ _
  · exact .pure (Nat.le_add_left 1 levels)
  · exact .pure (Nat.le_add_left 1 levels)
  · exact .pure (Nat.le_add_left 1 levels)
  · exact .bind (.any _) fun _ _ => .bind (h.expr _) fun e he => .pure (Nat.succ_le_succ he)
  · exact .bind (.any _) fun _ _ => .bind (h.expr _) fun e he => .pure (Nat.succ_le_succ he)
  · exact .bind (h.expr _) fun e he => .bind (.any _) fun _ _ => .pure (Nat.le_succ_of_le he)
  · exact choice_yields h
  · exact function_yields h
  · exact .bind (exprs_yield _ h) fun es hes => .pure (Nat.succ_le_succ hes)
  · exact .failBehind _ _

theorem continued_yields (h : inner.Bounded levels) {left : Expr Unit}
    (hleft : left.nesting ≤ levels + 1) (continuation : Continuation) :
    Yields (fun e => e.nesting ≤ levels + 1) (continued inner left continuation) := by
  cases continuation with
  | operator op =>
      exact .bind (h.expr _) fun right hright =>
        .pure (Nat.max_le.mpr ⟨hleft, Nat.succ_le_succ hright⟩)
  | call =>
      exact .bind (exprs_yield _ h) fun args hargs =>
        .pure (Nat.max_le.mpr ⟨hleft, Nat.succ_le_succ hargs⟩)
  | index =>
      exact .bind (h.expr _) fun position hposition => .bind (.any _) fun _ _ =>
        .pure (Nat.max_le.mpr ⟨hleft, Nat.succ_le_succ hposition⟩)

theorem expr_yields (h : inner.Bounded levels) (floor : Precedence) :
    Yields (fun e => e.nesting ≤ levels + 1) (expr inner floor) := by
  refine .bind (.any _) fun token? _ => ?_
  split
  · exact .failHere _
  · refine .bind (operand_yields h _) fun left hleft => ?_
    refine .iterate (fun left hleft => ?_) hleft
    refine .bind (.any _) fun token? _ => ?_
    split
    · exact .pure (by simp)
    · refine .bind (.any _) fun continuation? _ => ?_
      split
      · exact .pure (by simp)
      · split
        · exact .pure (by simp)
        · refine .bind (.any _) fun _ _ => .bind (continued_yields h hleft _) fun e he => ?_
          exact .pure (by simpa using he)

theorem item_yields (h : inner.Bounded levels) :
    Yields (fun item => item.nesting ≤ levels) (item inner) := by
  have hstatement : Yields (fun item => item.nesting ≤ levels) (statement inner) := by
    refine .bind (.any _) fun token? _ => ?_
    split
    · exact .failHere _
    · refine .bind (.any _) fun _ _ => .bind (.any _) fun _ _ => .bind (.any _) fun _ _ => ?_
      exact .bind (h.expr _) fun e he => .pure he
    · exact .bind (.any _) fun _ _ => .bind (h.expr _) fun e he => .pure he
    · exact .bind h.block fun items hitems => .pure hitems
    · exact .bind (h.expr _) fun e he => .pure he
  exact .bind hstatement fun item hitem => .bind (.any _) fun _ _ => .pure hitem

theorem block_yields (h : inner.Bounded levels) :
    Yields (fun items => Item.nestingAll items + 1 ≤ levels + 1) (block inner) := by
  refine .bind (.any _) fun _ _ => ?_
  refine .bind (P := fun found => ∀ item ∈ found, item.nesting ≤ levels)
    (.iterate (fun found hfound => ?_) (by simp)) fun found hfound => ?_
  · refine .bind (.any _) fun token? _ => ?_
    split
    · exact .pure (by simp)
    · exact .pure (by simp)
    · refine .bind (item_yields h) fun item hitem => .pure fun next hnext => ?_
      cases hnext
      simpa using ⟨hitem, hfound⟩
  · refine .bind (.any _) fun _ _ => .pure (Nat.succ_le_succ (Item.nestingAll_le.mpr ?_))
    simpa using hfound

end Grammar

theorem Nested.within_bounded (levels : Nat) : (Nested.within levels).Bounded levels := by
  induction levels with
  | zero => exact ⟨fun _ => .failHere _, .failHere _⟩
  | succ levels ih => exact ⟨fun p => Grammar.expr_yields ih p, Grammar.block_yields ih⟩

/-- Every item of a program that is read keeps to the limit on nesting. -/
theorem Parsed.nesting_ofTokens (tokens : List Token) :
    Item.nestingAll (Parsed.ofTokens tokens).program ≤ maxNesting := by
  suffices ∀ (rounds : List Token) (found : Parsed) (tokens : List Token),
      (∀ item ∈ found.program, item.nesting ≤ maxNesting) →
        ∀ item ∈ (Parsed.collect rounds found tokens).program, item.nesting ≤ maxNesting from
    Item.nestingAll_le.mpr (this tokens ⟨[], []⟩ tokens (by simp))
  intro rounds
  induction rounds with
  | nil =>
      intro found tokens hfound
      simpa [Parsed.collect] using hfound
  | cons _ rounds ih =>
      intro found tokens hfound
      cases tokens with
      | nil => simpa [Parsed.collect] using hfound
      | cons token rest =>
          unfold Parsed.collect
          cases hitem : Item.parser (token :: rest) with
          | ok item rest =>
              have hnew := Grammar.item_yields (Nested.within_bounded maxNesting) _ _ _ hitem
              refine ih _ _ fun other hother => ?_
              rcases List.mem_cons.mp hother with rfl | hother
              · exact hnew
              · exact hfound other hother
          | error error rest => exact ih _ _ hfound

end Scriptlet
