import Scriptlet.Proofs.Grammar.Equations
import Scriptlet.Proofs.Grammar.Unlimited

/-!
# Progress of the grammar

Every expression and every block takes at least one token, so every repetition
of the grammar goes on only by reading.
-/

namespace Scriptlet

open Scriptlet.Parser

variable {α : Type} {tokens rest : List Token}

theorem Parser.AgreeUpTo.suffix {p : Parser α} {a : α} (h : ∀ count, AgreeUpTo count p p)
    (hok : p tokens = .ok a rest) : rest <:+ tokens := by
  have hleft := (h tokens.length tokens (Nat.le_refl _)).2
  rw [hok] at hleft
  exact hleft

/-- The parsers of a nesting leave a tail of what they are given, and a proper one
when they succeed. -/
structure Nested.Reading (inner : Nested) : Prop where
  suffix (count : Nat) : Parts.Related (AgreeUpTo count) inner inner
  expr {p : Precedence} {e : Expr Unit} {tokens rest : List Token} :
    inner.expr p tokens = .ok e rest → rest.length < tokens.length
  block {items : Program Unit} {tokens rest : List Token} :
    inner.block tokens = .ok items rest → rest.length < tokens.length

namespace Grammar

variable {inner : Nested}

theorem nextElement_advances {element : Parser α} (h : ∀ count, AgreeUpTo count element element) :
    Advances (nextElement element) where
  nil _ := rfl
  length_lt hok := by
    obtain ⟨_, _, _, _, rfl, helement, _⟩ := nextElement_eq_ok_some.mp hok
    exact Nat.lt_succ_of_le (AgreeUpTo.suffix h helement).length_le

theorem extend_advances (h : inner.Reading) (floor : Precedence) :
    Advances (extend inner floor) where
  nil _ := rfl
  length_lt {_ _ _ rest} hok := by
    obtain ⟨_, behind, _, rfl, _, _, hcontinued⟩ := (extend_eq_ok_some inner).mp hok
    have hrest : rest <:+ behind :=
      AgreeUpTo.suffix (fun count =>
        continued_related (AgreeUpTo.congruence count) (h.suffix count) _ _) hcontinued
    exact Nat.lt_succ_of_le hrest.length_le

theorem expr_length_lt (h : inner.Reading) {floor : Precedence} {e : Expr Unit}
    (hok : expr inner floor tokens = .ok e rest) : rest.length < tokens.length := by
  cases tokens with
  | nil => cases hok
  | cons token behind =>
      have hrest : rest <:+ behind :=
        AgreeUpTo.suffix (p := operand inner token >>= Parser.iterate (extend inner floor))
          (fun count => expr_rest_agree (h.suffix count) floor token) hok
      exact Nat.lt_succ_of_le hrest.length_le

theorem statement_length_lt (h : inner.Reading) {item : Item Unit}
    (hok : statement inner tokens = .ok item rest) : rest.length < tokens.length := by
  cases tokens with
  | nil => cases hok
  | cons token behind =>
      rw [statement_cons] at hok
      split at hok
      · simp only [bind_eq_ok, require_eq_ok, pure_eq_ok] at hok
        obtain ⟨_, _, ⟨_, rfl⟩, _, _, ⟨_, rfl⟩, _, _, hexpr, _, rfl⟩ := hok
        have hlt := h.expr hexpr
        simp only [List.length_cons]
        omega
      · simp only [bind_eq_ok, pure_eq_ok] at hok
        obtain ⟨_, _, hexpr, _, rfl⟩ := hok
        exact Nat.lt_succ_of_lt (h.expr hexpr)
      · simp only [bind_eq_ok, pure_eq_ok] at hok
        obtain ⟨_, _, hblock, _, rfl⟩ := hok
        exact h.block hblock
      · simp only [bind_eq_ok, pure_eq_ok] at hok
        obtain ⟨_, _, hexpr, _, rfl⟩ := hok
        exact h.expr hexpr

theorem item_length_lt (h : inner.Reading) {item : Item Unit}
    (hok : Grammar.item inner tokens = .ok item rest) : rest.length < tokens.length := by
  simp only [Grammar.item, Steps.accept, bind_eq_ok, pure_eq_ok] at hok
  obtain ⟨_, middle, hstatement, _, last, haccept, _, rfl⟩ := hok
  have hrest : last <:+ middle :=
    AgreeUpTo.suffix (fun count => (AgreeUpTo.congruence count).accept _) haccept
  exact Nat.lt_of_le_of_lt hrest.length_le (statement_length_lt h hstatement)

theorem oneMore_advances (h : inner.Reading) : Advances (oneMore inner) where
  nil _ := rfl
  length_lt hok := by
    obtain ⟨_, _, hitem, _⟩ := (oneMore_eq_ok_some inner).mp hok
    exact item_length_lt h hitem

theorem block_length_lt (h : inner.Reading) {items : Program Unit}
    (hok : block inner tokens = .ok items rest) : rest.length < tokens.length := by
  simp only [block, Steps.require, bind_eq_ok, require_eq_ok, pure_eq_ok] at hok
  obtain ⟨_, behind, ⟨_, rfl⟩, _, _, hitems, close, last, ⟨_, rfl⟩, _, rfl⟩ := hok
  have hrest : close :: last <:+ behind :=
    AgreeUpTo.suffix (fun count => (AgreeUpTo.congruence count).iterate [] fun found =>
      oneMore_related (AgreeUpTo.congruence count) (h.suffix count) found) hitems
  have hle := hrest.length_le
  simp only [List.length_cons] at hle ⊢
  omega

end Grammar

namespace Nested

theorem within_reading (levels : Nat) : (within levels).Reading := by
  induction levels with
  | zero =>
      refine ⟨fun count => ⟨fun p tokens _ => ⟨rfl, List.suffix_rfl⟩,
        fun tokens _ => ⟨rfl, List.suffix_rfl⟩⟩, fun h => ?_, fun h => ?_⟩
      · cases h
      · cases h
  | succ levels ih =>
      exact ⟨fun count => ⟨fun p => Grammar.expr_agree (fun less _ => ih.suffix less) p,
        Grammar.block_agree fun less _ => ih.suffix less⟩,
        Grammar.expr_length_lt ih, Grammar.block_length_lt ih⟩

theorem unlimited_reading : unlimited.Reading where
  suffix _ :=
    ⟨fun p tokens _ => ⟨rfl, (((within_reading (tokens.length + 1)).suffix _).expr p tokens
        (Nat.le_refl _)).2⟩,
      fun tokens _ => ⟨rfl, (((within_reading (tokens.length + 1)).suffix _).block tokens
        (Nat.le_refl _)).2⟩⟩
  expr {_ _ tokens _} h := (within_reading (tokens.length + 1)).expr h
  block {_ tokens _} h := (within_reading (tokens.length + 1)).block h

end Nested

end Scriptlet
