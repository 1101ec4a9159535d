import Scriptlet.Proofs.Grammar.Completeness

/-!
# The parser accepts exactly the layered grammar

Soundness and completeness put together. Since a parser is a function, a list of
tokens is a phrase for one expression at most, so the layers are unambiguous. A limit
on nesting makes the parser give up and never makes it read anything else, and it
gives up on no list of fewer tokens than there are levels.
-/

namespace Scriptlet

open Scriptlet.Parser

variable {tokens rest : List Token}

namespace Grammar

open Nested (unlimited unlimited_sound)

theorem IsExpr.read {p : Precedence} {c : List Token} {e : Expr Unit} {dangling : Bool}
    (h : IsExpr p c e dangling) (hstops : Stops p dangling rest) :
    unlimited.expr p (c ++ rest) = .ok e rest := by
  have hreach : p.rank ≤ p.reach.rank := rank_le_reach p h.rank_le
  exact expr_of_loop (fun _ => h.complete (hstops.mono hreach)) hstops

theorem unlimited_expr_iff {p : Precedence} (hp : p.rank ≤ Precedence.unary.rank)
    {e : Expr Unit} :
    unlimited.expr p tokens = .ok e rest ↔
      ∃ c dangling, tokens = c ++ rest ∧ IsExpr p c e dangling ∧ Stops p dangling rest := by
  constructor
  · intro hok
    exact unlimited_sound.expr hp hok
  · intro hphrase
    obtain ⟨c, dangling, rfl, he, hstops⟩ := hphrase
    exact he.read hstops

theorem unlimited_item_iff {item : Item Unit} :
    Grammar.item unlimited tokens = .ok item rest ↔
      ∃ c ending, tokens = c ++ rest ∧ IsItem c item ending ∧ ending.Stops rest := by
  constructor
  · intro hok
    exact item_sound unlimited_sound hok
  · intro hphrase
    obtain ⟨c, ending, rfl, hitem, hstops⟩ := hphrase
    exact hitem.complete hstops

/-- At the end of the text nothing continues an expression. -/
theorem Stops.nil (p : Precedence) (dangling : Bool) : Stops p dangling [] := by
  simp [Stops]

theorem Ending.stops_nil (ending : Ending) : ending.Stops [] := by
  cases ending with
  | semicolon => trivial
  | block => simp [Ending.Stops]
  | expression dangling => exact ⟨.nil .lowest dangling, by simp⟩

/-- The tokens of an expression decide the expression. -/
theorem IsExpr.unambiguous {p : Precedence} {c : List Token} {e e' : Expr Unit}
    {dangling dangling' : Bool} (h : IsExpr p c e dangling) (h' : IsExpr p c e' dangling') :
    e = e' := by
  have hread := h.read (Stops.nil p dangling)
  have hread' := h'.read (Stops.nil p dangling')
  rw [hread] at hread'
  cases hread'
  rfl

end Grammar

/-- Without a limit on nesting, reading an expression succeeds exactly on the phrases
of the layered grammar that nothing behind them continues, each of which stands for one
expression. The limit of a program is felt only as an error that says so. -/
theorem Expr.parser_exact (p : Precedence) (hp : p.rank ≤ Precedence.unary.rank)
    (tokens : List Token) :
    (∀ e rest, Nested.unlimited.expr p tokens = .ok e rest ↔
      ∃ c dangling, tokens = c ++ rest ∧ Grammar.IsExpr p c e dangling ∧
        Grammar.Stops p dangling rest) ∧
    (∀ e e' dangling dangling', Grammar.IsExpr p tokens e dangling →
      Grammar.IsExpr p tokens e' dangling' → e = e') ∧
    (∀ levels, tokens.length < levels →
      (Nested.within levels).expr p tokens = Nested.unlimited.expr p tokens) ∧
    ((∃ blamed rest, Expr.parser p tokens = .error ⟨.tooDeep, blamed⟩ rest) ∨
      Expr.parser p tokens = Nested.unlimited.expr p tokens) := by
  refine ⟨fun e rest => ?_, fun e e' dangling dangling' h h' => ?_, fun levels hlevels => ?_, ?_⟩
  · exact Grammar.unlimited_expr_iff hp
  · exact h.unambiguous h'
  · have hagree := (Nested.unlimited_agree hlevels).expr p tokens (Nat.le_refl _)
    exact hagree.1.symm
  · exact (Nested.within_cutsOff maxNesting).expr p tokens

/-- A product binds more tightly than a sum, and behind an order nothing is left. -/
theorem Expr.parser_exact_sum :
    ∃ c dangling, [⟨.ident, 0, "a"⟩, ⟨.plus, 0, "+"⟩, ⟨.ident, 0, "b"⟩, ⟨.star, 0, "*"⟩,
        ⟨.ident, 0, "c"⟩, ⟨.rightParen, 0, ")"⟩] = c ++ [(⟨.rightParen, 0, ")"⟩ : Token)] ∧
      Grammar.IsExpr .lowest c
        (.binary (.var "a") .add (.binary (.var "b") .multiply (.var "c"))) dangling ∧
      Grammar.Stops .lowest dangling [⟨.rightParen, 0, ")"⟩] :=
  ((Expr.parser_exact .lowest (by decide) _).1 _ _).mp rfl

end Scriptlet
