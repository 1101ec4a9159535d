import Mathlib.Data.List.Induction
import Scriptlet.Proofs.Grammar.Exactness
import Scriptlet.Proofs.Grammar.Frames
import Scriptlet.Proofs.Grammar.Nesting
import Scriptlet.Proofs.Program.Loops

/-!
# The limit on nesting

The limit on nesting only cuts, and exactly where one level too many would open. Every
parenthesis opens a level, though no trace of it is left in the program that is read. A
chain that grows to the left opens no level for its links, however many they are.
-/

namespace Scriptlet

open Scriptlet.Parser

namespace Watched

variable {α β : Type}

/-- What a reader notes is noted whatever follows it. -/
theorem frames_subset_bind (p : Watched α) (f : α → Watched β) (depth : Nat)
    (tokens : List Token) : (p depth tokens).frames ⊆ ((p >>= f) depth tokens).frames := by
  rcases hrun : p depth tokens with ⟨frames, result⟩
  cases result with
  | ok a rest =>
      rw [bind_of_ok hrun]
      exact List.subset_append_left _ _
  | error error rest =>
      rw [bind_of_error hrun]
      exact List.Subset.refl _

/-- Each parenthesis of a row of them opens a level for what is behind it. -/
theorem expr_opens {opening : Token} (hopening : opening.kind = .leftParen) {count levels : Nat}
    (hlevels : count < levels) (floor : Precedence) (depth : Nat) (rest : List Token) :
    ∃ frame ∈ (expr levels floor depth (List.replicate count opening ++ rest)).frames,
      frame.depth = depth + count + 1 := by
  induction count generalizing levels floor depth with
  | zero =>
      obtain ⟨levels, rfl⟩ := Nat.exists_eq_succ_of_ne_zero (Nat.ne_of_gt hlevels)
      exact ⟨_, List.mem_cons_self, rfl⟩
  | succ count ih =>
      obtain ⟨levels, rfl⟩ := Nat.exists_eq_succ_of_ne_zero (Nat.ne_zero_of_lt hlevels)
      obtain ⟨frame, hframe, hdepth⟩ := ih (Nat.lt_of_succ_lt_succ hlevels) .lowest (depth + 1)
      refine ⟨frame, List.mem_cons_of_mem _ ?_, by omega⟩
      change frame ∈ (Grammar.expr (parts levels) floor (depth + 1)
        (opening :: (List.replicate count opening ++ rest))).frames
      generalize List.replicate count opening ++ rest = more at hframe ⊢
      have hoperand : frame ∈
          (Grammar.operand (parts levels) opening (depth + 1) more).frames := by
        simp only [Grammar.operand, hopening]
        exact frames_subset_bind _ _ _ _ hframe
      have hnext : (Steps.next? : Watched _) (depth + 1) (opening :: more) =
          ⟨[], .ok (some opening) more⟩ :=
        rfl
      unfold Grammar.expr
      rw [bind_of_ok hnext]
      exact frames_subset_bind _ _ _ _ hoperand

end Watched

namespace Grammar

/-- A chain that grows to the left. A link goes on with the whole chain before it, and what
is inside of the link is read by `inner`. What stands behind the chain may not bind more
tightly than `bound`, and is no `else` if the chain is dangling. -/
inductive Chain (inner : Nested) : List Token → Expr Unit → Precedence → Bool → Prop where
  | start {token : Token} {behind : List Token} {e : Expr Unit} {bound : Precedence}
      {dangling : Bool}
      (h : ∀ rest, Stops bound dangling rest → operand inner token (behind ++ rest) = .ok e rest) :
      Chain inner (token :: behind) e bound dangling
  | link {c d : List Token} {left e : Expr Unit} {before bound : Precedence}
      {open? dangling : Bool} {token : Token} {continuation : Continuation}
      (h : Chain inner c left before open?)
      (htoken : Continuation.ofKind? token.kind = some continuation)
      (hbefore : continuation.precedence.rank ≤ before.rank)
      (hlink : ∀ rest, Stops bound dangling rest →
        continued inner left continuation (d ++ rest) = .ok e rest) :
      Chain inner (c ++ token :: d) e bound dangling

variable {inner : Nested} {c : List Token} {e : Expr Unit} {bound : Precedence} {dangling : Bool}

/-- A chain is read by the loop over continuations alone. -/
theorem Chain.read (h : Chain inner c e bound dangling) (hreading : inner.Reading)
    {rest : List Token} (hstops : Stops bound dangling rest) :
    expr inner .lowest (c ++ rest) = iterate (extend inner .lowest) e rest := by
  induction h generalizing rest with
  | start h => rw [List.cons_append, expr_cons, bind_of_ok (h rest hstops)]
  | @link c d left e before bound open? dangling token continuation _ htoken hbefore hlink ih =>
      have helse : token.kind ≠ .elseWord := by
        intro heq
        rw [heq] at htoken
        cases htoken
      have hrank : (Precedence.of token.kind).rank ≤ before.rank := by
        rwa [Precedence.of_eq htoken]
      rw [List.append_assoc, List.cons_append, ih (.of_token hrank helse)]
      exact iterate_of_some (extend_advances hreading .lowest)
        ((extend_eq_ok_some inner).mpr ⟨token, d ++ rest, continuation, rfl, htoken,
          continuation.rank_precedence_pos, hlink rest hstops⟩)

theorem operand_ok_kind {token : Token} {tokens rest : List Token}
    (h : operand inner token tokens = .ok e rest) : token.kind ∈ operandKinds := by
  rw [operand_apply] at h
  revert h
  cases token.kind <;> simp [operandKinds]

/-- A chain begins as an expression does. -/
theorem Chain.starts (h : Chain inner c e bound dangling) :
    ∃ token others, c = token :: others ∧ token.kind ∈ operandKinds := by
  induction h with
  | @start token behind _ _ _ h =>
      exact ⟨token, behind, rfl, operand_ok_kind (h [] (Stops.nil _ _))⟩
  | link _ _ _ _ ih =>
      obtain ⟨token, others, rfl, hkind⟩ := ih
      exact ⟨token, _, rfl, hkind⟩

/-- A chain is an expression, of one level more than is read inside its links, wherever nothing
continues it. -/
theorem Chain.complete {levels : Nat} (h : Chain (.within levels) c e bound dangling)
    {rest : List Token} (hstops : Stops .lowest dangling rest) :
    (Nested.within (levels + 1)).expr .lowest (c ++ rest) = .ok e rest := by
  have hreading := Nested.within_reading levels
  have hend : iterate (extend (Nested.within levels) .lowest) e rest = .ok e rest :=
    iterate_of_none (extend_advances hreading .lowest)
      ((extend_eq_ok_none _).mpr ⟨rfl, fun token htoken => (hstops token htoken).1⟩)
  exact (h.read hreading (hstops.mono (Nat.zero_le _))).trans hend

/-- A chain alone is an item. -/
theorem Chain.item {levels : Nat} (h : Chain (.within levels) c e bound dangling) :
    Grammar.item (Nested.within (levels + 1)) c = .ok (.expr e) [] := by
  have hexpr := h.complete (Stops.nil .lowest dangling)
  rw [List.append_nil] at hexpr
  obtain ⟨token, others, rfl, hkind⟩ := h.starts
  have hstatement := statement_expr hkind hexpr
  have hnone : accept .semicolon [] = .ok false [] := rfl
  unfold Grammar.item
  dsimp only [Steps.accept]
  rw [bind_of_ok hstatement, bind_of_ok hnone]
  rfl

/-- As tokens of a program it is all there is in the program. -/
theorem Chain.ofTokens (h : Chain (.within 1023) c e bound dangling) :
    Parsed.ofTokens c = ⟨[.expr e], []⟩ := by
  have hitem : Item.parser c = .ok (.expr e) [] := h.item
  obtain ⟨token, others, rfl, -⟩ := h.starts
  unfold Parsed.ofTokens Parsed.collect
  rw [hitem]
  cases others <;> rfl

/-- A sum of names, however many, is a chain. -/
theorem Chain.sum {levels : Nat} {first : Token} (hfirst : first.kind = .ident)
    (others : List (Token × Token))
    (hothers : ∀ link ∈ others, link.1.kind = .plus ∧ link.2.kind = .ident) :
    Chain (.within (levels + 1)) (first :: others.flatMap fun link => [link.1, link.2])
      (others.foldl (fun left link => .binary left .add (.var link.2.lexeme)) (.var first.lexeme))
      .sum false := by
  have hname {token : Token} (hkind : token.kind = .ident) (inner : Nested) (rest : List Token) :
      operand inner token rest = .ok (.var token.lexeme) rest := by
    rw [operand_apply, hkind]
  induction others using List.reverseRecOn with
  | nil => exact .start fun rest _ => hname hfirst _ rest
  | append_singleton others link ih =>
      have hinit := ih fun other hother => hothers other (List.mem_append_left _ hother)
      obtain ⟨hplus, hident⟩ := hothers link (by simp)
      have htoken : Continuation.ofKind? link.1.kind = some (.operator .add) := by
        rw [hplus]
        rfl
      rw [List.flatMap_append, List.foldl_append, ← List.cons_append]
      refine .link hinit htoken (Nat.le_refl _) (d := [link.2]) fun rest hstops => ?_
      refine continued_operator ?_
      change expr (Nested.within levels) .sum (link.2 :: rest) = _
      rw [expr_cons, bind_of_ok (hname hident _ rest)]
      exact iterate_of_none (extend_advances (Nested.within_reading levels) .sum)
        ((extend_eq_ok_none _).mpr ⟨rfl, fun token htoken => (hstops token htoken).1⟩)

end Grammar

/-- What the limit on nesting makes of a run without it: nothing, unless more levels than
allowed are open at some time; and otherwise an error that says so, about the tokens to come
where the first level too many would open. -/
def Watched.Run.LimitedTo {α : Type} (run : Watched.Run α)
    (result : EStateM.Result ParseError (List Token) α) : Prop :=
  ((∀ frame ∈ run.frames, frame.depth ≤ 1024) → result = run.result) ∧
  ((∃ frame ∈ run.frames, 1024 < frame.depth) → ∃ before frame after,
    run.frames = before ++ frame :: after ∧ (∀ earlier ∈ before, earlier.depth ≤ 1024) ∧
      frame.depth = 1025 ∧ result = .error ⟨.tooDeep, frame.tokens⟩ frame.tokens)

theorem Watched.Run.Cut.limitedTo {α : Type} {run : Watched.Run α}
    {result : EStateM.Result ParseError (List Token) α} (h : run.Cut maxNesting result) :
    run.LimitedTo result := by
  cases h with
  | whole hframes =>
      refine ⟨fun _ => rfl, fun hdeep => ?_⟩
      obtain ⟨frame, hmem, hdepth⟩ := hdeep
      exact absurd (hframes frame hmem) (Nat.not_le_of_lt hdepth)
  | short before frame after hframes hbefore hframe =>
      refine ⟨fun hall => ?_, fun _ => ⟨before, frame, after, hframes, hbefore, hframe, rfl⟩⟩
      have hle := hall frame (by simp [hframes])
      rw [hframe] at hle
      exact absurd hle (by decide)

/-- **The limit on nesting only cuts, and exactly where one level too many would open.** With
no level open, an item or an expression is read as without a limit if no more levels than
allowed are ever open, and is given up where the first one beyond would open. So all items
of a program keep to the limit; and chains that grow to the left are read whatever their
length. -/
theorem Nested.limit_cuts_exactly (tokens : List Token) :
    (∀ levels, 1024 < levels →
      (Watched.item levels 0 tokens).result = Grammar.item unlimited tokens ∧
        (Watched.item levels 0 tokens).LimitedTo (Item.parser tokens)) ∧
    (∀ levels, 1024 < levels → ∀ floor,
      (Watched.expr levels floor 0 tokens).result = unlimited.expr floor tokens ∧
        (Watched.expr levels floor 0 tokens).LimitedTo (Expr.parser floor tokens)) ∧
    (∀ item ∈ (Parsed.ofTokens tokens).program, item.nesting ≤ 1024) ∧
    (∀ e bound dangling, Grammar.Chain (.within 1023) tokens e bound dangling →
      Parsed.ofTokens tokens = ⟨[.expr e], []⟩) := by
  have hparts (levels : Nat) (h : maxNesting < levels) := Watched.Cuts.parts h 0
  refine ⟨fun levels h => ⟨Watched.item_result levels 0 tokens, ?_⟩,
    fun levels h floor => ⟨Watched.expr_result levels floor 0 tokens, ?_⟩, ?_, ?_⟩
  · have hcut := Grammar.item_related (Watched.Cuts.steps 0 maxNesting) (hparts levels h) tokens
    rw [Nat.zero_add] at hcut
    exact hcut.limitedTo
  · have hcut := (hparts levels h).expr floor tokens
    rw [Nat.zero_add] at hcut
    exact hcut.limitedTo
  · exact Item.nestingAll_le.mp (Parsed.nesting_ofTokens tokens)
  · exact fun e bound dangling h => h.ofTokens

/-- A row of parentheses is cut, and a longer sum is not. -/
theorem Nested.limit_cuts_exactly_parens :
    (∃ tokens, Expr.parser .lowest (List.replicate 1024 ⟨.leftParen, 0, "("⟩) =
      .error ⟨.tooDeep, tokens⟩ tokens) ∧
    ∃ e, Parsed.ofTokens (⟨.ident, 0, "x"⟩ ::
      (List.replicate 2000 ((⟨.plus, 0, "+"⟩ : Token), (⟨.ident, 0, "x"⟩ : Token))).flatMap
        fun link => [link.1, link.2]) = ⟨[.expr e], []⟩ := by
  constructor
  · have hopening : (⟨.leftParen, 0, "("⟩ : Token).kind = .leftParen := rfl
    obtain ⟨frame, hmem, hdepth⟩ :=
      Watched.expr_opens hopening (by decide : 1024 < 1025) .lowest 0 []
    rw [List.append_nil] at hmem
    have hdeep : 1024 < frame.depth := by omega
    obtain ⟨_, last, _, _, _, _, hcut⟩ :=
      ((limit_cuts_exactly _).2.1 1025 (by decide) .lowest).2.2 ⟨frame, hmem, hdeep⟩
    exact ⟨last.tokens, hcut⟩
  · have hname : (⟨.ident, 0, "x"⟩ : Token).kind = .ident := rfl
    have hchain : Grammar.Chain (.within 1023) _ _ _ _ := Grammar.Chain.sum hname
      (List.replicate 2000 (⟨.plus, 0, "+"⟩, ⟨.ident, 0, "x"⟩)) fun link hlink => by
        rw [List.eq_of_mem_replicate hlink]
        exact ⟨rfl, rfl⟩
    exact ⟨_, (limit_cuts_exactly _).2.2.2 _ _ _ hchain⟩

end Scriptlet
