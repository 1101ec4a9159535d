import Scriptlet.Proofs.Grammar.Limit

/-!
# Other tokens inside of braces

An opening brace is read by a block and by nothing else. So the tokens behind a brace can be
exchanged for others from which every block is read as before, and what is read around the
braces stays the same too. Main result: `Grammar.item_exchanges`.
-/

namespace Scriptlet

open Scriptlet.Parser

/-- Whatever block is read from the first tokens, with a brace before them, is read from the
second ones. -/
def SameBlocks (inside inside' : List Token) : Prop :=
  ∀ levels (brace : Token) items rest, brace.kind = .leftBrace →
    (Nested.within levels).block (brace :: inside) = .ok items rest →
      (Nested.within levels).block (brace :: inside') = .ok items rest

namespace Parser

variable {α β : Type}

/-- What a parser has read before `rest` is read in the same way when something else that
begins like `rest` comes behind it, and when the tokens behind a brace are exchanged. -/
structure Stable (p : Parser α) (a : α) (read rest : List Token) : Prop where
  behind {rest' : List Token} : rest'.head? = rest.head? → p (read ++ rest') = .ok a rest'
  inside {before behind inside : List Token} {brace : Token} : read = before ++ brace :: behind →
    brace.kind = .leftBrace → SameBlocks (behind ++ rest) inside →
      p (before ++ brace :: inside) = .ok a rest

/-- A parser of which everything that it reads is stable. -/
structure Exchanges (p : Parser α) : Prop where
  ok {a : α} {tokens rest : List Token} :
    p tokens = .ok a rest → ∃ read, tokens = read ++ rest ∧ Stable p a read rest

namespace Stable

variable {p q : Parser α} {a : α} {read rest : List Token} {token : Token}

theorem nil (h : ∀ rest', rest'.head? = rest.head? → p rest' = .ok a rest') :
    Stable p a [] rest where
  behind hhead := h _ hhead
  inside hread := by simp at hread

/-- A token is read that is no brace. -/
theorem cons (hkind : token.kind ≠ .leftBrace) (hp : ∀ tokens, p (token :: tokens) = q tokens)
    (h : Stable q a read rest) : Stable p a (token :: read) rest where
  behind hhead := (hp _).trans (h.behind hhead)
  inside hread hbrace hsame := by
    rcases List.cons_eq_append_iff.mp hread with ⟨rfl, heq⟩ | ⟨before, rfl, heq⟩
    · cases heq
      exact absurd hbrace hkind
    · exact (hp _).trans (h.inside heq hbrace hsame)

/-- The next token decides what to do and stays. -/
theorem of_next (hp : ∀ tokens, p (token :: tokens) = q (token :: tokens))
    (h : Stable q a read rest) (hhead : (read ++ rest).head? = some token) :
    Stable p a read rest where
  behind {rest'} hrest := by
    have hnext : (read ++ rest').head? = some token := by
      rw [← hhead, List.head?_append, List.head?_append, hrest]
    obtain ⟨tokens, htokens⟩ := List.head?_eq_some_iff.mp hnext
    have hok := h.behind hrest
    rw [htokens] at hok ⊢
    exact (hp tokens).trans hok
  inside {before behind inside brace} hread hbrace hsame := by
    have hnext : (before ++ brace :: inside).head? = some token := by
      rw [← hhead, hread]
      cases before <;> rfl
    obtain ⟨tokens, htokens⟩ := List.head?_eq_some_iff.mp hnext
    have hok := h.inside hread hbrace hsame
    rw [htokens] at hok ⊢
    exact (hp tokens).trans hok

theorem bind {f : α → Parser β} {b : β} {more : List Token} (h : Stable p a read (more ++ rest))
    (hf : Stable (f a) b more rest) : Stable (p >>= f) b (read ++ more) rest where
  behind {rest'} hrest := by
    have hfirst : p (read ++ (more ++ rest')) = .ok a (more ++ rest') :=
      h.behind (by rw [List.head?_append, List.head?_append, hrest])
    rw [List.append_assoc, bind_of_ok hfirst]
    exact hf.behind hrest
  inside {before behind inside brace} hread hbrace hsame := by
    -- The brace is read by the first parser or by what follows it.
    rcases List.append_eq_append_iff.mp hread with ⟨before, rfl, hmore⟩ | ⟨others, rfl, hothers⟩
    · have hfirst : p (read ++ (before ++ brace :: inside)) =
          .ok a (before ++ brace :: inside) := by
        refine h.behind ?_
        rw [hmore]
        cases before <;> rfl
      rw [List.append_assoc, bind_of_ok hfirst]
      exact hf.inside hmore hbrace hsame
    · cases others with
      | nil =>
          obtain rfl : brace :: behind = more := by simpa using hothers
          have hhead : (brace :: inside).head? = (brace :: behind ++ rest).head? := rfl
          have hfirst : p (before ++ brace :: inside) = .ok a (brace :: inside) := by
            simpa using h.behind hhead
          rw [bind_of_ok hfirst]
          exact hf.inside (List.nil_append _).symm hbrace hsame
      | cons other others =>
          obtain ⟨rfl, hmore⟩ := List.cons_eq_cons.mp hothers
          subst hmore
          rw [List.append_eq, List.append_assoc] at hsame
          rw [bind_of_ok (h.inside rfl hbrace hsame)]
          exact hf.behind rfl

end Stable

namespace Exchanges

variable {p : Parser α}

theorem pure (a : α) : Exchanges (Pure.pure a) where
  ok hok := by
    obtain ⟨rfl, rfl⟩ := pure_eq_ok.mp hok
    exact ⟨[], rfl, .nil fun _ _ => rfl⟩

theorem bind {f : α → Parser β} (h : Exchanges p) (hf : ∀ a, Exchanges (f a)) :
    Exchanges (p >>= f) where
  ok hok := by
    obtain ⟨a, middle, ha, hb⟩ := bind_eq_ok.mp hok
    obtain ⟨read, rfl, hread⟩ := h.ok ha
    obtain ⟨more, rfl, hmore⟩ := (hf a).ok hb
    exact ⟨read ++ more, (List.append_assoc ..).symm, hread.bind hmore⟩

theorem failBehind (cause : ParseError.Cause) (token : Token) :
    Exchanges (failBehind cause token : Parser α) where
  ok hok := absurd hok failBehind_ne_ok

theorem unaryOp (token : Token) : Exchanges (Steps.unaryOp token) := by
  simp only [Steps.unaryOp]
  split
  · exact pure _
  · exact failBehind _ _

/-- A token just read is no brace. -/
theorem ok_cons {q : Parser α} {a : α} {token : Token} {behind rest : List Token}
    (hkind : token.kind ≠ .leftBrace) (hp : ∀ tokens, p (token :: tokens) = q tokens)
    (hq : Exchanges q) (hok : p (token :: behind) = .ok a rest) :
    ∃ read, token :: behind = read ++ rest ∧ Stable p a read rest := by
  rw [hp] at hok
  obtain ⟨read, rfl, hread⟩ := hq.ok hok
  exact ⟨token :: read, rfl, .cons hkind hp hread⟩

/-- A token that stays decides what to do. -/
theorem ok_of_next {q : Parser α} {a : α} {token : Token} {behind rest : List Token}
    (hp : ∀ tokens, p (token :: tokens) = q (token :: tokens)) (hq : Exchanges q)
    (hok : p (token :: behind) = .ok a rest) :
    ∃ read, token :: behind = read ++ rest ∧ Stable p a read rest := by
  rw [hp] at hok
  obtain ⟨read, hread, hstable⟩ := hq.ok hok
  exact ⟨read, hread, .of_next hp hstable (by rw [← hread]; rfl)⟩

theorem accept {kind : Token.Kind} (hkind : kind ≠ .leftBrace) : Exchanges (accept kind) where
  ok {accepted tokens rest} hok := by
    cases accepted with
    | true =>
        obtain ⟨token, rfl, rfl⟩ := accept_eq_ok_true.mp hok
        exact ok_cons hkind (fun _ => accept_eq_ok_true.mpr ⟨token, rfl, rfl⟩) (pure true) hok
    | false =>
        obtain ⟨rfl, hnot⟩ := accept_eq_ok_false.mp hok
        refine ⟨[], rfl, .nil fun _ hhead => accept_eq_ok_false.mpr ⟨rfl, ?_⟩⟩
        rwa [hhead]

theorem require {what : ParseError.Required} (hkind : what.kind ≠ .leftBrace) :
    Exchanges (require what) where
  ok hok := by
    obtain ⟨htoken, rfl⟩ := require_eq_ok.mp hok
    exact ok_cons (htoken ▸ hkind) (fun _ => require_eq_ok.mpr ⟨htoken, rfl⟩) (pure _) hok

theorem iterate {step : α → Parser (Option α)} (hadvances : Advances step)
    (hstep : ∀ a, Exchanges (step a)) (a : α) : Exchanges (iterate step a) where
  ok {b tokens rest} hok := by
    have hround (a : α) : Parser.iterate step a = step a >>= fun next? =>
        next?.elim (Pure.pure a) (Parser.iterate step) := by
      funext tokens
      rw [iterate_eq hadvances]
      change _ = EStateM.bind _ _ tokens
      unfold EStateM.bind
      rcases step a tokens with ⟨_ | _, rest⟩ | ⟨error, rest⟩ <;> rfl
    have hrounds := repeats_iterate hadvances a tokens
    rw [hok] at hrounds
    clear hok
    generalize hresult : EStateM.Result.ok b rest = result at hrounds
    induction hrounds with
    | stop hstop =>
        cases hresult
        rw [hround]
        obtain ⟨read, rfl, hread⟩ := (hstep _).ok hstop
        have hend : Stable (Pure.pure b) b [] rest := .nil fun _ _ => rfl
        rw [← List.nil_append rest] at hread
        exact ⟨read, rfl, by simpa using hread.bind hend⟩
    | fail => cases hresult
    | next hnext _ ih =>
        obtain ⟨more, rfl, hmore⟩ := ih hresult
        obtain ⟨read, rfl, hread⟩ := (hstep _).ok hnext
        rw [hround]
        exact ⟨read ++ more, (List.append_assoc ..).symm, hread.bind hmore⟩

end Exchanges

end Parser

/-- Both parsers of a nesting exchange tokens inside of braces. -/
structure Nested.Exchanges (inner : Nested) : Prop where
  expr (floor : Precedence) : Parser.Exchanges (inner.expr floor)
  block : Parser.Exchanges inner.block

namespace Grammar

variable {α : Type} {inner : Nested}

theorem nextElement_exchanges {element : Parser α} (h : Exchanges element) (found : List α) :
    Exchanges (nextElement element found) := by
  refine .bind (.accept (by decide)) fun more => ?_
  split
  · exact .bind h fun _ => .pure _
  · exact .pure none

theorem listUpTo_exchanges {closing : ParseError.Required} (hclosing : closing.kind ≠ .leftBrace)
    {element : Parser α} (h : Exchanges element)
    (hreads : ∀ count, AgreeUpTo count element element) : Exchanges (listUpTo closing element) := by
  refine .bind (.accept hclosing) fun closed => ?_
  split
  · exact .pure []
  · refine .bind (.bind h fun first => .bind ?_ fun _ => .pure _) fun found => ?_
    · exact .iterate (nextElement_advances hreads) (nextElement_exchanges h) [first]
    · exact .bind (.require hclosing) fun _ => .pure _

theorem exprs_exchanges {closing : ParseError.Required} (hclosing : closing.kind ≠ .leftBrace)
    (h : inner.Exchanges) (hreads : inner.Reading) :
    Exchanges (listUpTo closing (inner.expr .lowest)) :=
  listUpTo_exchanges hclosing (h.expr .lowest) fun count => (hreads.suffix count).expr .lowest

theorem choice_exchanges (h : inner.Exchanges) : Exchanges (choice inner) := by
  refine .bind (.require (by decide)) fun _ => .bind (h.expr _) fun test => ?_
  refine .bind (.require (by decide)) fun _ => .bind h.block fun yes => ?_
  refine .bind (.accept (by decide)) fun more => ?_
  split
  · exact .bind h.block fun _ => .pure _
  · exact .pure _

theorem function_exchanges (h : inner.Exchanges) : Exchanges (function inner) := by
  have hparameter : Exchanges parameter := .bind (.require (by decide)) fun _ => .pure _
  refine .bind (.require (by decide)) fun _ => .bind ?_ fun _ => .bind h.block fun _ => .pure _
  exact listUpTo_exchanges (by decide) hparameter fun count =>
    parameter_related (AgreeUpTo.congruence count)

theorem operand_exchanges (h : inner.Exchanges) (hreads : inner.Reading) (token : Token) :
    Exchanges (operand inner token) := by
  unfold operand
  split
  · exact .pure _
  · split
    · exact .pure _
    · exact .failBehind _ _
  · exact .pure _
  · exact .pure _
  · exact .pure _
  · exact .bind (.unaryOp _) fun _ => .bind (h.expr _) fun _ => .pure _
  · exact .bind (.unaryOp _) fun _ => .bind (h.expr _) fun _ => .pure _
  · exact .bind (h.expr _) fun _ => .bind (.require (by decide)) fun _ => .pure _
  · exact choice_exchanges h
  · exact function_exchanges h
  · exact .bind (exprs_exchanges (by decide) h hreads) fun _ => .pure _
  · exact .failBehind _ _

theorem continued_exchanges (h : inner.Exchanges) (hreads : inner.Reading) (left : Expr Unit)
    (continuation : Continuation) : Exchanges (continued inner left continuation) := by
  cases continuation with
  | operator op => exact .bind (h.expr _) fun _ => .pure _
  | call => exact .bind (exprs_exchanges (by decide) h hreads) fun _ => .pure _
  | index => exact .bind (h.expr _) fun _ => .bind (.require (by decide)) fun _ => .pure _

theorem extend_exchanges (h : inner.Exchanges) (hreads : inner.Reading) (floor : Precedence)
    (left : Expr Unit) : Exchanges (extend inner floor left) where
  ok {next? tokens rest} hok := by
    cases next? with
    | none =>
        obtain ⟨rfl, hstop⟩ := (extend_eq_ok_none inner).mp hok
        refine ⟨[], rfl, .nil fun _ hhead => (extend_eq_ok_none inner).mpr ⟨rfl, ?_⟩⟩
        rwa [hhead]
    | some e =>
        obtain ⟨token, behind, continuation, rfl, hkind, hrank, hcontinued⟩ :=
          (extend_eq_ok_some inner).mp hok
        have hbrace : token.kind ≠ .leftBrace := by
          intro heq
          rw [heq] at hkind
          cases hkind
        refine Exchanges.ok_cons hbrace (fun tokens => ?_)
          (.bind (continued_exchanges h hreads left continuation) fun e => .pure (some e)) hok
        simp only [extend_cons, hkind, Nat.not_le_of_lt hrank, if_false]

theorem expr_exchanges (h : inner.Exchanges) (hreads : inner.Reading) (floor : Precedence) :
    Exchanges (expr inner floor) where
  ok {e tokens rest} hok := by
    cases tokens with
    | nil => cases hok
    | cons token behind =>
        obtain ⟨left, middle, hleft, _⟩ := bind_eq_ok.mp ((expr_cons inner floor ..).symm.trans hok)
        have hbrace : token.kind ≠ .leftBrace := by
          intro heq
          have hmem := operand_ok_kind hleft
          rw [heq] at hmem
          exact absurd hmem (by decide)
        refine Exchanges.ok_cons hbrace (expr_cons inner floor token) ?_ hok
        refine .bind (operand_exchanges h hreads token) fun left => ?_
        exact .iterate (extend_advances hreads floor) (extend_exchanges h hreads floor) left

theorem statement_exchanges (h : inner.Exchanges) : Exchanges (statement inner) where
  ok {item tokens rest} hok := by
    have hexpr {β : Type} (f : Expr Unit → β) :
        Exchanges (do return f (← inner.expr .lowest)) := .bind (h.expr .lowest) fun _ => .pure _
    have hbind : Exchanges (do
        let name ← require .name
        let _ ← require .assign
        return Item.bind name.lexeme (← inner.expr .lowest)) :=
      .bind (.require (by decide)) fun name => .bind (.require (by decide)) fun _ =>
        hexpr (Item.bind name.lexeme)
    have hblock : Exchanges (do return Item.block (← inner.block)) :=
      .bind h.block fun _ => .pure _
    cases tokens with
    | nil => cases hok
    | cons token behind =>
        have hcons (tokens : List Token) := statement_cons inner token tokens
        split at hcons
        · rename_i hkind
          exact Exchanges.ok_cons (by simp [hkind]) hcons hbind hok
        · rename_i hkind
          exact Exchanges.ok_cons (by simp [hkind]) hcons (hexpr Item.ret) hok
        · exact Exchanges.ok_of_next hcons hblock hok
        · exact Exchanges.ok_of_next hcons (hexpr Item.expr) hok

theorem item_exchanges (h : inner.Exchanges) : Exchanges (item inner) :=
  .bind (statement_exchanges h) fun _ => .bind (.accept (by decide)) fun _ => .pure _

theorem oneMore_exchanges (h : inner.Exchanges) (found : List (Item Unit)) :
    Exchanges (oneMore inner found) where
  ok {next? tokens rest} hok := by
    cases next? with
    | none =>
        obtain ⟨rfl, hend⟩ := (oneMore_eq_ok_none inner).mp hok
        refine ⟨[], rfl, .nil fun _ hhead => (oneMore_eq_ok_none inner).mpr ⟨rfl, ?_⟩⟩
        rwa [hhead]
    | some next =>
        obtain ⟨⟨token, hhead, hkind⟩, _⟩ := (oneMore_eq_ok_some inner).mp hok
        obtain ⟨behind, rfl⟩ := List.head?_eq_some_iff.mp hhead
        exact Exchanges.ok_of_next (fun tokens => by rw [oneMore_cons, if_neg hkind])
          (.bind (item_exchanges h) fun _ => .pure _) hok

/-- The brace that a block begins with is where its own tokens are exchanged. -/
theorem block_exchanges {levels : Nat} (h : (Nested.within levels).Exchanges) :
    Exchanges (block (Nested.within levels)) where
  ok {items tokens rest} hok := by
    have hreads := Nested.within_reading levels
    obtain ⟨brace, behind, hopening, _⟩ := bind_eq_ok.mp hok
    obtain ⟨hbrace, rfl⟩ := require_eq_ok.mp hopening
    have hblock (tokens : List Token) : block (Nested.within levels) (brace :: tokens) =
        (do
          let found ← iterate (oneMore (Nested.within levels)) []
          let _ ← require .closeBrace
          return found.reverse : Parser (Program Unit)) tokens :=
      bind_of_ok (require_eq_ok.mpr ⟨hbrace, rfl⟩)
    have hrest : Exchanges (do
        let found ← iterate (oneMore (Nested.within levels)) []
        let _ ← require .closeBrace
        return found.reverse : Parser (Program Unit)) :=
      .bind (.iterate (oneMore_advances hreads) (oneMore_exchanges h) [])
        fun _ => .bind (.require (by decide)) fun _ => .pure _
    have hinside := hok
    rw [hblock] at hinside
    obtain ⟨read, rfl, hread⟩ := hrest.ok hinside
    refine ⟨brace :: read, rfl, fun hhead => ?_, fun hsplit hkind hsame => ?_⟩
    · exact (hblock _).trans (hread.behind hhead)
    · rcases List.cons_eq_append_iff.mp hsplit with ⟨rfl, heq⟩ | ⟨before, rfl, heq⟩
      · cases heq
        exact hsame (levels + 1) brace items rest hbrace hok
      · exact (hblock _).trans (hread.inside heq hkind hsame)

end Grammar

theorem Nested.within_exchanges (levels : Nat) : (Nested.within levels).Exchanges := by
  induction levels with
  | zero => exact ⟨fun _ => ⟨fun hok => by cases hok⟩, ⟨fun hok => by cases hok⟩⟩
  | succ levels ih =>
      have hreads := Nested.within_reading levels
      exact ⟨fun floor => Grammar.expr_exchanges ih hreads floor, Grammar.block_exchanges ih⟩

end Scriptlet
