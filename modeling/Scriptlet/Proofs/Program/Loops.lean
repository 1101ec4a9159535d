import Scriptlet.Proofs.Grammar.Progress
import Scriptlet.Token.Lexer

/-!
# The loops of reading come to an end

Cutting a text into tokens, the repetitions of the grammar and the reading of a program
item by item are bounded by the characters or tokens at hand. Here they are loops that
go on for as long as they have to, as relations between where they start and what comes
out, and the bounded functions are shown to give what comes out. So the loops end, and
a bound is never what ends them.
-/

namespace Scriptlet

/-- Cutting token after token until the end of the file. -/
inductive Token.Cursor.Lexes : Token.Cursor → List Token → Prop where
  | done {cursor : Token.Cursor} (h : cursor.next.1.kind = .endOfFile) : Lexes cursor []
  | more {cursor : Token.Cursor} {tokens : List Token} (h : cursor.next.1.kind ≠ .endOfFile)
      (hrest : Lexes cursor.next.2 tokens) : Lexes cursor (cursor.next.1 :: tokens)

theorem Token.Cursor.lexes_tokens (cursor : Token.Cursor) : cursor.Lexes cursor.tokens.1 := by
  generalize hn : cursor.rest.length = n
  induction n using Nat.strongRecOn generalizing cursor with
  | _ n ih =>
      by_cases hend : cursor.next.1.kind = .endOfFile
      · rw [tokens_of_endOfFile hend]
        exact .done hend
      · have hlt := length_rest_next_lt hend
        rw [tokens_of_next hend]
        exact .more hend (ih _ (hn ▸ hlt) cursor.next.2 rfl)

namespace Parser

variable {α β : Type} {tokens : List Token}

/-- Repeating a step until it has nothing to add or fails. -/
inductive Repeats (step : α → Parser (Option α)) :
    α → List Token → EStateM.Result ParseError (List Token) α → Prop where
  | stop {a : α} {tokens rest : List Token} (h : step a tokens = .ok none rest) :
      Repeats step a tokens (.ok a rest)
  | fail {a : α} {tokens rest : List Token} {error : ParseError}
      (h : step a tokens = .error error rest) : Repeats step a tokens (.error error rest)
  | next {a b : α} {tokens rest : List Token} {result : EStateM.Result ParseError (List Token) α}
      (h : step a tokens = .ok (some b) rest) (hrest : Repeats step b rest result) :
      Repeats step a tokens result

theorem repeats_iterate {step : α → Parser (Option α)} (h : Advances step) (a : α)
    (tokens : List Token) : Repeats step a tokens (iterate step a tokens) := by
  generalize hn : tokens.length = n
  induction n using Nat.strongRecOn generalizing a tokens with
  | _ n ih =>
      rw [iterate_eq h]
      cases hstep : step a tokens with
      | ok next? rest =>
          cases next? with
          | none => exact .stop hstep
          | some b =>
              have hlt := h.length_lt hstep
              exact .next hstep (ih rest.length (hn ▸ hlt) b rest rfl)
      | error error rest => exact .fail hstep

/-- What follows a parser leaves no more than the parser. -/
theorem left_bind_suffix {p : Parser α} {f : α → Parser β} {tail : List Token}
    (hp : left (p tokens) <:+ tail) (hf : ∀ a count, AgreeUpTo count (f a) (f a)) :
    left ((p >>= f) tokens) <:+ tail := by
  change left (EStateM.bind p f tokens) <:+ tail
  unfold EStateM.bind
  cases hresult : p tokens with
  | ok a rest =>
      rw [hresult] at hp
      exact (hf a rest.length rest (Nat.le_refl _)).2.trans hp
  | error error rest =>
      rw [hresult] at hp
      exact hp

end Parser

namespace Grammar

open Scriptlet.Parser

variable {token : Token} {behind : List Token}

/-- A statement takes its first token, also when it fails. -/
theorem statement_left (levels : Nat) :
    left (statement (Nested.within (levels + 1)) (token :: behind)) <:+ behind := by
  have hcongr := AgreeUpTo.congruence behind.length
  have hinner := (Nested.within_reading levels).suffix behind.length
  have hexpr := ((Nested.within_reading (levels + 1)).suffix behind.length).expr .lowest
  rw [statement_cons]
  split
  · have hbind := hcongr.bind (hcongr.require .name) fun name =>
      hcongr.bind (hcongr.require .assign) fun _ =>
        hcongr.bind hexpr fun init => hcongr.pure (Item.bind name.lexeme init)
    exact (hbind behind (Nat.le_refl _)).2
  · have hret := hcongr.bind hexpr fun e => hcongr.pure (Item.ret e)
    exact (hret behind (Nat.le_refl _)).2
  · rename_i hkind
    have hopen : require .openBrace (token :: behind) = .ok token behind :=
      require_eq_ok.mpr ⟨hkind, rfl⟩
    -- The brace is read inside the block, one level further in.
    have hblock : left ((Nested.within (levels + 1)).block (token :: behind)) <:+ behind := by
      change left (block (Nested.within levels) (token :: behind)) <:+ behind
      unfold block
      dsimp only [Steps.require]
      rw [bind_of_ok hopen]
      exact (block_rest_agree hinner behind (Nat.le_refl _)).2
    exact left_bind_suffix hblock fun _ count => (AgreeUpTo.congruence count).pure _
  · have hfirst : left ((Nested.within (levels + 1)).expr .lowest (token :: behind)) <:+ behind :=
      (expr_rest_agree hinner .lowest token behind (Nat.le_refl _)).2
    exact left_bind_suffix hfirst fun _ count => (AgreeUpTo.congruence count).pure _

theorem item_left (levels : Nat) :
    left (Grammar.item (Nested.within (levels + 1)) (token :: behind)) <:+ behind :=
  left_bind_suffix (statement_left levels) fun _ count =>
    have hcongr := AgreeUpTo.congruence count
    hcongr.bind (hcongr.accept _) fun _ => hcongr.pure _

end Grammar

/-- Reading an item takes at least one token, whether it succeeds or fails. -/
theorem Item.parser_left (token : Token) (behind : List Token) :
    Parser.left (Item.parser (token :: behind)) <:+ behind :=
  Grammar.item_left (maxNesting - 1)

/-- What an item leaves is a tail of the tokens behind the first. -/
theorem Item.left_suffix {token : Token} {behind : List Token}
    {result : EStateM.Result ParseError (List Token) (Item Unit)}
    (h : Item.parser (token :: behind) = result) : Parser.left result <:+ behind :=
  h ▸ Item.parser_left token behind

theorem skipItem_suffix (tokens : List Token) : skipItem tokens <:+ tokens := by
  induction tokens with
  | nil => exact List.suffix_rfl
  | cons token tokens ih =>
      unfold skipItem
      split
      · exact List.suffix_rfl
      · split
        · exact List.suffix_cons token tokens
        · exact ih.trans (List.suffix_cons token tokens)

namespace Parsed

/-- Reading item after item until no token is left; behind an error, from the next item
on. What was read before comes first, in reverse. -/
inductive Reads : Parsed → List Token → Parsed → Prop where
  | done {found : Parsed} : Reads found [] ⟨found.program.reverse, found.errors.reverse⟩
  | item {found parsed : Parsed} {token : Token} {tokens rest : List Token} {item : Item Unit}
      (h : Item.parser (token :: tokens) = .ok item rest)
      (hrest : Reads { found with program := item :: found.program } rest parsed) :
      Reads found (token :: tokens) parsed
  | error {found parsed : Parsed} {token : Token} {tokens rest : List Token} {error : ParseError}
      (h : Item.parser (token :: tokens) = .error error rest)
      (hrest : Reads { found with errors := error :: found.errors } (skipItem rest) parsed) :
      Reads found (token :: tokens) parsed

theorem reads_collect (rounds : List Token) (found : Parsed) (tokens : List Token)
    (h : tokens.length ≤ rounds.length) : Reads found tokens (collect rounds found tokens) := by
  induction rounds generalizing found tokens with
  | nil =>
      obtain rfl : tokens = [] := List.eq_nil_of_length_eq_zero (Nat.le_zero.mp h)
      exact .done
  | cons _ rounds ih =>
      cases tokens with
      | nil => exact .done
      | cons token tokens =>
          have hshort : tokens.length ≤ rounds.length := Nat.le_of_succ_le_succ h
          unfold collect
          cases hitem : Item.parser (token :: tokens) with
          | ok item rest =>
              have hleft := (Item.left_suffix hitem).length_le
              exact .item hitem (ih _ rest (Nat.le_trans hleft hshort))
          | error error rest =>
              have hleft := (Item.left_suffix hitem).length_le
              have hskip := (skipItem_suffix rest).length_le
              exact .error hitem (ih _ _ (Nat.le_trans hskip (Nat.le_trans hleft hshort)))

/-- Reading a program ends on every list of tokens. -/
theorem reads_ofTokens (tokens : List Token) : Reads ⟨[], []⟩ tokens (ofTokens tokens) :=
  reads_collect tokens ⟨[], []⟩ tokens (Nat.le_refl _)

end Parsed

end Scriptlet
