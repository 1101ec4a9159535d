import Mathlib.Data.List.Forall2
import Scriptlet.Proofs.Program.Loops

/-!
# Reading on another list of tokens

A parser looks no further than to the token that it leaves next, or that it blames, and
the lines of the tokens do not matter to it. So it does the same on tokens that are alike
up to there, whatever comes behind. Main results: `Item.parser_steady` and
`Item.parser_error_append`.
-/

namespace Scriptlet

/-- Tokens that differ at most in the lines they are on. -/
def Token.Alike (token token' : Token) : Prop :=
  token.kind = token'.kind ∧ token.lexeme = token'.lexeme

theorem Token.Alike.refl (token : Token) : token.Alike token :=
  ⟨rfl, rfl⟩

theorem Token.Alike.exists_line {token token' : Token} (h : token.Alike token') :
    ∃ line, token' = { token with line := line } := by
  obtain ⟨kind, _, lexeme⟩ := token
  obtain ⟨kind', line', lexeme'⟩ := token'
  obtain ⟨rfl, rfl⟩ : kind = kind' ∧ lexeme = lexeme' := h
  exact ⟨line', rfl⟩

/-- What comes next decides by its kind how to go on. -/
theorem Token.kind_eq_of_alike {token? token?' : Option Token}
    (h : Option.Rel Token.Alike token? token?') :
    token?.map Token.kind = token?'.map Token.kind := by
  cases h with
  | none => rfl
  | some htoken => exact congrArg some htoken.1

namespace Parser

variable {α α' β β' : Type}

section Alike

variable {tokens' read read' rest rest' : List Token}

theorem alike_refl (tokens : List Token) : List.Forall₂ Token.Alike tokens tokens :=
  List.forall₂_same.mpr fun token _ => .refl token

theorem head?_alike_refl (tokens : List Token) :
    Option.Rel Token.Alike tokens.head? tokens.head? := by
  cases tokens with
  | nil => exact .none
  | cons token _ => exact .some (.refl token)

/-- Nothing comes next in one list if nothing does in the other. -/
theorem eq_nil_of_head?_alike (h : Option.Rel Token.Alike [].head? rest.head?) : rest = [] := by
  cases rest with
  | nil => rfl
  | cons _ _ => cases h

/-- What comes next is alike if what has been put in front is. -/
theorem head?_append_alike (hread : List.Forall₂ Token.Alike read read')
    (hrest : Option.Rel Token.Alike rest.head? rest'.head?) :
    Option.Rel Token.Alike (read ++ rest).head? (read' ++ rest').head? := by
  cases hread with
  | nil => exact hrest
  | cons htoken _ => exact .some htoken

/-- Lists that are alike come apart at the same place. -/
theorem exists_append_of_alike (h : List.Forall₂ Token.Alike (read ++ rest) tokens') :
    ∃ read' rest', tokens' = read' ++ rest' ∧ List.Forall₂ Token.Alike read read' ∧
      List.Forall₂ Token.Alike rest rest' := by
  induction read generalizing tokens' with
  | nil => exact ⟨[], tokens', rfl, .nil, h⟩
  | cons token read ih =>
      obtain ⟨token', others', htoken, hothers, rfl⟩ := List.forall₂_cons_left_iff.mp h
      obtain ⟨read', rest', rfl, hread, hrest⟩ := ih hothers
      exact ⟨token' :: read', rest', rfl, .cons htoken hread, hrest⟩

theorem head?_kind_of_alike {kind : Token.Kind}
    (h : Option.Rel Token.Alike rest.head? rest'.head?)
    (hkind : ∀ token ∈ rest.head?, token.kind ≠ kind) :
    ∀ token' ∈ rest'.head?, token'.kind ≠ kind := by
  intro token' htoken'
  rw [Option.mem_def.mp htoken'] at h
  generalize hhead : rest.head? = token? at h
  cases h with
  | some htoken => exact htoken.1 ▸ hkind _ hhead

end Alike

/-- What is left behind an error, on two lists at once: the tokens from the blamed one on,
or those behind it. -/
def LeftAlike (blamed rest blamed' rest' : List Token) : Prop :=
  (rest = blamed ∧ rest' = blamed') ∨ (rest = blamed.tail ∧ rest' = blamed'.tail)

/-- The second parser does on other tokens what the first one does, if the tokens that are
read are alike and so is the one that comes next or is blamed. -/
structure Extends (Rel : α → α' → Prop) (p : Parser α) (q : Parser α') : Prop where
  ok {a : α} {tokens rest : List Token} : p tokens = .ok a rest →
    ∃ read, tokens = read ++ rest ∧ ∀ {read' rest'}, List.Forall₂ Token.Alike read read' →
      Option.Rel Token.Alike rest.head? rest'.head? →
        ∃ a', q (read' ++ rest') = .ok a' rest' ∧ Rel a a'
  error {error : ParseError} {tokens rest : List Token} : p tokens = .error error rest →
    ∃ read, tokens = read ++ error.tokens ∧ ∀ {read' blamed'},
      List.Forall₂ Token.Alike read read' →
        Option.Rel Token.Alike error.tokens.head? blamed'.head? →
          ∃ rest', q (read' ++ blamed') = .error ⟨error.cause, blamed'⟩ rest' ∧
            LeftAlike error.tokens rest blamed' rest'

/-- A parser that does the same on tokens that are alike up to the one that comes next or
is blamed. -/
abbrev Steady (p : Parser α) : Prop :=
  Extends Eq p p

namespace Extends

variable {Rel : α → α' → Prop} {Rel' : β → β' → Prop} {p : Parser α} {q : Parser α'}
variable {a : α} {tokens tokens' read read' rest rest' : List Token}

/-- When it is known which tokens are read. -/
theorem ok_append (h : Extends Rel p q) (hok : p (read ++ rest) = .ok a rest)
    (hread : List.Forall₂ Token.Alike read read')
    (hrest : Option.Rel Token.Alike rest.head? rest'.head?) :
    ∃ a', q (read' ++ rest') = .ok a' rest' ∧ Rel a a' := by
  obtain ⟨_, heq, hq⟩ := h.ok hok
  obtain rfl := List.append_cancel_right heq
  exact hq hread hrest

/-- When it is known which tokens are read before the blamed one. -/
theorem error_append {cause : ParseError.Cause} {blamed blamed' : List Token}
    (h : Extends Rel p q) (herror : p (read ++ blamed) = .error ⟨cause, blamed⟩ rest)
    (hread : List.Forall₂ Token.Alike read read')
    (hblamed : Option.Rel Token.Alike blamed.head? blamed'.head?) :
    ∃ rest', q (read' ++ blamed') = .error ⟨cause, blamed'⟩ rest' ∧
      LeftAlike blamed rest blamed' rest' := by
  obtain ⟨_, heq, hq⟩ := h.error herror
  obtain rfl := List.append_cancel_right heq
  exact hq hread hblamed

/-- Whatever the first parser reads, the second reads from tokens that are alike, also
when more tokens are added behind some that are left. -/
theorem append (h : Extends Rel p q) (hok : p tokens = .ok a rest)
    (halike : List.Forall₂ Token.Alike tokens tokens') (more : List Token)
    (hmore : rest = [] → more = []) :
    ∃ a' rest', q (tokens' ++ more) = .ok a' (rest' ++ more) ∧ Rel a a' ∧
      List.Forall₂ Token.Alike rest rest' := by
  obtain ⟨read, rfl, hq⟩ := h.ok hok
  obtain ⟨read', rest', rfl, hread, hrest⟩ := exists_append_of_alike halike
  have hnext : Option.Rel Token.Alike rest.head? (rest' ++ more).head? := by
    cases hrest with
    | nil =>
        obtain rfl := hmore rfl
        exact .none
    | cons htoken _ => exact .some htoken
  obtain ⟨a', hok', hrel⟩ := hq hread hnext
  exact ⟨a', rest', by rw [List.append_assoc, hok'], hrel, hrest⟩

theorem pure {a' : α'} (h : Rel a a') :
    Extends Rel (Pure.pure a : Parser α) (Pure.pure a' : Parser α') where
  ok hok := by
    obtain ⟨rfl, rfl⟩ := pure_eq_ok.mp hok
    refine ⟨[], rfl, fun hread _ => ?_⟩
    cases hread
    exact ⟨a', rfl, h⟩
  error herror := absurd herror pure_ne_error

theorem bind {f : α → Parser β} {g : α' → Parser β'} (hp : Extends Rel p q)
    (hf : ∀ a a', Rel a a' → Extends Rel' (f a) (g a')) : Extends Rel' (p >>= f) (q >>= g) := by
  -- Read from the tokens themselves, the second parser too goes on with something related.
  have hnext {a : α} {read middle : List Token} (ha : p (read ++ middle) = .ok a middle) :
      ∃ a', Extends Rel' (f a) (g a') := by
    obtain ⟨a', _, hrel⟩ := hp.ok_append ha (alike_refl read) (head?_alike_refl middle)
    exact ⟨a', hf a a' hrel⟩
  constructor
  · intro b tokens rest hok
    obtain ⟨a, middle, ha, hb⟩ := bind_eq_ok.mp hok
    obtain ⟨first, rfl, hfirst⟩ := hp.ok ha
    obtain ⟨_, hafter⟩ := hnext ha
    obtain ⟨second, rfl, _⟩ := hafter.ok hb
    refine ⟨first ++ second, (List.append_assoc ..).symm, fun hread hrest => ?_⟩
    obtain ⟨first', second', rfl, hfirst', hsecond'⟩ := exists_append_of_alike hread
    obtain ⟨a', ha', hrel⟩ := hfirst hfirst' (head?_append_alike hsecond' hrest)
    rw [List.append_assoc, bind_of_ok ha']
    exact (hf a a' hrel).ok_append hb hsecond' hrest
  · intro error tokens rest herror
    rcases bind_eq_error.mp herror with hfailed | ⟨a, middle, ha, hb⟩
    · obtain ⟨read, rfl, hq⟩ := hp.error hfailed
      refine ⟨read, rfl, fun hread hblamed => ?_⟩
      obtain ⟨rest', hfailed', hleft⟩ := hq hread hblamed
      exact ⟨rest', bind_of_error hfailed', hleft⟩
    · obtain ⟨first, rfl, hfirst⟩ := hp.ok ha
      obtain ⟨_, hafter⟩ := hnext ha
      obtain ⟨second, rfl, _⟩ := hafter.error hb
      refine ⟨first ++ second, (List.append_assoc ..).symm, fun hread hblamed => ?_⟩
      obtain ⟨first', second', rfl, hfirst', hsecond'⟩ := exists_append_of_alike hread
      obtain ⟨a', ha', hrel⟩ := hfirst hfirst' (head?_append_alike hsecond' hblamed)
      rw [List.append_assoc, bind_of_ok ha']
      exact (hf a a' hrel).error_append hb hsecond' hblamed

theorem peek? : Extends (Option.Rel Token.Alike) peek? peek? where
  ok hok := by
    obtain ⟨rfl, rfl⟩ := peek?_eq_ok.mp hok
    refine ⟨[], rfl, fun hread hrest => ?_⟩
    cases hread
    exact ⟨_, rfl, hrest⟩
  error herror := by cases herror

theorem next? : Extends (Option.Rel Token.Alike) next? next? where
  ok {_ tokens _} hok := by
    cases tokens with
    | nil =>
        cases hok
        refine ⟨[], rfl, fun hread hrest => ?_⟩
        cases hread
        obtain rfl := eq_nil_of_head?_alike hrest
        exact ⟨none, rfl, .none⟩
    | cons token behind =>
        cases hok
        refine ⟨[token], rfl, fun hread hrest => ?_⟩
        obtain ⟨token', _, htoken, hnil, rfl⟩ := List.forall₂_cons_left_iff.mp hread
        cases hnil
        exact ⟨some token', rfl, .some htoken⟩
  error {_ tokens _} herror := by cases tokens <;> cases herror

theorem failHere (cause : ParseError.Cause) :
    Extends Rel (Parser.failHere cause) (Parser.failHere cause) where
  ok hok := absurd hok failHere_ne_ok
  error herror := by
    cases herror
    refine ⟨[], rfl, fun {_ blamed'} hread hblamed => ?_⟩
    cases hread
    exact ⟨blamed', rfl, .inl ⟨rfl, rfl⟩⟩

theorem accept (kind : Token.Kind) : Steady (accept kind) where
  ok {accepted tokens rest} hok := by
    cases accepted with
    | true =>
        obtain ⟨token, hkind, rfl⟩ := accept_eq_ok_true.mp hok
        refine ⟨[token], rfl, fun hread _ => ?_⟩
        obtain ⟨token', _, htoken, hnil, rfl⟩ := List.forall₂_cons_left_iff.mp hread
        cases hnil
        exact ⟨true, accept_eq_ok_true.mpr ⟨token', htoken.1 ▸ hkind, rfl⟩, rfl⟩
    | false =>
        obtain ⟨rfl, hkind⟩ := accept_eq_ok_false.mp hok
        refine ⟨[], rfl, fun hread hrest => ?_⟩
        cases hread
        exact ⟨false, accept_eq_ok_false.mpr ⟨rfl, head?_kind_of_alike hrest hkind⟩, rfl⟩
  error herror := absurd herror accept_ne_error

theorem require (what : ParseError.Required) :
    Extends Token.Alike (require what) (require what) where
  ok {token tokens rest} hok := by
    obtain ⟨hkind, rfl⟩ := require_eq_ok.mp hok
    refine ⟨[token], rfl, fun hread _ => ?_⟩
    obtain ⟨token', _, htoken, hnil, rfl⟩ := List.forall₂_cons_left_iff.mp hread
    cases hnil
    exact ⟨token', require_eq_ok.mpr ⟨htoken.1 ▸ hkind, rfl⟩, htoken⟩
  error herror := by
    obtain ⟨hkind, rfl, rfl⟩ := require_eq_error.mp herror
    refine ⟨[], rfl, fun {_ blamed'} hread hblamed => ?_⟩
    cases hread
    have hkind' := head?_kind_of_alike hblamed hkind
    exact ⟨blamed', require_eq_error.mpr ⟨hkind', rfl, rfl⟩, .inl ⟨rfl, rfl⟩⟩

theorem iterate {step : α → Parser (Option α)} (hadvances : Advances step)
    (hstep : ∀ a, Steady (step a)) (a : α) : Steady (iterate step a) := by
  constructor
  · intro b tokens rest hok
    have hrounds := repeats_iterate hadvances a tokens
    rw [hok] at hrounds
    clear hok
    generalize hresult : EStateM.Result.ok b rest = result at hrounds
    induction hrounds with
    | stop hround =>
        cases hresult
        obtain ⟨read, rfl, hq⟩ := (hstep _).ok hround
        refine ⟨read, rfl, fun hread hrest => ?_⟩
        obtain ⟨_, hround', rfl⟩ := hq hread hrest
        exact ⟨b, iterate_of_none hadvances hround', rfl⟩
    | fail => cases hresult
    | next hround _ ih =>
        obtain ⟨first, rfl, hq⟩ := (hstep _).ok hround
        obtain ⟨second, rfl, hafter⟩ := ih hresult
        refine ⟨first ++ second, (List.append_assoc ..).symm, fun hread hrest => ?_⟩
        obtain ⟨first', second', rfl, hfirst, hsecond⟩ := exists_append_of_alike hread
        obtain ⟨_, hround', rfl⟩ := hq hfirst (head?_append_alike hsecond hrest)
        rw [List.append_assoc, iterate_of_some hadvances hround']
        exact hafter hsecond hrest
  · intro error tokens rest herror
    have hrounds := repeats_iterate hadvances a tokens
    rw [herror] at hrounds
    clear herror
    generalize hresult : EStateM.Result.error error rest = result at hrounds
    induction hrounds with
    | stop => cases hresult
    | fail hround =>
        cases hresult
        obtain ⟨read, rfl, hq⟩ := (hstep _).error hround
        refine ⟨read, rfl, fun hread hblamed => ?_⟩
        obtain ⟨rest', hround', hleft⟩ := hq hread hblamed
        exact ⟨rest', iterate_of_error hadvances hround', hleft⟩
    | next hround _ ih =>
        obtain ⟨first, rfl, hq⟩ := (hstep _).ok hround
        obtain ⟨second, rfl, hafter⟩ := ih hresult
        refine ⟨first ++ second, (List.append_assoc ..).symm, fun hread hblamed => ?_⟩
        obtain ⟨first', second', rfl, hfirst, hsecond⟩ := exists_append_of_alike hread
        obtain ⟨_, hround', rfl⟩ := hq hfirst (head?_append_alike hsecond hblamed)
        rw [List.append_assoc, iterate_of_some hadvances hround']
        exact hafter hsecond hblamed

end Extends

namespace Steady

variable {p : Parser α}

theorem pure (a : α) : Steady (Pure.pure a : Parser α) :=
  Extends.pure rfl

/-- What follows a parser need only do with equal outcomes. -/
theorem bind (hp : Steady p) {f : α → Parser β} (hf : ∀ a, Steady (f a)) : Steady (p >>= f) :=
  Extends.bind hp fun a _ heq => heq ▸ hf a

/-- A token that has to come next may be used up to its line. -/
theorem require_bind (what : ParseError.Required) {f : Token → Parser β}
    (hf : ∀ token token', token.Alike token' → Extends Eq (f token) (f token')) :
    Steady (Parser.require what >>= f) :=
  Extends.bind (Extends.require what) hf

/-- A token just read may be the one to blame. A parser is steady if it blames all tokens
that are alike, or else goes on in the same way behind all of them. -/
theorem next_bind {f : Option Token → Parser β} (hnone : Steady (f none))
    (hsome : ∀ token,
      (∃ cause, ∀ token', token.Alike token' → f (some token') = failBehind cause token') ∨
      ∀ token', token.Alike token' → Extends Eq (f (some token)) (f (some token'))) :
    Steady (next? >>= f) where
  ok {b tokens rest} hok := by
    cases tokens with
    | nil =>
        have hend : f none [] = .ok b rest := hok
        obtain ⟨read, hnil, hq⟩ := hnone.ok hend
        obtain ⟨rfl, rfl⟩ := List.nil_eq_append_iff.mp hnil
        refine ⟨[], rfl, fun hread hrest => ?_⟩
        cases hread
        obtain rfl := eq_nil_of_head?_alike hrest
        exact hq .nil hrest
    | cons token behind =>
        rw [next?_bind_cons] at hok
        rcases hsome token with ⟨cause, hblames⟩ | hafter
        · simp [hblames token (.refl token)] at hok
        · obtain ⟨read, rfl, _⟩ := (hafter token (.refl token)).ok hok
          refine ⟨token :: read, rfl, fun hread hrest => ?_⟩
          obtain ⟨token', read', htoken, hmore, rfl⟩ := List.forall₂_cons_left_iff.mp hread
          exact (hafter token' htoken).ok_append hok hmore hrest
  error {error tokens rest} herror := by
    cases tokens with
    | nil =>
        have hend : f none [] = .error error rest := herror
        obtain ⟨read, hnil, hq⟩ := hnone.error hend
        obtain ⟨rfl, hblamed⟩ := List.nil_eq_append_iff.mp hnil
        refine ⟨[], hblamed.symm, fun hread hnext => ?_⟩
        cases hread
        obtain ⟨rest', herror', hleft⟩ := hq .nil hnext
        rw [hblamed] at hnext
        obtain rfl := eq_nil_of_head?_alike hnext
        exact ⟨rest', herror', hleft⟩
    | cons token behind =>
        rw [next?_bind_cons] at herror
        rcases hsome token with ⟨cause, hblames⟩ | hafter
        · rw [hblames token (.refl token)] at herror
          cases herror
          refine ⟨[], rfl, fun {_ blamed'} hread hnext => ?_⟩
          cases hread
          cases blamed' with
          | nil => cases hnext
          | cons token' behind' =>
              cases hnext with
              | some htoken =>
                  rw [List.nil_append, next?_bind_cons, hblames token' htoken]
                  exact ⟨behind', rfl, .inr ⟨rfl, rfl⟩⟩
        · obtain ⟨read, rfl, _⟩ := (hafter token (.refl token)).error herror
          refine ⟨token :: read, rfl, fun hread hnext => ?_⟩
          obtain ⟨token', read', htoken, hmore, rfl⟩ := List.forall₂_cons_left_iff.mp hread
          exact (hafter token' htoken).error_append herror hmore hnext

end Steady

end Parser

open Scriptlet.Parser

/-- Both parsers of a nesting are steady. -/
structure Nested.Steady (inner : Nested) : Prop where
  expr (p : Precedence) : Parser.Steady (inner.expr p)
  block : Parser.Steady inner.block

namespace Grammar

variable {α : Type} {inner : Nested}

theorem nextElement_steady {element : Parser α} (h : Steady element) (found : List α) :
    Steady (nextElement element found) := by
  refine .bind (.accept .comma) fun more => ?_
  split
  · exact .bind h fun _ => .pure _
  · exact .pure none

theorem elements_steady {element : Parser α} (h : Steady element)
    (hreads : ∀ count, AgreeUpTo count element element) : Steady (elements element) := by
  refine .bind h fun first => .bind ?_ fun _ => .pure _
  exact .iterate (nextElement_advances hreads) (nextElement_steady h) [first]

theorem listUpTo_steady (closing : ParseError.Required) {element : Parser α}
    (h : Steady element) (hreads : ∀ count, AgreeUpTo count element element) :
    Steady (listUpTo closing element) := by
  refine .bind (.accept _) fun closed => ?_
  split
  · exact .pure []
  · refine .bind (elements_steady h hreads) fun found => ?_
    exact .require_bind _ fun _ _ _ => .pure rfl

theorem parameter_steady : Steady parameter :=
  .require_bind .name fun _ _ halike => .pure halike.2

theorem exprs_steady (closing : ParseError.Required) (h : inner.Steady) (hreads : inner.Reading) :
    Steady (listUpTo closing (inner.expr .lowest)) :=
  listUpTo_steady closing (h.expr .lowest) fun count => (hreads.suffix count).expr .lowest

theorem choice_steady (h : inner.Steady) : Steady (choice inner) := by
  refine .require_bind _ fun _ _ _ => Steady.bind (h.expr _) fun test => ?_
  refine .require_bind _ fun _ _ _ => Steady.bind h.block fun yes => ?_
  refine .bind (.accept _) fun more => ?_
  split
  · exact .bind h.block fun _ => .pure _
  · exact .pure _

theorem function_steady (h : inner.Steady) : Steady (function inner) := by
  refine .require_bind _ fun _ _ _ => ?_
  have hparams : Steady (listUpTo .closeParen parameter) :=
    listUpTo_steady _ parameter_steady fun count => parameter_related (AgreeUpTo.congruence count)
  exact Steady.bind hparams fun _ => .bind h.block fun _ => .pure _

/-- Tokens that are alike are all blamed, or else all begin the same operand. -/
theorem operand_steady (h : inner.Steady) (hreads : inner.Reading) (token : Token) :
    (∃ cause, ∀ token', token.Alike token' → operand inner token' = failBehind cause token') ∨
      ∀ token', token.Alike token' → Extends Eq (operand inner token) (operand inner token') := by
  have hblames (cause : ParseError.Cause)
      (hblames : ∀ line, operand inner { token with line := line } =
        failBehind cause { token with line := line }) :
      ∃ cause, ∀ token', token.Alike token' → operand inner token' = failBehind cause token' := by
    refine ⟨cause, fun token' halike => ?_⟩
    obtain ⟨line, rfl⟩ := halike.exists_line
    exact hblames line
  have hsame (hsteady : Steady (operand inner token))
      (hline : ∀ line, operand inner { token with line := line } = operand inner token) :
      ∀ token', token.Alike token' → Extends Eq (operand inner token) (operand inner token') := by
    intro token' halike
    obtain ⟨line, rfl⟩ := halike.exists_line
    exact hline line ▸ hsteady
  obtain ⟨kind, line, lexeme⟩ := token
  cases kind with
  | ident | string | trueWord | falseWord => exact .inr (hsame (.pure _) fun _ => rfl)
  | int =>
      cases hn : Integer.read? lexeme.toList with
      | some n => exact .inr (hsame (by simpa [operand, hn] using .pure _) (by simp [operand, hn]))
      | none => exact .inl (hblames .integerOutOfRange (by simp [operand, hn, Steps.failBehind]))
  | bang | minus =>
      exact .inr (hsame (.bind (.pure _) fun _ => .bind (h.expr _) fun _ => .pure _) fun _ => rfl)
  | leftParen =>
      refine .inr (hsame (.bind (h.expr _) fun _ => ?_) fun _ => rfl)
      exact .require_bind _ fun _ _ _ => .pure rfl
  | ifWord => exact .inr (hsame (choice_steady h) fun _ => rfl)
  | fnWord => exact .inr (hsame (function_steady h) fun _ => rfl)
  | leftBracket =>
      exact .inr (hsame (.bind (exprs_steady _ h hreads) fun _ => .pure _) fun _ => rfl)
  | _ => exact .inl (hblames .noExpression fun _ => rfl)

theorem continued_steady (h : inner.Steady) (hreads : inner.Reading) (left : Expr Unit)
    (continuation : Continuation) : Steady (continued inner left continuation) := by
  cases continuation with
  | operator op => exact .bind (h.expr _) fun _ => .pure _
  | call => exact .bind (exprs_steady _ h hreads) fun _ => .pure _
  | index => exact .bind (h.expr _) fun _ => .require_bind _ fun _ _ _ => .pure rfl

theorem extend_steady (h : inner.Steady) (hreads : inner.Reading) (floor : Precedence)
    (left : Expr Unit) : Steady (extend inner floor left) := by
  refine Extends.bind .peek? fun token? token?' halike => ?_
  cases halike with
  | none => exact .pure rfl
  | some halike =>
      -- The kinds of the tokens decide how they go on, and are the same.
      refine Extends.bind (.pure (congrArg Continuation.ofKind? halike.1)) fun _ _ heq => ?_
      subst heq
      split
      · exact .pure rfl
      · split
        · exact .pure rfl
        · refine Extends.bind .next? fun _ _ _ => ?_
          exact Steady.bind (continued_steady h hreads _ _) fun _ => .pure _

theorem expr_steady (h : inner.Steady) (hreads : inner.Reading) (floor : Precedence) :
    Steady (expr inner floor) := by
  refine .next_bind (.failHere _) fun token => ?_
  rcases operand_steady h hreads token with ⟨cause, hblames⟩ | hsame
  · exact .inl ⟨cause, fun token' halike => by
      simp only [hblames token' halike]
      rfl⟩
  · refine .inr fun token' halike => Extends.bind (hsame token' halike) fun left _ heq => ?_
    subst heq
    exact .iterate (extend_advances hreads floor) (extend_steady h hreads floor) left

theorem statement_steady (h : inner.Steady) : Steady (statement inner) := by
  refine Extends.bind .peek? fun token? token?' halike => ?_
  rw [Token.kind_eq_of_alike halike]
  split
  · exact .failHere _
  · refine Extends.bind .next? fun _ _ _ => .bind (.require _) fun name name' hname => ?_
    refine .bind (.require _) fun _ _ _ => .bind (h.expr _) fun init _ heq => ?_
    rw [hname.2, heq]
    exact .pure rfl
  · exact Extends.bind .next? fun _ _ _ => Steady.bind (h.expr _) fun _ => .pure _
  · exact Steady.bind h.block fun _ => .pure _
  · exact Steady.bind (h.expr _) fun _ => .pure _

theorem item_steady (h : inner.Steady) : Steady (item inner) :=
  .bind (statement_steady h) fun _ => .bind (.accept _) fun _ => .pure _

theorem oneMore_steady (h : inner.Steady) (found : List (Item Unit)) :
    Steady (oneMore inner found) := by
  refine Extends.bind .peek? fun token? token?' halike => ?_
  rw [Token.kind_eq_of_alike halike]
  split
  · exact .pure rfl
  · exact .pure rfl
  · exact Steady.bind (item_steady h) fun _ => .pure _

theorem block_steady (h : inner.Steady) (hreads : inner.Reading) : Steady (block inner) := by
  refine .require_bind _ fun _ _ _ => Steady.bind ?_ fun _ => .require_bind _ fun _ _ _ => .pure rfl
  exact .iterate (oneMore_advances hreads) (oneMore_steady h) []

end Grammar

theorem Nested.within_steady (levels : Nat) : (Nested.within levels).Steady := by
  induction levels with
  | zero => exact ⟨fun _ => .failHere _, .failHere _⟩
  | succ levels ih =>
      have hreads := Nested.within_reading levels
      exact ⟨fun p => Grammar.expr_steady ih hreads p, Grammar.block_steady ih hreads⟩

/-- An item is read alike, and fails alike, on tokens that are alike up to the one that comes
next or is blamed. -/
theorem Item.parser_steady : Steady Item.parser :=
  Grammar.item_steady (Nested.within_steady maxNesting)

/-- What comes behind the blamed token does not matter. -/
theorem Item.parser_error_append {cause : ParseError.Cause} {token : Token}
    {read behind rest : List Token}
    (herror : Item.parser (read ++ token :: behind) = .error ⟨cause, token :: behind⟩ rest)
    (behind' : List Token) :
    ∃ rest', Item.parser (read ++ token :: behind') = .error ⟨cause, token :: behind'⟩ rest' ∧
      LeftAlike (token :: behind) rest (token :: behind') rest' :=
  Item.parser_steady.error_append herror (alike_refl read) (.some (.refl token))

end Scriptlet
