import Scriptlet.Proofs.Grammar.Exchange
import Scriptlet.Proofs.Grammar.Joining

/-!
# Semicolons that may be left out

A semicolon behind an item may be put there or left out, in a block as well as at the
outermost level, and the program stays what it is, unless the tokens behind would then
continue the item. Main result: `Parsed.ofTokens_optional_semicolon`.
-/

namespace Scriptlet

open Scriptlet.Parser

namespace Parser

variable {α β : Type}

/-- Where the second parser succeeds, the first one does too, or else it gives up before the
end of what the second one reads, because it may open no more levels. -/
def CutsBefore (p q : Parser α) : Prop :=
  ∀ a tokens rest, q tokens = .ok a rest → rest.length ≤ tokens.length ∧
    (p tokens = .ok a rest ∨
      ∃ blamed left, p tokens = .error ⟨.tooDeep, blamed⟩ left ∧ rest.length < blamed.length)

namespace CutsBefore

theorem refl {p : Parser α} (h : ∀ count, AgreeUpTo count p p) : CutsBefore p p :=
  fun _ _ _ hok => ⟨(AgreeUpTo.suffix h hok).length_le, .inl hok⟩

theorem bind {p q : Parser α} {f g : α → Parser β} (hp : CutsBefore p q)
    (hf : ∀ a, CutsBefore (f a) (g a)) : CutsBefore (p >>= f) (q >>= g) := by
  intro b tokens rest hok
  obtain ⟨a, middle, ha, hb⟩ := bind_eq_ok.mp hok
  obtain ⟨hmiddle, hfirst⟩ := hp a tokens middle ha
  obtain ⟨hrest, hsecond⟩ := hf a b middle rest hb
  refine ⟨Nat.le_trans hrest hmiddle, ?_⟩
  rcases hfirst with ha' | ⟨blamed, left, herror, hlt⟩
  · rw [bind_of_ok ha']
    exact hsecond
  · exact .inr ⟨blamed, left, bind_of_error herror, Nat.lt_of_le_of_lt hrest hlt⟩

theorem iterate {step step' : α → Parser (Option α)}
    (hstep : ∀ a, CutsBefore (step a) (step' a)) (a : α) :
    CutsBefore (iterate step a) (iterate step' a) := by
  intro b tokens
  unfold Parser.iterate
  exact iterateWithin_related (m := Parser) CutsBefore
    (fun a => refl fun count => (AgreeUpTo.congruence count).pure a) bind hstep tokens a b tokens

theorem congruence : Congruence CutsBefore where
  pure a := refl fun count => (AgreeUpTo.congruence count).pure a
  bind := bind
  peek? := refl fun count => (AgreeUpTo.congruence count).peek?
  next? := refl fun count => (AgreeUpTo.congruence count).next?
  failHere cause := refl fun count => (AgreeUpTo.congruence count).failHere cause
  failBehind cause token := refl fun count => (AgreeUpTo.congruence count).failBehind cause token
  accept kind := refl fun count => (AgreeUpTo.congruence count).accept kind
  require what := refl fun count => (AgreeUpTo.congruence count).require what
  iterate a hstep := iterate hstep a
  unaryOp hop := refl fun count => (AgreeUpTo.congruence count).unaryOp hop
  continuation? token := refl fun count => (AgreeUpTo.congruence count).continuation? token

end CutsBefore

end Parser

theorem Nested.within_cutsBefore (levels : Nat) :
    Parts.Related CutsBefore (within levels) unlimited := by
  have hcut {α : Type} {q : Parser α}
      (h : ∀ {a tokens rest}, q tokens = .ok a rest → rest.length < tokens.length) :
      CutsBefore (failHere .tooDeep) q :=
    fun a tokens rest hok => ⟨Nat.le_of_lt (h hok), .inr ⟨tokens, tokens, rfl, h hok⟩⟩
  induction levels with
  | zero => exact ⟨fun _ => hcut unlimited_reading.expr, hcut unlimited_reading.block⟩
  | succ levels ih =>
      constructor
      · intro floor
        rw [unlimited_expr]
        exact Grammar.expr_related CutsBefore.congruence ih floor
      · rw [unlimited_block]
        exact Grammar.block_related CutsBefore.congruence ih

namespace Grammar

open Nested (unlimited unlimited_sound within)

variable {c rest rest' tokens : List Token} {item : Item Unit} {levels : Nat}

/-- What comes behind a statement has no bearing on the levels that it needs. -/
theorem statement_retained (hok : statement (within levels) (c ++ rest) = .ok item rest)
    (hfree : statement unlimited (c ++ rest') = .ok item rest') :
    statement (within levels) (c ++ rest') = .ok item rest' := by
  have hcut : CutsBefore (statement (within levels)) (statement unlimited) :=
    statement_related CutsBefore.congruence (Nested.within_cutsBefore levels)
  obtain ⟨-, hsame | ⟨blamed, left, herror, hlt⟩⟩ := hcut item _ _ hfree
  · exact hsame
  · obtain ⟨read, hread, hagain⟩ := (statement_steady (Nested.within_steady levels)).error herror
    rcases List.append_eq_append_iff.mp hread with ⟨more, -, rfl⟩ | ⟨more, rfl, rfl⟩
    · simp only [List.length_append] at hlt
      omega
    · have hhead : Option.Rel Token.Alike (more ++ rest').head? (more ++ rest).head? := by
        cases more with
        | nil => simp at hlt
        | cons token _ => exact .some (.refl token)
      obtain ⟨_, herror', -⟩ := hagain (alike_refl read) hhead
      rw [List.append_assoc, herror'] at hok
      cases hok

/-- A statement is read as before with other tokens behind, if they do not continue it. -/
theorem statement_before (hok : statement unlimited (c ++ rest) = .ok item rest)
    (hstops : (∃ items, item = .block items) ∨ ∀ dangling, Stops .lowest dangling rest') :
    statement unlimited (c ++ rest') = .ok item rest' := by
  obtain ⟨_, ending, hc, hphrase, -⟩ := statement_sound unlimited_sound hok
  obtain rfl := List.append_cancel_right hc
  refine hphrase.complete fun dangling hending => ?_
  rcases hstops with ⟨items, rfl⟩ | hstops
  · cases hphrase
    cases hending
  · exact hstops dangling

theorem item_bare {inner : Nested} (hok : statement inner tokens = .ok item rest)
    (hrest : ∀ token ∈ rest.head?, token.kind ≠ .semicolon) :
    Grammar.item inner tokens = .ok item rest := by
  unfold Grammar.item
  dsimp only [Steps.accept]
  rw [bind_of_ok hok, bind_of_ok (accept_eq_ok_false.mpr ⟨rfl, hrest⟩)]
  rfl

theorem item_terminated {inner : Nested} {semicolon : Token}
    (hok : statement inner tokens = .ok item (semicolon :: rest))
    (hsemicolon : semicolon.kind = .semicolon) : Grammar.item inner tokens = .ok item rest := by
  unfold Grammar.item
  dsimp only [Steps.accept]
  rw [bind_of_ok hok, bind_of_ok (accept_eq_ok_true.mpr ⟨semicolon, hsemicolon, rfl⟩)]
  rfl

/-- An item that keeps to a limit is a statement that does. -/
theorem statement_within (hok : Grammar.item (within levels) tokens = .ok item rest)
    (hfree : statement unlimited tokens = .ok item rest') :
    statement (within levels) tokens = .ok item rest' := by
  have hcut : CutsOff (statement (within levels)) (statement unlimited) :=
    statement_related CutsOff.congruence (Nested.within_cutsOff levels)
  rcases hcut tokens with ⟨_, _, herror⟩ | hsame
  · unfold Grammar.item at hok
    rw [bind_of_error herror] at hok
    cases hok
  · exact hsame.trans hfree

theorem item_kind {inner : Nested} (hsound : inner.Sound)
    (hok : Grammar.item inner tokens = .ok item rest) :
    ∃ token behind, tokens = token :: behind ∧
      token.kind ∈ .letWord :: .returnWord :: .leftBrace :: operandKinds := by
  obtain ⟨c, _, rfl, hphrase, -⟩ := item_sound hsound hok
  obtain ⟨token, others, rfl, hkind⟩ := hphrase.starts
  exact ⟨token, others ++ rest, rfl, hkind⟩

/-- An item is one more of a block. -/
theorem oneMore_of_item {inner : Nested} (hsound : inner.Sound)
    (hok : Grammar.item inner tokens = .ok item rest) (found : List (Item Unit)) :
    oneMore inner found tokens = .ok (some (item :: found)) rest := by
  obtain ⟨token, behind, rfl, hkind⟩ := item_kind hsound hok
  refine (oneMore_eq_ok_some inner).mpr ⟨⟨token, rfl, fun heq => ?_⟩, item, hok, rfl⟩
  rw [heq] at hkind
  exact absurd hkind (by decide)

end Grammar

/-- Whatever items are read from the first tokens, up to a brace or to the end, are read from
the second ones. -/
def SameItems (start start' : List Token) : Prop :=
  ∀ levels found items last,
    iterate (Grammar.oneMore (Nested.within levels)) found start = .ok items last →
      iterate (Grammar.oneMore (Nested.within levels)) found start' = .ok items last

namespace SameItems

variable {start start' rest rest' : List Token} {item : Item Unit}

theorem refl (start : List Token) : SameItems start start :=
  fun _ _ _ _ hok => hok

theorem sameBlocks (h : SameItems start start') : SameBlocks start start' := by
  intro levels brace items rest hbrace hok
  have hopening (tokens : List Token) : require .openBrace (brace :: tokens) = .ok brace tokens :=
    require_eq_ok.mpr ⟨hbrace, rfl⟩
  cases levels with
  | zero => cases hok
  | succ levels =>
      change Grammar.block (Nested.within levels) (brace :: start) = _ at hok
      change Grammar.block (Nested.within levels) (brace :: start') = _
      unfold Grammar.block at hok ⊢
      dsimp only [Steps.require, Steps.iterate] at hok ⊢
      rw [bind_of_ok (hopening _)] at hok ⊢
      obtain ⟨found, middle, hfound, hrest⟩ := bind_eq_ok.mp hok
      rw [bind_of_ok (h levels [] found middle hfound)]
      exact hrest

/-- Where items are read, there begins one, or the block or the program ends. -/
theorem next_kind {levels : Nat} {found items : List (Item Unit)} {tokens last : List Token}
    (hok : iterate (Grammar.oneMore (Nested.within levels)) found tokens = .ok items last) :
    ∀ token ∈ tokens.head?, token.kind ∈
      .rightBrace :: .letWord :: .returnWord :: .leftBrace :: Grammar.operandKinds := by
  intro token htoken
  rw [iterate_eq (Grammar.oneMore_advances (Nested.within_reading levels))] at hok
  split at hok
  · rename_i hstep
    obtain ⟨_, item, hitem, _⟩ := (Grammar.oneMore_eq_ok_some _).mp hstep
    obtain ⟨_, _, rfl, hkind⟩ := Grammar.item_kind (Nested.within_sound levels) hitem
    cases htoken
    exact List.mem_cons_of_mem _ hkind
  · rename_i hstep
    obtain ⟨rfl, hend⟩ := (Grammar.oneMore_eq_ok_none _).mp hstep
    exact hend token htoken ▸ List.mem_cons_self
  · cases hok

/-- One item, and the same items behind it. -/
theorem cons (hfree : Grammar.item Nested.unlimited start = .ok item rest)
    (hitem : ∀ levels, Grammar.item (Nested.within levels) start = .ok item rest →
      (∀ token ∈ rest.head?, token.kind ≠ .semicolon ∧ token.kind ≠ .elseWord) →
        Grammar.item (Nested.within levels) start' = .ok item rest')
    (hrest : SameItems rest rest') : SameItems start start' := by
  intro levels found items last hok
  have hadvances := Grammar.oneMore_advances (Nested.within_reading levels)
  have hsound := Nested.within_sound levels
  rcases Grammar.item_related CutsOff.congruence (Nested.within_cutsOff levels) start with
    ⟨blamed, left, herror⟩ | hread
  · obtain ⟨token, behind, rfl, hkind⟩ := Grammar.item_kind Nested.unlimited_sound hfree
    have hbrace : token.kind ≠ .rightBrace := by
      intro heq
      rw [heq] at hkind
      exact absurd hkind (by decide)
    have hstep : Grammar.oneMore (Nested.within levels) found (token :: behind) =
        .error ⟨.tooDeep, blamed⟩ left := by
      rw [Grammar.oneMore_cons, if_neg hbrace, bind_of_error herror]
    rw [iterate_of_error hadvances hstep] at hok
    cases hok
  · rw [hfree] at hread
    rw [iterate_of_some hadvances (Grammar.oneMore_of_item hsound hread found)] at hok
    have hnext := next_kind hok
    have hread' := hitem levels hread fun token htoken => by
      have hkind := hnext token htoken
      constructor
      all_goals
        intro heq
        rw [heq] at hkind
        exact absurd hkind (by decide)
    rw [iterate_of_some hadvances (Grammar.oneMore_of_item hsound hread' found)]
    exact hrest levels _ items last hok

/-- What comes behind an item is exchanged, but for the token that comes next. -/
theorem behind {c : List Token} (hfree : Grammar.item Nested.unlimited (c ++ rest) = .ok item rest)
    (hhead : rest'.head? = rest.head?) (h : SameItems rest rest') :
    SameItems (c ++ rest) (c ++ rest') := by
  refine .cons hfree (fun levels hread _ => ?_) h
  obtain ⟨_, heq, hstable⟩ := (Grammar.item_exchanges (Nested.within_exchanges levels)).ok hread
  obtain rfl := List.append_cancel_right heq
  exact hstable.behind hhead

section Semicolon

variable {c : List Token} {semicolon : Token}

/-- A semicolon may come behind an item. -/
theorem insert (hsemicolon : semicolon.kind = .semicolon)
    (hfree : Grammar.statement Nested.unlimited (c ++ rest) = .ok item rest)
    (hrest : ∀ token ∈ rest.head?, token.kind ≠ .semicolon) :
    SameItems (c ++ rest) (c ++ semicolon :: rest) := by
  refine .cons (Grammar.item_bare hfree hrest) (fun levels hread _ => ?_) (.refl rest)
  have hstops (dangling : Bool) : Grammar.Stops .lowest dangling (semicolon :: rest) :=
    .of_closing (by simp [hsemicolon])
  have hstatement := Grammar.statement_retained (Grammar.statement_within hread hfree)
    (Grammar.statement_before hfree (.inr hstops))
  exact Grammar.item_terminated hstatement hsemicolon

/-- The semicolon behind an item may go, if what comes behind does not continue it. -/
theorem erase (hsemicolon : semicolon.kind = .semicolon)
    (hfree : Grammar.statement Nested.unlimited (c ++ semicolon :: rest) =
      .ok item (semicolon :: rest))
    (hrest : (∃ items, item = .block items) ∨
      ∀ token ∈ rest.head?, Continuation.ofKind? token.kind = none) :
    SameItems (c ++ semicolon :: rest) (c ++ rest) := by
  refine .cons (Grammar.item_terminated hfree hsemicolon) (fun levels hread hnext => ?_)
    (.refl rest)
  have hstops : (∃ items, item = .block items) ∨
      ∀ dangling, Grammar.Stops .lowest dangling rest := by
    refine hrest.imp_right fun hrest dangling token htoken => ⟨?_, fun _ => (hnext token htoken).2⟩
    exact Nat.le_of_eq (congrArg Precedence.rank (Precedence.of_eq_lowest (hrest token htoken)))
  have hstatement := Grammar.statement_retained (Grammar.statement_within hread hfree)
    (Grammar.statement_before hfree hstops)
  exact Grammar.item_bare hstatement fun token htoken => (hnext token htoken).1

end Semicolon

end SameItems

namespace Parsed

variable {found parsed : Parsed} {tokens start rest : List Token}

/-- Without errors a program is read as the items of a block are. -/
theorem Reads.iterate (h : Reads found tokens parsed) (herrors : parsed.errors = []) :
    Parser.iterate (Grammar.oneMore (Nested.within maxNesting)) found.program tokens =
      .ok parsed.program.reverse [] := by
  have hadvances := Grammar.oneMore_advances (Nested.within_reading maxNesting)
  induction h with
  | done =>
      rw [List.reverse_reverse]
      exact iterate_of_none hadvances rfl
  | @item found _ _ _ _ _ hitem _ ih =>
      have hstep := Grammar.oneMore_of_item (Nested.within_sound maxNesting) hitem found.program
      rw [iterate_of_some hadvances hstep]
      exact ih herrors
  | error _ hrest =>
      obtain ⟨errors, heq⟩ := hrest.errors_append
      simp [herrors] at heq

theorem reads_of_iterate (found : Parsed) {items : List (Item Unit)}
    (h : Parser.iterate (Grammar.oneMore (Nested.within maxNesting)) found.program tokens =
      .ok items []) : Reads found tokens ⟨items.reverse, found.errors.reverse⟩ := by
  have hadvances := Grammar.oneMore_advances (Nested.within_reading maxNesting)
  have hrounds := repeats_iterate hadvances found.program tokens
  rw [h] at hrounds
  clear h
  generalize hstart : found.program = program at hrounds
  generalize hresult : EStateM.Result.ok items [] = result at hrounds
  induction hrounds generalizing found with
  | stop hstep =>
      cases hresult
      obtain ⟨rfl, -⟩ := (Grammar.oneMore_eq_ok_none _).mp hstep
      exact hstart ▸ .done
  | fail => cases hresult
  | @next _ _ tokens _ _ hstep _ ih =>
      obtain ⟨⟨token, hhead, -⟩, item, hitem, rfl⟩ := (Grammar.oneMore_eq_ok_some _).mp hstep
      obtain ⟨behind, rfl⟩ := List.head?_eq_some_iff.mp hhead
      subst hstart
      exact .item hitem (ih { found with program := item :: found.program } rfl hresult)

/-- A place where an item may begin: at the start of the program, behind an opening brace, and
behind an item. -/
inductive Begins (tokens : List Token) : List Token → Prop where
  | first : Begins tokens tokens
  | inside {before start : List Token} {brace : Token} (hsplit : tokens = before ++ brace :: start)
      (hbrace : brace.kind = .leftBrace) : Begins tokens start
  | next {start rest : List Token} {item : Item Unit} (h : Begins tokens start)
      (hitem : Grammar.item Nested.unlimited start = .ok item rest) : Begins tokens rest

/-- The tokens from such a place on are exchanged for others with the same items, but for the
token that comes next. -/
theorem Begins.exchange (h : Begins tokens start) (herrors : (ofTokens tokens).errors = []) :
    ∃ before, tokens = before ++ start ∧ ∀ start', start'.head? = start.head? →
      SameItems start start' → ofTokens (before ++ start') = ofTokens tokens := by
  have hread := (reads_ofTokens tokens).iterate herrors
  have hparsed {tokens' : List Token}
      (h : Parser.iterate (Grammar.oneMore (Nested.within maxNesting)) [] tokens' =
        .ok (ofTokens tokens).program.reverse []) : ofTokens tokens' = ofTokens tokens := by
    have hreads := (reads_ofTokens tokens').unique (reads_of_iterate ⟨[], []⟩ h)
    rw [hreads, List.reverse_reverse, List.reverse_nil, ← herrors]
  induction h with
  | first => exact ⟨[], rfl, fun start' _ hsame => hparsed (hsame maxNesting _ _ _ hread)⟩
  | @inside before start brace hsplit hbrace =>
      refine ⟨before ++ [brace], by simpa using hsplit, fun start' _ hsame => hparsed ?_⟩
      have hexchanges :
          Exchanges (Parser.iterate (Grammar.oneMore (Nested.within maxNesting)) []) :=
        .iterate (Grammar.oneMore_advances (Nested.within_reading maxNesting))
          (Grammar.oneMore_exchanges (Nested.within_exchanges maxNesting)) []
      obtain ⟨read, hall, hstable⟩ := hexchanges.ok hread
      obtain rfl : tokens = read := by simpa using hall
      rw [List.append_assoc, List.singleton_append]
      refine hstable.inside hsplit hbrace ?_
      rw [List.append_nil]
      exact hsame.sameBlocks
  | @next start rest item _ hitem ih =>
      obtain ⟨before, rfl, hexchange⟩ := ih
      obtain ⟨c, _, rfl, hphrase, -⟩ := Grammar.item_sound Nested.unlimited_sound hitem
      refine ⟨before ++ c, (List.append_assoc ..).symm, fun rest' hhead hsame => ?_⟩
      rw [List.append_assoc]
      refine hexchange _ ?_ (hsame.behind hitem hhead)
      rw [List.head?_append, List.head?_append, hhead]

/-- Semicolons behind items are optional. In a program without errors, at any place where an
item begins, a semicolon may be put behind the item, and one that is there may go if the item
is a block or the next token continues no expression. The program stays the same. -/
theorem ofTokens_optional_semicolon {item : Item Unit} (herrors : (ofTokens tokens).errors = [])
    (hbegins : Begins tokens start)
    (hitem : Grammar.statement Nested.unlimited start = .ok item rest) :
    ∃ before, tokens = before ++ rest ∧
      ((∀ token ∈ rest.head?, token.kind ≠ .semicolon) →
        ∀ semicolon : Token, semicolon.kind = .semicolon →
          ofTokens (before ++ semicolon :: rest) = ofTokens tokens) ∧
      ∀ semicolon behind, rest = semicolon :: behind → semicolon.kind = .semicolon →
        ((∃ items, item = .block items) ∨
          ∀ token ∈ behind.head?, token.kind ∉ [Token.Kind.plus, .minus, .star, .slash, .less,
            .greater, .equal, .notEqual, .leftParen, .leftBracket]) →
          ofTokens (before ++ behind) = ofTokens tokens := by
  obtain ⟨before, rfl, hexchange⟩ := hbegins.exchange herrors
  obtain ⟨c, _, rfl, hphrase, -⟩ := Grammar.statement_sound Nested.unlimited_sound hitem
  obtain ⟨first, others, rfl, -⟩ := hphrase.starts
  refine ⟨before ++ first :: others, (List.append_assoc ..).symm, ?_, ?_⟩
  · intro hrest semicolon hsemicolon
    rw [List.append_assoc]
    exact hexchange _ rfl (.insert hsemicolon hitem hrest)
  · rintro semicolon behind rfl hsemicolon hbehind
    rw [List.append_assoc]
    refine hexchange _ rfl (.erase hsemicolon hitem (hbehind.imp_right fun hnot token htoken => ?_))
    have hkind := hnot token htoken
    revert hkind
    cases token.kind <;> decide

/-- Inside of a function, behind `x`. -/
theorem ofTokens_optional_semicolon_inside :
    let start : List Token := [⟨.ident, 0, "x"⟩, ⟨.semicolon, 0, ";"⟩, ⟨.ident, 0, "y"⟩,
      ⟨.rightBrace, 0, "\x7d"⟩]
    let tokens : List Token := [⟨.fnWord, 0, "fn"⟩, ⟨.leftParen, 0, "("⟩, ⟨.rightParen, 0, ")"⟩,
      ⟨.leftBrace, 0, "\x7b"⟩] ++ start
    (ofTokens tokens).errors = [] ∧ Begins tokens start ∧
      ∃ before, tokens = before ++ start.tail ∧ ofTokens (before ++ start.tail.tail) =
        ofTokens tokens := by
  intro start tokens
  have hsplit : tokens = [⟨.fnWord, 0, "fn"⟩, ⟨.leftParen, 0, "("⟩, ⟨.rightParen, 0, ")"⟩] ++
      ⟨.leftBrace, 0, "\x7b"⟩ :: start := rfl
  have hbegins : Begins tokens start := .inside hsplit rfl
  have hitem : Grammar.statement Nested.unlimited start = .ok (.expr (.var "x")) start.tail := rfl
  have herrors : (ofTokens tokens).errors = [] := rfl
  obtain ⟨before, hbefore, -, herase⟩ := ofTokens_optional_semicolon herrors hbegins hitem
  exact ⟨rfl, hbegins, before, hbefore, herase _ _ rfl rfl (.inr (by decide))⟩

end Parsed

end Scriptlet
