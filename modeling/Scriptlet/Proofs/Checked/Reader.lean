import Scriptlet.Proofs.Checked.Agreement
import Scriptlet.Proofs.Program.Diagnostics

/-!
# Reading with a counter of levels

A reader counts the levels of nesting that are open: up when one opens, down when it
closes, whether it was read or not. It reads by the grammar, with tables of rules that say
what goes on with an expression and which operator a token is. An error tells the number
of the line to blame, which is counted from one. So the counter must not fall below zero,
the operator must exist, the number must be a word, and the levels and the items must come
to an end.

Opening and closing levels is balanced on every way out, and the tables agree with one
another. So the one hazard that a reader meets is a line whose number is no word, and it is
met where the parser would blame a token on that line.
-/

namespace Scriptlet.Checked

/-- A reader at work. -/
structure Reader where
  /-- The tokens to come. -/
  tokens : List Token
  /-- The number of levels that are open. -/
  depth : Nat

/-- What a reader does. -/
abbrev Read (α : Type) := Checked ParseError Reader α

/-- What may go on with an expression. -/
inductive InfixRule where
  | binary | call | index

def InfixRule.ofKind? : Token.Kind → Option InfixRule
  | .plus | .minus | .star | .slash | .less | .greater | .equal | .notEqual => some .binary
  | .leftParen => some .call
  | .leftBracket => some .index
  | _ => none

namespace Read

variable {α : Type}

/-- Raises an error, with the number of the line to blame if there is one. -/
def blame (error : ParseError) : Read α :=
  match error.tokens with
  | token :: _ => do
      let _ ← expect .counter (increment? token.line)
      raise error
  | [] => raise error

/-- What a parser does with the tokens to come. -/
def tokens (p : Parser α) : Read α := fun reader =>
  match p reader.tokens with
  | .ok a tokens => .ok a { reader with tokens }
  | .error error tokens => blame error { reader with tokens }

/-- How a token goes on with an expression by its rule. -/
def continuation (token : Token) : InfixRule → Read Continuation
  | .binary => return .operator (← expect .operator (BinaryOp.ofKind? token.kind))
  | .call => return .call
  | .index => return .index

instance : Steps Read where
  peek? := tokens Parser.peek?
  next? := tokens Parser.next?
  failHere cause := tokens (Parser.failHere cause)
  failBehind cause token := tokens (Parser.failBehind cause token)
  accept kind := tokens (Parser.accept kind)
  require what := tokens (Parser.require what)
  iterate step a := do iterateWithin step (← get).tokens a
  unaryOp token := expect .operator (UnaryOp.ofKind? token.kind)
  continuation? token := do
    match InfixRule.ofKind? token.kind with
    | some rule => return some (← continuation token rule)
    | none => return none

/-- Opens a level for a part, if there is one left, and closes it behind the part. -/
def nested (p : Read α) : Read α := do
  if maxNesting ≤ (← get).depth then tokens (Parser.failHere .tooDeep)
  else
    modify fun reader => { reader with depth := reader.depth + 1 }
    let result ← attempt p
    let depth ← expect .counter (decrement? (← get).depth)
    modify fun reader => { reader with depth }
    conclude result

/-- The readers of the parts, one in another for so many rounds. -/
def parts : Nat → Parts Read
  | 0 => ⟨fun _ => throw (.inl .endless), throw (.inl .endless)⟩
  | rounds + 1 =>
      ⟨fun floor => nested (Grammar.expr (parts rounds) floor),
        nested (Grammar.block (parts rounds))⟩

/-- An expression whose operators bind more tightly than the precedence. There is a round
for every level that may be open, and one more. -/
def expr : Precedence → Read (Expr Unit) :=
  (parts (maxNesting + 1)).expr

/-- An item of a program. -/
def item : Read (Item Unit) :=
  Grammar.item (parts (maxNesting + 1))

end Read

section Items

variable {σ : Type} (ahead : σ → List Token) (skip : σ → σ)
  (item : Checked ParseError σ (Item Unit))

/-- Reads the items to come, behind what was found before, which is in reverse. Behind an
error it skips to where the next item may begin. -/
def itemsWithin : Nat → Parsed → Checked Empty σ Parsed
  | 0, _ => throw (.inl .endless)
  | rounds + 1, found => do
      if (ahead (← get)).isEmpty then return ⟨found.program.reverse, found.errors.reverse⟩
      else
        match ← attempt item with
        | .ok item => itemsWithin rounds { found with program := item :: found.program }
        | .error error => do
            modify skip
            itemsWithin rounds { found with errors := error :: found.errors }

variable {ahead skip item} {state next : σ} {rounds : Nat} {found : Parsed}

theorem itemsWithin_done (h : ahead state = []) :
    itemsWithin ahead skip item (rounds + 1) found state =
      .ok ⟨found.program.reverse, found.errors.reverse⟩ state := by
  rw [itemsWithin, get_bind, h]
  rfl

theorem itemsWithin_item {read : Item Unit} (hmore : ahead state ≠ [])
    (hread : item state = .ok read next) :
    itemsWithin ahead skip item (rounds + 1) found state =
      itemsWithin ahead skip item rounds { found with program := read :: found.program } next := by
  have hattempt : (attempt item : Checked Empty σ _) state = .ok (.ok read) next := by
    simp only [attempt, hread]
  rw [itemsWithin, get_bind, if_neg (by simpa using hmore), bind_of_ok hattempt]

theorem itemsWithin_error {error : ParseError} (hmore : ahead state ≠ [])
    (hread : item state = .error (.inr error) next) :
    itemsWithin ahead skip item (rounds + 1) found state =
      itemsWithin ahead skip item rounds { found with errors := error :: found.errors }
        (skip next) := by
  have hattempt : (attempt item : Checked Empty σ _) state = .ok (.error error) next := by
    simp only [attempt, hread]
  rw [itemsWithin, get_bind, if_neg (by simpa using hmore), bind_of_ok hattempt]
  rfl

theorem itemsWithin_hazard {hazard : Hazard} (hmore : ahead state ≠ [])
    (hread : item state = .error (.inl hazard) next) :
    itemsWithin ahead skip item (rounds + 1) found state = .error (.inl hazard) next := by
  have hattempt : (attempt item : Checked Empty σ (Except ParseError (Item Unit))) state =
      .error (.inl hazard) next := by
    simp only [attempt, hread]
  rw [itemsWithin, get_bind, if_neg (by simpa using hmore), bind_of_error hattempt]

variable (ahead skip item) in
/-- From states of interest, which it keeps to, an item is read as the parser reads it and skipped
as behind an error of the parser. But an error that is not fine is a hazard. -/
structure ReadsItems (holds : σ → Prop) (fine : ParseError → Prop) (hazard : Hazard) : Prop where
  read {state : σ} {a : Item Unit} {rest : List Token} (hstate : holds state)
    (hparse : Item.parser (ahead state) = .ok a rest) :
    ∃ next, holds next ∧ ahead next = rest ∧ item state = .ok a next
  raised {state : σ} {error : ParseError} {rest : List Token} (hstate : holds state)
    (hparse : Item.parser (ahead state) = .error error rest) (hfine : fine error) :
    ∃ next, holds next ∧ ahead next = rest ∧ item state = .error (.inr error) next
  met {state : σ} {error : ParseError} {rest : List Token} (hstate : holds state)
    (hparse : Item.parser (ahead state) = .error error rest) (hfine : ¬fine error) :
    ∃ next, item state = .error (.inl hazard) next
  skipped {state : σ} (hstate : holds state) :
    holds (skip state) ∧ ahead (skip state) = skipItem (ahead state)

/-- Whatever the parser reads item after item is read so, up to the first error that is a
hazard. -/
theorem ReadsItems.itemsWithin_of_reads {holds : σ → Prop} {fine : ParseError → Prop}
    {hazard : Hazard} (h : ReadsItems ahead skip item holds fine hazard) {parsed : Parsed}
    {tokens : List Token} (hreads : Parsed.Reads found tokens parsed) (hstate : holds state)
    (hahead : ahead state = tokens) (hfound : ∀ error ∈ found.errors, fine error)
    (hrounds : tokens.length < rounds) :
    ((∀ error ∈ parsed.errors, fine error) ∧ ∃ last, holds last ∧ ahead last = [] ∧
        itemsWithin ahead skip item rounds found state = .ok parsed last) ∨
      ((∃ error ∈ parsed.errors, ¬fine error) ∧ ∃ last,
        itemsWithin ahead skip item rounds found state = .error (.inl hazard) last) := by
  induction hreads generalizing state rounds with
  | done =>
      obtain ⟨rounds, rfl⟩ := Nat.exists_eq_add_of_lt hrounds
      exact .inl ⟨fun error herror => hfound error (List.mem_reverse.mp herror),
        state, hstate, hahead, itemsWithin_done hahead⟩
  | @item found parsed token tokens rest read hparse _ ih =>
      obtain ⟨rounds, rfl⟩ := Nat.exists_eq_add_of_lt hrounds
      have hmore : ahead state ≠ [] := by simp [hahead]
      have hrest : rest.length ≤ tokens.length := (Item.left_suffix hparse).length_le
      obtain ⟨next, hnext, hleft, hitem⟩ := h.read hstate (hahead ▸ hparse)
      rw [itemsWithin_item hmore hitem]
      exact ih hnext hleft hfound (by rw [List.length_cons]; omega)
  | @error found parsed token tokens rest error hparse hreads ih =>
      obtain ⟨rounds, rfl⟩ := Nat.exists_eq_add_of_lt hrounds
      have hmore : ahead state ≠ [] := by simp [hahead]
      have hrest : rest.length ≤ tokens.length := (Item.left_suffix hparse).length_le
      have hskip := (skipItem_suffix rest).length_le
      by_cases hfine : fine error
      · obtain ⟨next, hnext, hleft, hitem⟩ := h.raised hstate (hahead ▸ hparse) hfine
        obtain ⟨hskipped, hbehind⟩ := h.skipped hnext
        rw [itemsWithin_error hmore hitem]
        exact ih hskipped (hleft ▸ hbehind) (List.forall_mem_cons.mpr ⟨hfine, hfound⟩)
          (by rw [List.length_cons]; omega)
      · obtain ⟨next, hitem⟩ := h.met hstate (hahead ▸ hparse) hfine
        obtain ⟨errors, heq, -⟩ := hreads.ordered
        exact .inr ⟨⟨error, by simp [heq], hfine⟩, next, itemsWithin_hazard hmore hitem⟩

end Items

namespace Read

/-- Reads the items to come, in fewer rounds than given. -/
def program : Nat → Parsed → Checked Empty Reader Parsed :=
  itemsWithin Reader.tokens (fun reader => { reader with tokens := skipItem reader.tokens }) item

end Read

/-- What can be read of a program and the levels left open then, or the hazard met on the
way. -/
def read (tokens : List Token) : Except Hazard (Parsed × Nat) :=
  match Read.program (tokens.length + 1) ⟨[], []⟩ ⟨tokens, 0⟩ with
  | .ok parsed reader => .ok (parsed, reader.depth)
  | .error (.inl hazard) _ => .error hazard

/-! ## Agreement with the grammar -/

/-- A parser that fails blames a line whose number is a word. -/
def Numbered {α : Type} : EStateM.Result ParseError (List Token) α → Prop
  | .ok _ _ => True
  | .error error _ => error.Numbered

/-- With so many levels open a reader does what a parser does, and leaves as many open. But
where the parser blames a line whose number is no word, the reader meets the hazard. -/
def AgreesAt {α : Type} (depth : Nat) (p : Read α) (q : Parser α) : Prop :=
  ∀ tokens,
    (Numbered (q tokens) ∧ p ⟨tokens, depth⟩ = outcome (fun rest => ⟨rest, depth⟩) (q tokens)) ∨
      (¬Numbered (q tokens) ∧ ∃ reader, p ⟨tokens, depth⟩ = .error (.inl .counter) reader)

theorem Read.blame_of_numbered {α : Type} {error : ParseError} (h : error.Numbered) :
    (blame error : Read α) = raise error := by
  unfold blame
  cases htokens : error.tokens with
  | nil => rfl
  | cons token rest =>
      have hline : token.line + 1 < UInt64.size := h token (by rw [htokens]; rfl)
      dsimp only
      rw [increment?, if_pos hline]
      rfl

theorem Read.blame_of_not_numbered {α : Type} {error : ParseError} (h : ¬error.Numbered) :
    (blame error : Read α) = throw (.inl .counter) := by
  unfold blame
  cases htokens : error.tokens with
  | nil => exact absurd (fun token hhead => by simp [htokens] at hhead) h
  | cons token rest =>
      have hline : ¬token.line + 1 < UInt64.size := fun hline => h fun other hhead => by
        rw [htokens] at hhead
        obtain rfl : token = other := Option.some.inj hhead
        exact hline
      dsimp only
      rw [increment?, if_neg hline]
      rfl

namespace AgreesAt

variable {α β : Type} {depth : Nat} {p : Read α} {q : Parser α}

theorem pure (a : α) : AgreesAt depth (Pure.pure a : Read α) (Pure.pure a) :=
  fun _ => .inl ⟨True.intro, rfl⟩

theorem bind {f : α → Read β} {g : α → Parser β} (h : AgreesAt depth p q)
    (hf : ∀ a, AgreesAt depth (f a) (g a)) : AgreesAt depth (p >>= f) (q >>= g) := by
  intro tokens
  have hrun := h tokens
  cases hparsed : q tokens with
  | ok a rest =>
      rw [hparsed] at hrun
      obtain ⟨_, hrun⟩ | ⟨hnot, _⟩ := hrun
      · rw [bind_of_ok hrun, Parser.bind_of_ok hparsed]
        exact hf a rest
      · exact absurd True.intro hnot
  | error error rest =>
      rw [hparsed] at hrun
      rw [Parser.bind_of_error hparsed]
      obtain ⟨hnumbered, hrun⟩ | ⟨hnot, reader, hrun⟩ := hrun
      · exact .inl ⟨hnumbered, bind_of_error hrun⟩
      · exact .inr ⟨hnot, reader, bind_of_error hrun⟩

theorem tokens (q : Parser α) : AgreesAt depth (Read.tokens q) q := by
  intro tokens
  unfold Read.tokens
  cases q tokens with
  | ok a rest => exact .inl ⟨True.intro, rfl⟩
  | error error rest =>
      by_cases hnumbered : error.Numbered
      · exact .inl ⟨hnumbered, congrFun (Read.blame_of_numbered hnumbered) _⟩
      · exact .inr ⟨hnumbered, _, congrFun (Read.blame_of_not_numbered hnumbered) _⟩

/-- The rules say what the grammar says of a token. -/
theorem continuation? (token : Token) :
    AgreesAt depth (Steps.continuation? token) (Steps.continuation? token) := by
  obtain ⟨kind, line, lexeme⟩ := token
  cases kind <;> exact fun _ => .inl ⟨True.intro, rfl⟩

theorem steps (depth : Nat) : Steps.Related (m := Read) (n := Parser) (AgreesAt depth) where
  pure := pure
  bind := bind
  peek? := tokens Parser.peek?
  next? := tokens Parser.next?
  failHere cause := tokens (Parser.failHere cause)
  failBehind cause token := tokens (Parser.failBehind cause token)
  accept kind := tokens (Parser.accept kind)
  require what := tokens (Parser.require what)
  iterate a h := fun tokens =>
    iterateWithin_related (m := Read) (n := Parser) (AgreesAt depth) pure bind h tokens a tokens
  unaryOp {token op} hop := by
    rw [Parser.unaryOp_of_kind hop]
    simp only [Steps.unaryOp, hop, expect_some]
    exact pure op
  continuation? := continuation?

/-- Within the limit, a part is read with one level more open, and that one is closed again
on every way out. -/
theorem nested (h : AgreesAt (depth + 1) p q) (hdepth : depth < maxNesting) :
    AgreesAt depth (Read.nested p) q := by
  intro tokens
  rw [Read.nested, get_bind, if_neg (Nat.not_le_of_lt hdepth), modify_bind]
  obtain ⟨hnumbered, hrun⟩ | ⟨hnot, reader, hrun⟩ := h tokens
  · have hattempt : (attempt p : Read (Except ParseError α)) _ = _ := attempt_of_eq hrun
    rw [bind_of_ok hattempt]
    -- However the attempt has ended, the counter is above zero then, since the part keeps it.
    exact .inl ⟨hnumbered, conclude_ending (fun rest => (⟨rest, depth⟩ : Reader)) (q tokens)⟩
  · have hattempt : (attempt p : Read (Except ParseError α)) ⟨tokens, depth + 1⟩ =
        .error (.inl .counter) reader := by
      simp only [attempt, hrun]
    rw [bind_of_error hattempt]
    exact .inr ⟨hnot, reader, rfl⟩

/-- At the limit no part can be read. -/
theorem nested_tooDeep (p : Read α) (hdepth : maxNesting ≤ depth) :
    AgreesAt depth (Read.nested p) (Parser.failHere .tooDeep) := by
  intro tokens
  rw [Read.nested, get_bind, if_pos hdepth]
  exact AgreesAt.tokens (Parser.failHere .tooDeep) tokens

/-- At every depth the readers of the parts do what parsers do that may open the levels
left. -/
theorem within {levels : Nat} (hlevels : depth + levels = maxNesting) :
    Parts.Related (AgreesAt depth) (Read.parts (levels + 1)) (Nested.within levels) := by
  induction levels generalizing depth with
  | zero =>
      -- The test of the counter comes before the rounds run out.
      have hdepth : maxNesting ≤ depth := by omega
      exact ⟨fun _ => nested_tooDeep _ hdepth, nested_tooDeep _ hdepth⟩
  | succ levels ih =>
      have hdepth : depth < maxNesting := by omega
      have hinner : Parts.Related (AgreesAt (depth + 1)) (Read.parts (levels + 1))
          (Nested.within levels) := ih (by omega)
      exact ⟨fun floor => (Grammar.expr_related (steps _) hinner floor).nested hdepth,
        (Grammar.block_related (steps _) hinner).nested hdepth⟩

/-- With no level open the readers of the parts do what the parsers do. -/
theorem parts :
    Parts.Related (AgreesAt 0) (Read.parts (maxNesting + 1)) (Nested.within maxNesting) :=
  within (Nat.zero_add maxNesting)

theorem expr (floor : Precedence) : AgreesAt 0 (Read.expr floor) (Expr.parser floor) :=
  parts.expr floor

theorem item : AgreesAt 0 Read.item Item.parser := by
  have hitem := Grammar.item_related (steps 0) parts
  exact hitem

end AgreesAt

/-- Between the items the counter is at zero. -/
theorem Read.program_readsItems :
    ReadsItems Reader.tokens (fun reader => { reader with tokens := skipItem reader.tokens })
      Read.item (fun reader => reader.depth = 0) ParseError.Numbered .counter where
  read := by
    rintro ⟨tokens, depth⟩ item rest rfl hparse
    have hitem := AgreesAt.item tokens
    rw [hparse] at hitem
    obtain ⟨_, hrun⟩ | ⟨hnot, _⟩ := hitem
    · exact ⟨_, rfl, rfl, hrun⟩
    · exact absurd True.intro hnot
  raised := by
    rintro ⟨tokens, depth⟩ error rest rfl hparse hnumbered
    have hitem := AgreesAt.item tokens
    rw [hparse] at hitem
    obtain ⟨_, hrun⟩ | ⟨hnot, _⟩ := hitem
    · exact ⟨_, rfl, rfl, hrun⟩
    · exact absurd hnumbered hnot
  met := by
    rintro ⟨tokens, depth⟩ error rest rfl hparse hnot
    have hitem := AgreesAt.item tokens
    rw [hparse] at hitem
    obtain ⟨hnumbered, _⟩ | ⟨_, hrun⟩ := hitem
    · exact absurd hnumbered hnot
    · exact hrun
  skipped hdepth := ⟨hdepth, rfl⟩

/-- Reading a program finds what the parser finds and closes every level that it opens,
unless there is an error about a line whose number is no word. -/
theorem read_eq (tokens : List Token) :
    read tokens =
      if ∀ error ∈ (Parsed.ofTokens tokens).errors, error.Numbered then
        .ok (Parsed.ofTokens tokens, 0)
      else .error .counter := by
  have hstart : (Reader.mk tokens 0).depth = 0 := rfl
  have hprogram := Read.program_readsItems.itemsWithin_of_reads (Parsed.reads_ofTokens tokens)
    hstart rfl (List.forall_mem_nil _) (Nat.lt_succ_self _)
  unfold read Read.program
  obtain ⟨hnumbered, last, hlast, -, hrun⟩ | ⟨⟨error, herror, hnot⟩, last, hrun⟩ := hprogram
  · rw [hrun, if_pos hnumbered]
    dsimp only
    rw [hlast]
  · rw [hrun, if_neg fun hnumbered => hnot (hnumbered error herror)]

end Scriptlet.Checked
