import Scriptlet.Proofs.Grammar.Completion
import Scriptlet.Proofs.Grammar.Joining

/-!
# Reading on behind an error

After an error in a statement that ends in a semicolon, reading goes on behind this
semicolon, as if there were no statement before. But when the semicolon itself is the
token to blame and has been read already, the search for the end of the statement begins
too late and takes the next statement with it. Main result: `Parsed.ofTokens_error_append`.
-/

namespace Scriptlet

open Scriptlet.Parser

/-- One statement as it may stand in a program: a semicolon at its end and nowhere else,
no braces, and behind the first token no word that only begins items. -/
structure Token.Line (tokens : List Token) : Prop where
  ends : ∃ others last, tokens = others ++ [last] ∧ last.kind = .semicolon ∧
    ∀ token ∈ others, token.kind ≠ .semicolon
  unbraced : ∀ token ∈ tokens, token.kind ≠ .leftBrace ∧ token.kind ≠ .rightBrace
  begins : ∀ token ∈ tokens.tail, token.kind ≠ .letWord ∧ token.kind ≠ .returnWord

/-- Up to a semicolon everything is skipped that begins no item. -/
theorem skipItem_append {others : List Token} {last : Token}
    (hothers : ∀ token ∈ others,
      token.kind ≠ .semicolon ∧ token.kind ≠ .letWord ∧ token.kind ≠ .returnWord)
    (hlast : last.kind = .semicolon) (behind : List Token) :
    skipItem (others ++ last :: behind) = behind := by
  induction others with
  | nil => simp [skipItem, hlast]
  | cons token others ih =>
      obtain ⟨hfirst, hothers⟩ := List.forall_mem_cons.mp hothers
      simp only [List.cons_append, skipItem, hfirst, or_self, if_false]
      exact ih hothers

namespace Token.Line

variable {tokens : List Token} {error : ParseError} {rest : List Token}

theorem exists_cons (h : Token.Line tokens) : ∃ first tail, tokens = first :: tail := by
  obtain ⟨others, last, rfl, _⟩ := h.ends
  exact List.exists_cons_of_ne_nil (List.concat_ne_nil last others)

/-- An error in a line is found before its end: nothing could come behind the semicolon. -/
theorem blamed_ne_nil (h : Token.Line tokens) (herror : Item.parser tokens = .error error rest) :
    error.tokens ≠ [] := by
  intro hnil
  have hcompletable := Grammar.item_completable (Nested.within_sound maxNesting)
    (Nested.within_completable maxNesting)
  obtain ⟨read, more, item, hmore, hread, ending, hitem⟩ := hcompletable.error herror
  obtain ⟨others, last, rfl, hlast, _⟩ := h.ends
  obtain rfl : read = others ++ [last] := by simpa [hnil] using hread.symm
  rw [List.append_assoc] at hitem
  refine hmore (hitem.ends_at_semicolon hlast fun other hother => ?_)
  exact (h.unbraced other (List.mem_append_left _ hother)).1

/-- With more behind the line, the parser fails in the same way and leaves more. -/
theorem parser_append (h : Token.Line tokens) (herror : Item.parser tokens = .error error rest)
    (more : List Token) :
    Item.parser (tokens ++ more) = .error ⟨error.cause, error.tokens ++ more⟩ (rest ++ more) := by
  obtain ⟨read, rfl, _⟩ := Item.parser_steady.error herror
  have hne := h.blamed_ne_nil herror
  obtain ⟨cause, blamed⟩ := error
  obtain ⟨token, behind, rfl⟩ := List.exists_cons_of_ne_nil hne
  obtain ⟨rest', herror', hleft⟩ := Item.parser_error_append herror (behind ++ more)
  rw [List.append_assoc, List.cons_append, herror']
  rcases hleft with ⟨rfl, rfl⟩ | ⟨rfl, rfl⟩ <;> rfl

/-- What is left behind an error in a line is skipped with it, unless nothing is left. -/
theorem skipItem_rest (h : Token.Line tokens) (herror : Item.parser tokens = .error error rest)
    (more : List Token) : skipItem (rest ++ more) = if rest = [] then skipItem more else more := by
  split
  · rename_i hnil
    rw [hnil, List.nil_append]
  · rename_i hne
    obtain ⟨first, tail, rfl⟩ := h.exists_cons
    have hsuffix : rest <:+ tail := Item.left_suffix herror
    obtain ⟨others, last, hline, hlast, hothers⟩ := h.ends
    have hwhole : rest <:+ others ++ [last] := hline ▸ hsuffix.trans (List.suffix_cons first tail)
    obtain hnil | ⟨left, rfl, hleft⟩ := List.suffix_concat_iff.mp hwhole
    · exact absurd hnil hne
    · rw [List.append_assoc]
      refine skipItem_append (fun token htoken => ?_) hlast more
      have hmem : token ∈ tail := hsuffix.subset (List.mem_append_left _ htoken)
      exact ⟨hothers token (hleft.subset htoken), h.begins token hmem⟩

end Token.Line

namespace Parsed

/-- Behind an error in a line, the rest of a program is read as it is on its own, from the
next line on. When the line has been read to its end already, the rest loses what stands
before its first semicolon, or before the first word that only begins items. -/
theorem ofTokens_error_append {tokens rest : List Token} {error : ParseError}
    (hline : Token.Line tokens) (herror : Item.parser tokens = .error error rest)
    (more : List Token) :
    let left := if rest = [] then skipItem more else more
    (ofTokens (tokens ++ more)).program = (ofTokens left).program ∧
      (ofTokens (tokens ++ more)).errors.map ParseError.message =
        error.message :: (ofTokens left).errors.map ParseError.message := by
  intro left
  have herror' := hline.parser_append herror more
  have hread : Reads ⟨[], []⟩ (tokens ++ more)
      ⟨(ofTokens left).program, ⟨error.cause, error.tokens ++ more⟩ :: (ofTokens left).errors⟩ := by
    have hleft := (reads_ofTokens left).behind ⟨[], [⟨error.cause, error.tokens ++ more⟩]⟩
    have hskip := hline.skipItem_rest herror more
    obtain ⟨first, tail, rfl⟩ := hline.exists_cons
    exact .error herror' (hskip ▸ hleft)
  rw [(reads_ofTokens _).unique hread]
  refine ⟨rfl, congrArg (· :: _) ?_⟩
  -- The wording looks at the blamed token alone.
  obtain ⟨token, behind, hblamed⟩ := List.exists_cons_of_ne_nil (hline.blamed_ne_nil herror)
  simp only [ParseError.message, ParseError.wording, hblamed, List.cons_append]

/-- Behind the line `1 + ;` the line `x;` is lost. -/
theorem ofTokens_error_append_sum :
    (ofTokens [⟨.int, 0, "1"⟩, ⟨.plus, 0, "+"⟩, ⟨.semicolon, 0, ";"⟩, ⟨.ident, 0, "x"⟩,
        ⟨.semicolon, 0, ";"⟩, ⟨.ident, 0, "y"⟩]).program = [.expr (.var "y")] ∧
      (ofTokens [⟨.int, 0, "1"⟩, ⟨.plus, 0, "+"⟩, ⟨.semicolon, 0, ";"⟩, ⟨.ident, 0, "x"⟩,
        ⟨.semicolon, 0, ";"⟩, ⟨.ident, 0, "y"⟩]).errors.map ParseError.message =
          ["Parse error at line 1: no prefix parse rule for ;"] := by
  have herror : Item.parser [⟨.int, 0, "1"⟩, ⟨.plus, 0, "+"⟩, ⟨.semicolon, 0, ";"⟩] =
      .error ⟨.noExpression, [⟨.semicolon, 0, ";"⟩]⟩ [] := rfl
  exact ofTokens_error_append ⟨⟨[_, _], _, rfl, rfl, by decide⟩, by decide, by decide⟩ herror
    [⟨.ident, 0, "x"⟩, ⟨.semicolon, 0, ";"⟩, ⟨.ident, 0, "y"⟩]

/-- A line with an error does not always leave what is behind it as it is: the next line may be
lost. -/
theorem exists_ofTokens_error_ne :
    Token.Line [⟨.int, 0, "1"⟩, ⟨.plus, 0, "+"⟩, ⟨.semicolon, 0, ";"⟩] ∧
      Item.parser [⟨.int, 0, "1"⟩, ⟨.plus, 0, "+"⟩, ⟨.semicolon, 0, ";"⟩] =
        .error ⟨.noExpression, [⟨.semicolon, 0, ";"⟩]⟩ [] ∧
      (ofTokens ([⟨.int, 0, "1"⟩, ⟨.plus, 0, "+"⟩, ⟨.semicolon, 0, ";"⟩] ++
        [⟨.ident, 0, "x"⟩, ⟨.semicolon, 0, ";"⟩, ⟨.ident, 0, "y"⟩])).program = [.expr (.var "y")] ∧
      (ofTokens [⟨.ident, 0, "x"⟩, ⟨.semicolon, 0, ";"⟩, ⟨.ident, 0, "y"⟩]).program =
        [.expr (.var "x"), .expr (.var "y")] :=
  ⟨⟨⟨[_, _], _, rfl, rfl, by decide⟩, by decide, by decide⟩, rfl, rfl, rfl⟩

end Parsed

end Scriptlet
