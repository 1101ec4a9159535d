import Scriptlet.Proofs.Grammar.Extension
import Scriptlet.Proofs.Token.Segments

/-!
# The errors of a program in order

An error leaves the token to blame unread or has just read it, and the search for the next
item stops before a word that only begins items. So the next item may begin with the token
that was blamed. But then it begins with such a word, and an item that does blames
something behind it. Main result: `Parsed.errors_ordered`.
-/

namespace Scriptlet

open Scriptlet.Parser

/-- The place of the token to blame among the tokens of a program. The end of the program
is the place behind its last token. -/
def ParseError.position (tokens : List Token) (error : ParseError) : Nat :=
  tokens.length - error.tokens.length

/-- The line that an error names; an error at the end of the program names none. -/
def ParseError.line? (error : ParseError) : Option Nat :=
  error.tokens.head?.map fun token => token.line + 1

section Blamed

variable {tokens rest : List Token} {error : ParseError}

/-- The blamed token is left, or it is the last one read. -/
theorem Item.parser_error_rest (h : Item.parser tokens = .error error rest) :
    error.tokens <:+ tokens ∧ (rest = error.tokens ∨ rest = error.tokens.tail) := by
  obtain ⟨read, hread, hagain⟩ := Item.parser_steady.error h
  obtain ⟨rest', _, hleft⟩ := hagain (alike_refl read) (head?_alike_refl error.tokens)
  refine ⟨⟨read, hread.symm⟩, ?_⟩
  rcases hleft with ⟨hrest, -⟩ | ⟨hrest, -⟩
  · exact .inl hrest
  · exact .inr hrest

/-- A word that only begins items begins one: what is blamed comes behind it. -/
theorem Item.parser_error_behind {token : Token} {behind : List Token}
    (hword : token.kind = .letWord ∨ token.kind = .returnWord)
    (h : Item.parser (token :: behind) = .error error rest) : error.tokens <:+ behind := by
  have hsteady := Nested.within_steady maxNesting
  have hstatement : Grammar.statement (Nested.within maxNesting) (token :: behind) =
      .error error rest := by
    simpa only [Item.parser, Grammar.item, Steps.accept, bind_eq_error, accept_ne_error,
      pure_ne_error, and_false, exists_false, or_false] using h
  rw [Grammar.statement_cons] at hstatement
  rcases hword with hlet | hreturn
  · simp only [hlet] at hstatement
    have hbind : Steady (do
        let name ← require .name
        let _ ← require .assign
        return Item.bind name.lexeme (← (Nested.within maxNesting).expr .lowest)) :=
      .require_bind _ fun name name' hname => .bind (.require _) fun _ _ _ =>
        .bind (hsteady.expr _) fun init _ heq => by
          rw [hname.2, heq]
          exact .pure rfl
    obtain ⟨read, hread, -⟩ := hbind.error hstatement
    exact ⟨read, hread.symm⟩
  · simp only [hreturn] at hstatement
    have hret : Steady (do return Item.ret (← (Nested.within maxNesting).expr .lowest)) :=
      .bind (hsteady.expr _) fun _ => .pure _
    obtain ⟨read, hread, -⟩ := hret.error hstatement
    exact ⟨read, hread.symm⟩

end Blamed

/-- A token is skipped unless it is a word that only begins items. -/
theorem skipItem_cons_suffix {token : Token}
    (hword : ¬(token.kind = .letWord ∨ token.kind = .returnWord)) (behind : List Token) :
    skipItem (token :: behind) <:+ behind := by
  unfold skipItem
  rw [if_neg hword]
  split
  · exact List.suffix_rfl
  · exact skipItem_suffix behind

namespace Parsed

/-- Errors that come one behind the other from here on. A word that only begins items is
not blamed where one begins. -/
structure Ordered (tokens : List Token) (errors : List ParseError) : Prop where
  blamed {error : ParseError} : error ∈ errors → error.tokens <:+ tokens
  nil : tokens = [] → errors = []
  word {token : Token} {behind : List Token} : tokens = token :: behind →
    token.kind = .letWord ∨ token.kind = .returnWord →
      ∀ error ∈ errors, error.tokens <:+ behind
  strict : errors.Pairwise fun error later => later.tokens.length < error.tokens.length

namespace Ordered

variable {tokens rest : List Token} {errors : List ParseError} {error : ParseError}

/-- Nothing is blamed in an item that is read. -/
theorem cons {token : Token} (h : Ordered rest errors) (hrest : rest <:+ tokens) :
    Ordered (token :: tokens) errors where
  blamed hmem := (h.blamed hmem).trans (hrest.trans (List.suffix_cons token tokens))
  nil hnil := by cases hnil
  word heq _ error hmem := by
    cases heq
    exact (h.blamed hmem).trans hrest
  strict := h.strict

/-- Behind an error, what is blamed next comes behind what was blamed. -/
theorem length_lt (h : Ordered (skipItem rest) errors)
    (hrest : rest = error.tokens ∨ rest = error.tokens.tail) :
    ∀ later ∈ errors, later.tokens.length < error.tokens.length := by
  intro later hlater
  cases hblamed : error.tokens with
  | nil =>
      obtain rfl : rest = [] := by simpa [hblamed] using hrest
      simp [h.nil rfl] at hlater
  | cons token behind =>
      suffices later.tokens <:+ behind from Nat.lt_succ_of_le this.length_le
      rw [hblamed] at hrest
      rcases hrest with rfl | rfl
      · by_cases hword : token.kind = .letWord ∨ token.kind = .returnWord
        · have hstop : skipItem (token :: behind) = token :: behind := by simp [skipItem, hword]
          exact h.word hstop hword later hlater
        · exact (h.blamed hlater).trans (skipItem_cons_suffix hword behind)
      · exact (h.blamed hlater).trans (skipItem_suffix _)

/-- An error, and those found where reading goes on behind it. -/
theorem cons_error {token : Token} (herror : Item.parser (token :: tokens) = .error error rest)
    (h : Ordered (skipItem rest) errors) : Ordered (token :: tokens) (error :: errors) := by
  obtain ⟨hblamed, hrest⟩ := Item.parser_error_rest herror
  have hleft : rest <:+ tokens := Item.left_suffix herror
  have hothers : Ordered (token :: tokens) errors := h.cons ((skipItem_suffix rest).trans hleft)
  constructor
  · intro other hmem
    rcases List.mem_cons.mp hmem with rfl | hmem
    · exact hblamed
    · exact hothers.blamed hmem
  · intro hnil
    cases hnil
  · intro word behind heq hword other hmem
    rcases List.mem_cons.mp hmem with rfl | hmem
    · cases heq
      exact Item.parser_error_behind hword herror
    · exact hothers.word heq hword other hmem
  · exact List.pairwise_cons.mpr ⟨h.length_lt hrest, h.strict⟩

/-- The places of the errors, counted from the first token. -/
theorem positions (h : Ordered tokens errors) :
    (errors.map (ParseError.position tokens)).Pairwise (· < ·) := by
  rw [List.pairwise_map]
  refine h.strict.imp_of_mem fun {error later} herror _ hlt => ?_
  have hle := (h.blamed herror).length_le
  unfold ParseError.position
  omega

/-- No error comes behind one at the end of the program. -/
theorem eq_nil_of_end {before after : List ParseError} (h : Ordered tokens errors)
    (hsplit : errors = before ++ error :: after) (hend : error.tokens = []) : after = [] := by
  have hstrict := h.strict
  rw [hsplit, List.pairwise_append, List.pairwise_cons, hend] at hstrict
  exact List.eq_nil_iff_forall_not_mem.mpr fun later hlater =>
    Nat.not_lt_zero _ (hstrict.2.1.1 later hlater)

/-- What holds between the tokens of a program from one to the next holds between those
that are blamed. -/
theorem heads {r : Token → Token → Prop} (h : Ordered tokens errors) (hr : tokens.Pairwise r) :
    (errors.filterMap fun error => error.tokens.head?).Pairwise r := by
  rw [List.pairwise_filterMap]
  refine h.strict.imp_of_mem fun {error later} herror hlater hlt token htoken token' htoken' => ?_
  obtain ⟨behind, hblamed⟩ := List.head?_eq_some_iff.mp htoken
  obtain ⟨behind', hblamed'⟩ := List.head?_eq_some_iff.mp htoken'
  have hsuffix : later.tokens <:+ behind := by
    refine List.suffix_of_suffix_length_le (h.blamed hlater) ?_ ?_
    · exact (List.suffix_cons token behind).trans (hblamed ▸ h.blamed herror)
    · simpa [hblamed, Nat.lt_succ_iff] using hlt
  have hpair : (token :: behind).Pairwise r := hr.sublist (hblamed ▸ h.blamed herror).sublist
  exact (List.pairwise_cons.mp hpair).1 token' (hsuffix.subset (hblamed' ▸ List.mem_cons_self))

end Ordered

namespace Reads

variable {found parsed : Parsed} {tokens : List Token}

/-- The errors from here on are in order. -/
theorem ordered (h : Reads found tokens parsed) :
    ∃ errors, parsed.errors = found.errors.reverse ++ errors ∧ Ordered tokens errors := by
  induction h with
  | done => exact ⟨[], by simp, by simp, fun _ => rfl, by simp, .nil⟩
  | item hitem _ ih =>
      obtain ⟨errors, heq, hordered⟩ := ih
      exact ⟨errors, heq, hordered.cons (Item.left_suffix hitem)⟩
  | @error _ _ _ _ _ error herror _ ih =>
      obtain ⟨errors, heq, hordered⟩ := ih
      exact ⟨error :: errors, by simpa using heq, hordered.cons_error herror⟩

/-- Every item and every error takes a token. -/
theorem length_le (h : Reads found tokens parsed) :
    parsed.program.length + parsed.errors.length ≤
      found.program.length + found.errors.length + tokens.length := by
  induction h with
  | done => simp
  | item hitem _ ih =>
      have hleft := (Item.left_suffix hitem).length_le
      simp only [left, List.length_cons] at hleft ih ⊢
      omega
  | @error _ _ _ _ rest _ herror _ ih =>
      have hleft := (Item.left_suffix herror).length_le
      have hskip := (skipItem_suffix rest).length_le
      simp only [left, List.length_cons] at hleft ih ⊢
      omega

end Reads

end Parsed

namespace Token

variable {line : Nat} {cs ending : List Char} {segments : List Segment}

/-- The lines of the tokens of a text never decrease. -/
theorem Segmentation.lines_pairwise (h : Segmentation line cs segments ending) :
    (segments.map Segment.token).Pairwise fun token later => token.line ≤ later.line := by
  rw [List.pairwise_map]
  suffices ∀ before after, segments = before ++ after →
      after.Pairwise fun segment later => segment.token.line ≤ later.token.line from
    this [] segments rfl
  intro before after
  induction after generalizing before with
  | nil => exact fun _ => .nil
  | cons segment after ih =>
      intro hsplit
      have hothers := ih (before ++ [segment]) (by simp [hsplit])
      refine List.pairwise_cons.mpr ⟨fun later hlater => ?_, hothers⟩
      obtain ⟨between, others, rfl⟩ := List.append_of_mem hlater
      have hline := h.line hsplit
      have hsplit' : segments = (before ++ segment :: between) ++ later :: others := by
        simp [hsplit]
      have hlater := h.line hsplit'
      simp only [List.flatMap_append, List.flatMap_cons, Segment.written, lineBreaks_append]
        at hline hlater
      omega

end Token

namespace Parsed

/-- The errors of a program come in the order of its tokens. Each is at a place of its own,
only the last one can be at the end of the program, and every item and every error has taken
a token. An error that names a token of a text names the line on which it begins, so the
lines never decrease. -/
theorem errors_ordered (tokens : List Token) :
    (∀ error ∈ (ofTokens tokens).errors, tokens.drop (error.position tokens) = error.tokens) ∧
    ((ofTokens tokens).errors.map (ParseError.position tokens)).Pairwise (· < ·) ∧
    (∀ before error after, (ofTokens tokens).errors = before ++ error :: after →
      error.tokens = [] → after = []) ∧
    (ofTokens tokens).program.length + (ofTokens tokens).errors.length ≤ tokens.length ∧
    ∀ text, tokens = Token.ofText text →
      (∃ segments ending, Token.Segmentation 0 text.toList segments ending ∧
        tokens = segments.map Token.Segment.token ∧
        ∀ error ∈ (ofTokens tokens).errors, error.tokens ≠ [] →
          ∃ before segment after, segments = before ++ segment :: after ∧
            before.length = error.position tokens ∧
            error.line? = some (Token.lineBreaks
              (before.flatMap Token.Segment.written ++ segment.blanks) + 1) ∧
            error.message = "Parse error at line " ++ Text.Decimal.write (Token.lineBreaks
              (before.flatMap Token.Segment.written ++ segment.blanks) + 1) ++ ": " ++
                error.cause.text ++ " " ++ segment.token.lexeme) ∧
      ((ofTokens tokens).errors.filterMap ParseError.line?).Pairwise (· ≤ ·) := by
  obtain ⟨errors, heq, hordered⟩ := (reads_ofTokens tokens).ordered
  have hlength := (reads_ofTokens tokens).length_le
  obtain rfl : (ofTokens tokens).errors = errors := by simpa using heq
  refine ⟨fun error herror => ?_, hordered.positions, fun before error after hsplit =>
    hordered.eq_nil_of_end hsplit, by simpa using hlength, fun text htext => ?_⟩
  · obtain ⟨read, hread⟩ := hordered.blamed herror
    simp [ParseError.position, ← hread]
  · obtain ⟨segments, ending, hsegments, htokens⟩ := Token.exists_segmentation text
    rw [← htext] at htokens
    refine ⟨⟨segments, ending, hsegments, htokens, fun error herror hnamed => ?_⟩, ?_⟩
    · obtain ⟨token, behind, hblamed⟩ := List.exists_cons_of_ne_nil hnamed
      obtain ⟨read, hread⟩ := hordered.blamed herror
      rw [hblamed, htokens] at hread
      obtain ⟨before, others, rfl, rfl, hothers⟩ := List.map_eq_append_iff.mp hread.symm
      obtain ⟨segment, after, rfl, rfl, rfl⟩ := List.map_eq_cons_iff.mp hothers
      have hline := hsegments.line rfl
      rw [Nat.zero_add] at hline
      refine ⟨before, segment, after, rfl, ?_, ?_, ?_⟩
      · simp [ParseError.position, htokens, hblamed]
      · simp [ParseError.line?, hblamed, hline]
      · simp only [ParseError.message, ParseError.wording, hblamed, hline]
    · have hlines := hordered.heads (htokens ▸ hsegments.lines_pairwise)
      unfold ParseError.line?
      simp only [← List.map_filterMap, List.pairwise_map, Nat.add_le_add_iff_right]
      exact hlines

/-- The word `let` is blamed where `)` is missing, and begins the next item. -/
theorem errors_ordered_let :
    let tokens := Token.ofText "(1\nlet = 2"
    (ofTokens tokens).errors.map (ParseError.position tokens) = [2, 3] ∧
      (ofTokens tokens).errors.filterMap ParseError.line? = [2, 2] ∧
      ([2, 3] : List Nat).Pairwise (· < ·) ∧ ([2, 2] : List Nat).Pairwise (· ≤ ·) := by
  intro tokens
  have hpositions : (ofTokens tokens).errors.map (ParseError.position tokens) = [2, 3] := by
    decide +kernel
  have hlines : (ofTokens tokens).errors.filterMap ParseError.line? = [2, 2] := by
    decide +kernel
  obtain ⟨-, hstrict, -, -, htext⟩ := errors_ordered tokens
  rw [hpositions] at hstrict
  have hnever := (htext "(1\nlet = 2" rfl).2
  rw [hlines] at hnever
  exact ⟨hpositions, hlines, hstrict, hnever⟩

end Parsed

end Scriptlet
