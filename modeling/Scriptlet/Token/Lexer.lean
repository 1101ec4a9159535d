import Scriptlet.Token.Cut

/-!
# From a text to its tokens

Blanks separate tokens and are skipped; between them tokens are cut from the
front of what is left until nothing is. The tokens of a text are the next token,
unless it is the end of the file, followed by the tokens of what is left then.
-/

namespace Scriptlet.Token

/-- The characters that only separate tokens. -/
def isBlank (c : Char) : Bool :=
  c = ' ' || c = '\t' || c = '\r' || c = '\n'

/-- The number of line breaks in a text. -/
def lineBreaks (cs : List Char) : Nat :=
  cs.count '\n'

theorem lineBreaks_append (cs ds : List Char) :
    lineBreaks (cs ++ ds) = lineBreaks cs + lineBreaks ds :=
  List.count_append

/-- A place in a text: what is left of it, and the number of line breaks before. -/
structure Cursor where
  line : Nat
  rest : List Char

namespace Cursor

/-- The start of a text. -/
def start (text : String) : Cursor :=
  ⟨0, text.toList⟩

/-- The next token and the place behind it. At the end of the text that is the
end-of-file token, however often it is asked for. -/
def next (cursor : Cursor) : Token × Cursor :=
  let line := cursor.line + lineBreaks (cursor.rest.takeWhile isBlank)
  match cursor.rest.dropWhile isBlank with
  | [] => (⟨.endOfFile, line, "end of file"⟩, ⟨line, []⟩)
  | c :: rest =>
      let cut := Cut.of c rest
      (⟨cut.kind, line, cut.lexeme⟩, ⟨line + lineBreaks cut.span, cut.rest⟩)

/-- Every token but the end-of-file token takes a character. -/
theorem length_rest_next_lt {cursor : Cursor} (h : cursor.next.1.kind ≠ .endOfFile) :
    cursor.next.2.rest.length < cursor.rest.length := by
  have hblank := (List.dropWhile_sublist isBlank (l := cursor.rest)).length_le
  unfold next at h ⊢
  dsimp only at h ⊢
  split at h
  · simp at h
  · rename_i c rest hrest
    have hcut := Cut.length_rest_of_le c rest
    simp only [hrest, List.length_cons] at hblank ⊢
    omega

/-- Collects tokens up to the end of the text, behind those `found` already,
which are in reverse. Every token takes a character, so the characters at hand
bound the number of rounds. -/
def collect : List Char → List Token → Cursor → List Token × Cursor
  | [], found, cursor => (found.reverse, cursor)
  | _ :: more, found, cursor =>
      let (token, behind) := cursor.next
      if token.kind = .endOfFile then (found.reverse, behind)
      else collect more (token :: found) behind

/-- All tokens from here to the end of the text, the end-of-file token left out,
and the place behind them. -/
def tokens (cursor : Cursor) : List Token × Cursor :=
  collect cursor.rest [] cursor

/-- The tokens collected come behind those found, and the rounds at hand do not
matter if they are enough. -/
theorem collect_fst (more : List Char) (found : List Token) (cursor : Cursor)
    (h : cursor.rest.length ≤ more.length) :
    (collect more found cursor).1 = found.reverse ++ cursor.tokens.1 := by
  suffices ∀ (rounds more : List Char) (found : List Token) (cursor : Cursor),
      cursor.rest.length ≤ more.length → cursor.rest.length ≤ rounds.length →
      (collect more found cursor).1 = found.reverse ++ (collect rounds [] cursor).1 from
    this cursor.rest more found cursor h (Nat.le_refl _)
  clear h more found cursor
  intro rounds
  induction rounds with
  | nil =>
      rintro more found ⟨line, rest⟩ _ h
      obtain rfl : rest = [] := List.eq_nil_of_length_eq_zero (by simpa using h)
      cases more <;> simp [collect, next]
  | cons _ rounds ih =>
      intro more found cursor hmore hrounds
      by_cases hend : cursor.next.1.kind = .endOfFile
      · cases more <;> simp [collect, hend]
      · have hlt := length_rest_next_lt hend
        cases more with
        | nil => simp at hmore; simp [hmore] at hlt
        | cons _ more =>
            simp only [List.length_cons] at hmore hrounds
            simp only [collect, hend, if_false]
            rw [ih more _ _ (by omega) (by omega), ih rounds [_] _ (by omega) (by omega)]
            simp

/-- At the end of the text there are no tokens. -/
theorem tokens_of_endOfFile {cursor : Cursor} (h : cursor.next.1.kind = .endOfFile) :
    cursor.tokens.1 = [] := by
  obtain ⟨line, rest⟩ := cursor
  cases rest <;> simp [tokens, collect, h]

/-- The next token is the first, and those of what is behind it follow. -/
theorem tokens_of_next {cursor : Cursor} (h : cursor.next.1.kind ≠ .endOfFile) :
    cursor.tokens.1 = cursor.next.1 :: cursor.next.2.tokens.1 := by
  have hlt := length_rest_next_lt h
  obtain ⟨line, rest⟩ := cursor
  cases rest with
  | nil => simp at hlt
  | cons c rest =>
      simp only [List.length_cons] at hlt
      rw [tokens]
      simp only [collect, h, if_false]
      rw [collect_fst _ _ _ (by omega)]
      rfl

end Cursor

/-- The tokens of a text. -/
def ofText (text : String) : List Token :=
  (Cursor.start text).tokens.1

end Scriptlet.Token
