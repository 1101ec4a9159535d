import Scriptlet.Token

/-!
# Cutting one token from a text

Each token is the longest that its first character allows: a run of letters, a
run of digits, a two-character operator before its one-character beginning.
Nothing is refused here: what is no token of the language becomes an illegal
token, which the grammar then rejects. A cut loses nothing of the text and
always takes at least one character.
-/

namespace Scriptlet.Token

/-- The characters that words are made of: ASCII letters and the underscore. -/
def isWordChar (c : Char) : Bool :=
  c.isAlpha || c = '_'

/-- The character that an escape in a string literal stands for. -/
def unescape? : Char → Option Char
  | '"' => some '"'
  | 't' => some '\t'
  | 'n' => some '\n'
  | '\\' => some '\\'
  | _ => none

/-- The part of a string literal behind its opening quote. -/
structure Quotation where
  /-- The text denoted, if the literal is closed and all its escapes are known. -/
  content? : Option (List Char)
  /-- The characters of the literal, with the closing quote. -/
  span : List Char
  /-- The characters behind the literal. -/
  rest : List Char

namespace Quotation

/-- Reads a string literal to its closing quote or to the end of the text. An
unknown escape spoils the literal, and the reading goes on so that the rest of
the literal is not taken for code. Text and span read so far are passed along
in reverse. -/
def read (content? : Option (List Char)) (span : List Char) : List Char → Quotation
  | [] => ⟨none, span.reverse, []⟩
  | '"' :: rest => ⟨content?.map List.reverse, ('"' :: span).reverse, rest⟩
  | ['\\'] => ⟨none, ('\\' :: span).reverse, []⟩
  | '\\' :: c :: rest =>
      read (content?.bind fun cs => (unescape? c).map (· :: cs)) (c :: '\\' :: span) rest
  | c :: rest => read (content?.map (c :: ·)) (c :: span) rest

/-- Reading loses nothing. -/
theorem read_span_append_rest (content? : Option (List Char)) (span cs : List Char) :
    (read content? span cs).span ++ (read content? span cs).rest = span.reverse ++ cs := by
  fun_induction read content? span cs with
  | case1 => rfl
  | case2 => simp
  | case3 => simp
  | case4 content? span c rest ih => simpa using ih
  | case5 content? span c rest _ _ _ ih => simpa using ih

/-- What is behind the literal has no more characters than there were to read. -/
theorem length_rest_read_le (content? : Option (List Char)) (span cs : List Char) :
    (read content? span cs).rest.length ≤ cs.length := by
  fun_induction read content? span cs with
  | case1 => simp
  | case2 => simp
  | case3 => simp
  | case4 content? span c rest ih => simp only [List.length_cons]; omega
  | case5 content? span c rest _ _ _ ih => simp only [List.length_cons]; omega

end Quotation

/-- A token cut from the front of a text. -/
structure Cut where
  kind : Kind
  lexeme : String
  /-- The characters that the token takes from the text. -/
  span : List Char
  /-- The characters behind the token. -/
  rest : List Char

namespace Cut

/-- A cut whose token reads as it is written. -/
def verbatim (kind : Kind) (span rest : List Char) : Cut :=
  ⟨kind, String.ofList span, span, rest⟩

/-- The string literal that starts with the quote just read. -/
def quotation (rest : List Char) : Cut :=
  let quotation := Quotation.read (some []) ['"'] rest
  match quotation.content? with
  | some content => ⟨.string, String.ofList content, quotation.span, quotation.rest⟩
  | none => .verbatim .illegal quotation.span quotation.rest

/-- The keyword or identifier at the front of a text. -/
def word (cs : List Char) : Cut :=
  let span := cs.takeWhile isWordChar
  .verbatim ((Kind.ofKeyword? (String.ofList span)).getD .ident) span (cs.dropWhile isWordChar)

/-- The digits at the front of a text. -/
def digits (cs : List Char) : Cut :=
  .verbatim .int (cs.takeWhile Char.isDigit) (cs.dropWhile Char.isDigit)

/-- The token that starts with the character `c`, which is no blank. -/
def of (c : Char) (rest : List Char) : Cut :=
  match c, rest with
  | '"', rest => .quotation rest
  | '=', '=' :: rest => .verbatim .equal ['=', '='] rest
  | '!', '=' :: rest => .verbatim .notEqual ['!', '='] rest
  | c, rest =>
      match Kind.ofChar? c with
      | some kind => .verbatim kind [c] rest
      | none =>
          if isWordChar c then .word (c :: rest)
          else if c.isDigit then .digits (c :: rest)
          else .verbatim .illegal [c] rest

theorem quotation_span_append_rest (rest : List Char) :
    (quotation rest).span ++ (quotation rest).rest = '"' :: rest := by
  have h := Quotation.read_span_append_rest (some []) ['"'] rest
  unfold quotation
  dsimp only
  split <;> exact h

theorem length_rest_quotation_le (rest : List Char) :
    (quotation rest).rest.length ≤ rest.length := by
  have h := Quotation.length_rest_read_le (some []) ['"'] rest
  unfold quotation
  dsimp only
  split <;> exact h

/-- A cut loses nothing. -/
theorem of_span_append_rest (c : Char) (rest : List Char) :
    (of c rest).span ++ (of c rest).rest = c :: rest := by
  unfold of
  split
  · exact quotation_span_append_rest _
  · rfl
  · rfl
  · split
    · rfl
    · split
      · exact List.takeWhile_append_dropWhile
      · split
        · exact List.takeWhile_append_dropWhile
        · rfl

/-- A cut takes at least one character. -/
theorem length_rest_of_le (c : Char) (rest : List Char) :
    (of c rest).rest.length ≤ rest.length := by
  unfold of
  split
  · exact length_rest_quotation_le _
  · simp [verbatim]
  · simp [verbatim]
  · split
    · simp [verbatim]
    · split
      · rename_i h
        simpa [word, verbatim, h] using (List.dropWhile_sublist isWordChar).length_le
      · split
        · rename_i h
          simpa [digits, verbatim, h] using (List.dropWhile_sublist Char.isDigit).length_le
        · simp [verbatim]

/-- No character begins the end of a text. -/
theorem of_kind_ne_endOfFile (c : Char) (rest : List Char) : (of c rest).kind ≠ .endOfFile := by
  have hword (word : String) : (Kind.ofKeyword? word).getD .ident ≠ .endOfFile := by
    simp only [Kind.ofKeyword?, keywords, List.lookup_cons, List.lookup_nil]
    repeat' split
    all_goals simp
  unfold of
  split
  · unfold quotation
    dsimp only
    split <;> simp [verbatim]
  · simp [verbatim]
  · simp [verbatim]
  · split
    · rename_i kind h
      unfold Kind.ofChar? at h
      split at h <;> simp_all [verbatim] <;> simp [← h]
    · split
      · exact hword _
      · split <;> simp [digits, verbatim]

end Cut

end Scriptlet.Token
