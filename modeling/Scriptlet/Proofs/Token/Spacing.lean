import Mathlib.Data.List.Chain
import Scriptlet.Proofs.Token.Segments
import Scriptlet.Proofs.Token.Spelling

/-!
# How much space tokens need

Tokens are written one behind the other, with blanks between them or none. Two of them
need a blank between them if what they are written with could be read as one token. What
a token may say and how it is written is said here without the lexer. Main result:
`ofText_eq_iff_spaced`.
-/

namespace Scriptlet.Token

/-- The text of a kind that has only one. -/
def Kind.fixedText? : Kind → Option String
  | .leftParen => some "("
  | .rightParen => some ")"
  | .leftBrace => some "\x7b"
  | .rightBrace => some "\x7d"
  | .leftBracket => some "["
  | .rightBracket => some "]"
  | .comma => some ","
  | .semicolon => some ";"
  | .assign => some "="
  | .bang => some "!"
  | .minus => some "-"
  | .plus => some "+"
  | .slash => some "/"
  | .star => some "*"
  | .equal => some "=="
  | .notEqual => some "!="
  | .less => some "<"
  | .greater => some ">"
  | .letWord => some "let"
  | .fnWord => some "fn"
  | .trueWord => some "true"
  | .falseWord => some "false"
  | .ifWord => some "if"
  | .elseWord => some "else"
  | .returnWord => some "return"
  | .ident | .int | .string | .endOfFile | .illegal => none

/-- What a token of this kind may say. The end of the file and illegal tokens are not written. -/
def Kind.Admits (kind : Kind) (lexeme : String) : Prop :=
  match kind with
  | .ident =>
      lexeme ≠ "" ∧ (∀ c ∈ lexeme.toList, isWordChar c = true) ∧
        ∀ other : Kind, other.fixedText? ≠ some lexeme
  | .int => lexeme ≠ "" ∧ ∀ c ∈ lexeme.toList, c.isDigit = true
  | .string => True
  | kind => kind.fixedText? = some lexeme

/-- The ways to write a token: a string literal in quotes, any other token as it is. -/
def Kind.Writes (kind : Kind) (lexeme : String) (span : List Char) : Prop :=
  if kind = .string then ∃ cs, span = '"' :: cs ∧ Quotes lexeme.toList cs
  else span = lexeme.toList

/-- Characters that only separate tokens. -/
def Blanks : Type :=
  { cs : List Char // ∀ c ∈ cs, isBlank c = true }

/-- A token as it is written, with the blanks before it. -/
structure Inscription where
  kind : Kind
  lexeme : String
  blanks : Blanks
  span : List Char
  admits : kind.Admits lexeme
  writes : kind.Writes lexeme span

namespace Inscription

def written (inscription : Inscription) : List Char :=
  inscription.blanks.1 ++ inscription.span

/-- The tokens that are written, each on the line that its span starts on. -/
def tokens (line : Nat) : List Inscription → List Token
  | [] => []
  | first :: others =>
      ⟨first.kind, line + lineBreaks first.blanks.1, first.lexeme⟩ ::
        tokens (line + lineBreaks first.written) others

end Inscription

/-- Whether tokens of these kinds, one right behind the other, are read as another one: two
words, two numbers, and what is the beginning of a longer operator before an equals sign. -/
def Kind.fuses (kind next : Kind) : Bool :=
  match kind with
  | .assign | .bang => next = .assign || next = .equal
  | .int => next = .int
  | kind => kind.isWord && next.isWord

/-- Blanks stand between tokens that need them. -/
def Inscription.Spaced (inscriptions : List Inscription) : Prop :=
  inscriptions.IsChain fun first second =>
    first.kind.fuses second.kind = true → second.blanks.1 ≠ []

/-- A run of word characters, written as it is. -/
theorem Spells.ofWord {word : String} {kind : Kind} (hne : word ≠ "")
    (hchars : ∀ c ∈ word.toList, isWordChar c = true)
    (hkind : (Kind.ofKeyword? word).getD .ident = kind) : Spells kind word word.toList := by
  have hspells := Spells.word (by simpa using hne) hchars
  rwa [String.ofList_toList, hkind] at hspells

theorem Spells.ofFixedText {kind : Kind} {lexeme : String}
    (h : kind.fixedText? = some lexeme) : Spells kind lexeme lexeme.toList := by
  cases kind with
  | ident | int | string | endOfFile | illegal => cases h
  | equal =>
      cases h
      exact .equal
  | notEqual =>
      cases h
      exact .notEqual
  | letWord | fnWord | trueWord | falseWord | ifWord | elseWord | returnWord =>
      cases h
      exact Spells.ofWord (by decide) (List.all_eq_true.mp (by decide)) (by decide)
  | _ =>
      cases h
      exact .sign rfl

/-- The text of a keyword is that of its kind. -/
theorem Kind.fixedText?_of_mem_keywords {word : String} {kind : Kind}
    (h : (word, kind) ∈ keywords) : kind.fixedText? = some word := by
  simp only [keywords, List.mem_cons, Prod.mk.injEq, List.not_mem_nil, or_false] at h
  rcases h with ⟨rfl, rfl⟩ | ⟨rfl, rfl⟩ | ⟨rfl, rfl⟩ | ⟨rfl, rfl⟩ | ⟨rfl, rfl⟩ | ⟨rfl, rfl⟩ |
    ⟨rfl, rfl⟩ <;> rfl

/-- What is written as a token may be is one of the ways that the lexer reads. -/
theorem Kind.Writes.spells {kind : Kind} {lexeme : String} {span : List Char}
    (h : kind.Writes lexeme span) (hadmits : kind.Admits lexeme) : Spells kind lexeme span := by
  unfold Writes at h
  unfold Admits at hadmits
  split at hadmits
  · obtain ⟨hne, hchars, hfixed⟩ := hadmits
    have hkeyword : ofKeyword? lexeme = none := by
      cases hword : ofKeyword? lexeme with
      | none => rfl
      | some kind =>
          have hmem := ofKeyword?_eq_some.mp hword
          exact absurd (fixedText?_of_mem_keywords hmem) (hfixed kind)
    rw [if_neg (by decide)] at h
    exact h ▸ Spells.ofWord hne hchars (by rw [hkeyword]; rfl)
  · obtain ⟨hne, hdigits⟩ := hadmits
    have hspells := Spells.int (by simpa using hne) hdigits
    rw [String.ofList_toList] at hspells
    rw [if_neg (by decide)] at h
    exact h ▸ hspells
  · obtain ⟨cs, rfl, hquotes⟩ := by simpa using h
    have hspells := Spells.text hquotes
    rwa [String.ofList_toList] at hspells
  · rename_i hstring
    rw [if_neg hstring] at h
    exact h ▸ .ofFixedText hadmits

/-- A sign goes on only if a longer operator begins with it. -/
theorem Kind.joins_of_sign {c : Char} {kind : Kind} (h : ofChar? c = some kind) (d : Char) :
    kind.joins d = ((c = '=' || c = '!') && d = '=') := by
  unfold ofChar? at h
  split at h <;> cases h <;> rfl

section Apart

variable {kind : Kind} {lexeme : String} {span behind : List Char}

/-- A token that stands in a text is apart from what is behind it. -/
theorem Stands.apart (h : Stands kind lexeme span behind) : kind.Apart behind := by
  have hword {kind : Kind} (hkind : kind.isWord = true)
      (hend : ∀ c ∈ behind.head?, isWordChar c = false) : kind.Apart behind := by
    intro c hc
    rw [Kind.joins_of_isWord hkind]
    exact hend c hc
  cases h with
  | keyword hkind _ hend =>
      have hisWord := Kind.isWord_ofKeyword? (String.ofList span)
      rw [Kind.ofKeyword?_eq_some.mpr hkind] at hisWord
      exact hword hisWord hend
  | name _ _ _ hend => exact hword rfl hend
  | int _ _ hend => exact hend
  | sign hkind hend =>
      intro d hd
      rw [Kind.joins_of_sign hkind]
      simpa using fun hc => hend hc d hd
  | equal | notEqual | text | spoiled | opened | other => exact fun _ _ => rfl

/-- A token that is no string literal is written as it is. -/
theorem Stands.span_eq (h : Stands kind lexeme span behind) (hkind : kind ≠ .string) :
    span = lexeme.toList := by
  cases h with
  | text => exact absurd rfl hkind
  | _ => simp

theorem Spells.span_eq (h : Spells kind lexeme span) (hkind : kind ≠ .string) :
    span = lexeme.toList := by
  cases h with
  | text => exact absurd rfl hkind
  | _ => simp

/-- What is written is read only where nothing behind it makes the token go on. -/
theorem Spells.apart_of_next (h : Spells kind lexeme span) {line : Nat}
    (hnext : (Cursor.next ⟨line, span ++ behind⟩).1 = ⟨kind, line, lexeme⟩) :
    kind.Apart behind := by
  by_cases hstring : kind = .string
  · subst hstring
    exact fun _ _ => rfl
  obtain ⟨c, cs, rfl, hblank, _, _⟩ := h.cut
  have hdrop : (c :: cs ++ behind).dropWhile isBlank = c :: (cs ++ behind) := by simp [hblank]
  rw [Cursor.next_of_cons hdrop] at hnext
  obtain ⟨hkind, _, hlexeme⟩ := Token.mk.inj hnext
  have hstands := Stands.cut hblank (cs ++ behind)
  rw [hkind, hlexeme] at hstands
  -- The token read is as long as the one written, so what is behind it is the same.
  have hspan : (Cut.of c (cs ++ behind)).span = c :: cs := by
    rw [hstands.span_eq hstring, ← h.span_eq hstring]
  have htext := Cut.of_span_append_rest c (cs ++ behind)
  rw [hspan, List.cons_append] at htext
  have hrest : (Cut.of c (cs ++ behind)).rest = behind :=
    List.append_cancel_left (List.cons.inj htext).2
  rw [hrest] at hstands
  exact hstands.apart

/-- What the first character of a token tells about its kind. -/
theorem Spells.head {c : Char} {cs : List Char} (h : Spells kind lexeme (c :: cs)) :
    (c = '=' ↔ kind = .assign ∨ kind = .equal) ∧ (c.isDigit = true ↔ kind = .int) ∧
      isWordChar c = kind.isWord := by
  cases h with
  | word _ hchars =>
      have hword := Kind.isWord_ofKeyword? (String.ofList (c :: cs))
      generalize (Kind.ofKeyword? (String.ofList (c :: cs))).getD .ident = kind at hword
      have hc := hchars c List.mem_cons_self
      have hne : c ≠ '=' := by rintro rfl; cases hc
      have hdigit : c.isDigit ≠ true := fun hdigit => by
        rw [(isDigit_apart hdigit).2.2.2] at hc
        cases hc
      refine ⟨?_, ?_, by rw [hc, hword]⟩
      · simp only [hne, false_iff]
        rintro (rfl | rfl) <;> cases hword
      · refine ⟨fun h => absurd h hdigit, ?_⟩
        rintro rfl
        cases hword
  | int _ hdigits =>
      have hc := hdigits c List.mem_cons_self
      have hne : c ≠ '=' := by rintro rfl; cases hc
      exact ⟨by simp [hne], by simp [hc], (isDigit_apart hc).2.2.2⟩
  | sign hkind =>
      obtain ⟨_, hword, hdigit, _⟩ := Kind.ofChar?_eq_some hkind
      rw [hword, hdigit]
      unfold Kind.ofChar? at hkind
      split at hkind <;> cases hkind <;> decide
  | equal | notEqual | text => decide

/-- Whether a token goes on before another one depends on the kinds. -/
theorem Spells.joins_head {c : Char} {cs : List Char} (h : Spells kind lexeme (c :: cs))
    (before : Kind) : before.joins c = before.fuses kind := by
  obtain ⟨hequals, hdigit, hword⟩ := h.head
  cases before with
  | assign | bang => simp [Kind.joins, Kind.fuses, hequals]
  | int => exact Bool.eq_iff_iff.mpr (by simpa [Kind.joins, Kind.fuses] using hdigit)
  | _ => simp only [Kind.joins, Kind.fuses, hword]

end Apart

namespace Inscription

/-- All that is written. -/
def writtenAll (inscriptions : List Inscription) (ending : Blanks) : List Char :=
  inscriptions.flatMap written ++ ending.1

theorem spells (inscription : Inscription) :
    Spells inscription.kind inscription.lexeme inscription.span :=
  inscription.writes.spells inscription.admits

/-- A token is apart from the tokens behind it if the next one is not to fuse with it. -/
theorem apart_writtenAll_iff (kind : Kind) (inscriptions : List Inscription) (ending : Blanks) :
    kind.Apart (writtenAll inscriptions ending) ↔
      ∀ next ∈ inscriptions.head?, kind.fuses next.kind = true → next.blanks.1 ≠ [] := by
  have hblank {c : Char} {cs : List Char} (hc : isBlank c = true) : kind.Apart (c :: cs) := by
    rintro d hd
    cases hd
    exact kind.joins_of_isBlank hc
  cases inscriptions with
  | nil =>
      obtain ⟨blanks, hblanks⟩ := ending
      cases blanks with
      | nil => simp [writtenAll, Kind.Apart]
      | cons c cs => simp [writtenAll, hblank (hblanks c List.mem_cons_self)]
  | cons next others =>
      obtain ⟨next_kind, lexeme, ⟨blanks, hblanks⟩, span, hadmits, hwrites⟩ := next
      cases blanks with
      | nil =>
          have hspells := hwrites.spells hadmits
          obtain ⟨c, cs, rfl, _⟩ := hspells.cut
          simp [writtenAll, written, Kind.Apart, hspells.joins_head kind]
      | cons c cs =>
          simp [writtenAll, written, hblank (hblanks c List.mem_cons_self)]

/-- From any line on, the tokens written are read if and only if they are spaced. -/
theorem tokens_eq_iff_spaced (line : Nat) (inscriptions : List Inscription) (ending : Blanks) :
    (Cursor.tokens ⟨line, writtenAll inscriptions ending⟩).1 = tokens line inscriptions ↔
      Spaced inscriptions := by
  induction inscriptions generalizing line with
  | nil =>
      have hend : ending.1.dropWhile isBlank = [] := List.dropWhile_eq_nil_iff.mpr ending.2
      have htokens := Cursor.tokens_of_endOfFile
        ((@Cursor.next_kind_eq_endOfFile_iff line _).mpr hend)
      simpa [writtenAll, tokens, Spaced] using htokens
  | cons first others ih =>
      have hspells := first.spells
      have hskip : (Cursor.tokens ⟨line, writtenAll (first :: others) ending⟩).1 =
          (Cursor.tokens ⟨line + lineBreaks first.blanks.1,
            first.span ++ writtenAll others ending⟩).1 := by
        have htext : writtenAll (first :: others) ending =
            first.blanks.1 ++ (first.span ++ writtenAll others ending) := by
          simp [writtenAll, written]
        rw [htext]
        exact Cursor.tokens_of_next_eq (Cursor.next_blanks first.blanks.2 line _)
      have hline : line + lineBreaks first.written =
          line + lineBreaks first.blanks.1 + lineBreaks first.span := by
        rw [written, lineBreaks_append, Nat.add_assoc]
      rw [hskip, tokens, Spaced, List.isChain_cons, ← apart_writtenAll_iff _ _ ending]
      by_cases hapart : first.kind.Apart (writtenAll others ending)
      · rw [hspells.tokens_append hapart, List.cons.injEq, hline, ih]
        simp [hapart, Spaced]
      · simp only [hapart, false_and, iff_false]
        intro htokens
        by_cases hend : (Cursor.next ⟨line + lineBreaks first.blanks.1,
            first.span ++ writtenAll others ending⟩).1.kind = .endOfFile
        · rw [Cursor.tokens_of_endOfFile hend] at htokens
          cases htokens
        · -- The first token is the one that was written, so it does not go on.
          rw [Cursor.tokens_of_next hend, List.cons.injEq] at htokens
          exact hapart (hspells.apart_of_next htokens.1)

end Inscription

/-- A text in which tokens are written one behind the other has exactly these tokens, each on
the line that it starts on, if and only if there are blanks between two words, between two
numbers, and between `=` or `!` and a token behind it that begins with an equals sign. -/
theorem ofText_eq_iff_spaced (inscriptions : List Inscription) (ending : Blanks) :
    ofText (String.ofList (Inscription.writtenAll inscriptions ending)) =
      Inscription.tokens 0 inscriptions ↔ Inscription.Spaced inscriptions := by
  rw [ofText, Cursor.start, String.toList_ofList]
  exact Inscription.tokens_eq_iff_spaced 0 inscriptions ending

end Scriptlet.Token
