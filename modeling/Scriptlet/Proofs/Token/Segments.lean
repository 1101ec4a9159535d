import Scriptlet.Proofs.Token.Joint

/-!
# A text is its tokens and the blanks between them

Nothing of a text is lost: it is the spans of its tokens in order, with blanks before
each and behind the last. What may be the span of a token is said here without the
lexer, together with what may come behind it, so that no span could be longer. Main
result: `ofText_segments`.
-/

namespace Scriptlet.Token

/-- A character of a string literal as it is written: by itself, or behind a backslash. -/
inductive Piece where
  | plain (c : Char) (hquote : c ≠ '"') (hescape : c ≠ '\\')
  | escape (c : Char)

namespace Piece

def written : Piece → List Char
  | .plain c _ _ => [c]
  | .escape c => ['\\', c]

/-- The character that is meant; unknown escapes mean none. -/
def meaning? : Piece → Option Char
  | .plain c _ _ => some c
  | .escape c => unescape? c

end Piece

/-- A token of this kind and text may be written as `span` where `behind` comes next, and
no longer span could be this token. -/
inductive Stands : Kind → String → (span behind : List Char) → Prop where
  | keyword {span behind : List Char} {kind : Kind}
      (hkind : (String.ofList span, kind) ∈ keywords) (hspan : ∀ c ∈ span, isWordChar c = true)
      (hend : ∀ c ∈ behind.head?, isWordChar c = false) :
      Stands kind (String.ofList span) span behind
  | name {span behind : List Char} (hne : span ≠ [])
      (hkind : ∀ kind, (String.ofList span, kind) ∉ keywords)
      (hspan : ∀ c ∈ span, isWordChar c = true)
      (hend : ∀ c ∈ behind.head?, isWordChar c = false) :
      Stands .ident (String.ofList span) span behind
  | int {span behind : List Char} (hne : span ≠ []) (hspan : ∀ c ∈ span, c.isDigit = true)
      (hend : ∀ c ∈ behind.head?, c.isDigit = false) :
      Stands .int (String.ofList span) span behind
  | equal {behind : List Char} : Stands .equal (String.ofList ['=', '=']) ['=', '='] behind
  | notEqual {behind : List Char} : Stands .notEqual (String.ofList ['!', '=']) ['!', '='] behind
  | sign {c : Char} {kind : Kind} {behind : List Char} (hkind : Kind.ofChar? c = some kind)
      (hend : c = '=' ∨ c = '!' → ∀ d ∈ behind.head?, d ≠ '=') :
      Stands kind (String.ofList [c]) [c] behind
  | text {pieces : List Piece} {content behind : List Char}
      (hcontent : pieces.mapM Piece.meaning? = some content) :
      Stands .string (String.ofList content) ('"' :: (pieces.flatMap Piece.written ++ ['"'])) behind
  /-- A closed string literal with an unknown escape. -/
  | spoiled {pieces : List Piece} {behind : List Char}
      (hcontent : pieces.mapM Piece.meaning? = none) :
      Stands .illegal (String.ofList ('"' :: (pieces.flatMap Piece.written ++ ['"'])))
        ('"' :: (pieces.flatMap Piece.written ++ ['"'])) behind
  /-- A string literal that the end of the text leaves open, maybe behind a backslash. -/
  | opened {pieces : List Piece} {last : List Char} (hlast : last = [] ∨ last = ['\\']) :
      Stands .illegal (String.ofList ('"' :: (pieces.flatMap Piece.written ++ last)))
        ('"' :: (pieces.flatMap Piece.written ++ last)) []
  | other {c : Char} {behind : List Char} (hblank : isBlank c = false) (hquote : c ≠ '"')
      (hsign : Kind.ofChar? c = none) (hword : isWordChar c = false) (hdigit : c.isDigit = false) :
      Stands .illegal (String.ofList [c]) [c] behind

/-- A literal is read piece by piece, up to its closing quote or to the end of the text. -/
theorem Quotation.read_pieces (content? : Option (List Char)) (span cs : List Char) :
    ∃ pieces : List Piece,
      (∃ rest, cs = pieces.flatMap Piece.written ++ '"' :: rest ∧
        read content? span cs =
          ⟨content?.bind fun content =>
              (pieces.mapM Piece.meaning?).map (content.reverse ++ ·),
            span.reverse ++ (pieces.flatMap Piece.written ++ ['"']), rest⟩) ∨
      ∃ last, (last = [] ∨ last = ['\\']) ∧ cs = pieces.flatMap Piece.written ++ last ∧
        read content? span cs = ⟨none, span.reverse ++ cs, []⟩ := by
  fun_induction read content? span cs with
  | case1 content? span => exact ⟨[], .inr ⟨[], .inl rfl, rfl, by simp⟩⟩
  | case2 content? span rest =>
      refine ⟨[], .inl ⟨rest, rfl, ?_⟩⟩
      cases content? <;> simp
  | case3 content? span => exact ⟨[], .inr ⟨['\\'], .inr rfl, rfl, by simp⟩⟩
  | case4 content? span c rest ih =>
      obtain ⟨pieces, ⟨behind, rfl, hread⟩ | ⟨last, hlast, rfl, hread⟩⟩ := ih
      · refine ⟨.escape c :: pieces, .inl ⟨behind, rfl, ?_⟩⟩
        rw [hread]
        cases content? <;> cases hc : unescape? c <;> cases hmeant : pieces.mapM Piece.meaning? <;>
          simp [Piece.written, Piece.meaning?, hc, hmeant]
      · exact ⟨.escape c :: pieces, .inr ⟨last, hlast, rfl, by simp [hread]⟩⟩
  | case5 content? span c rest hquote hlone hescaped ih =>
      have hescape := ne_backslash hlone hescaped
      obtain ⟨pieces, ⟨behind, rfl, hread⟩ | ⟨last, hlast, rfl, hread⟩⟩ := ih
      · refine ⟨.plain c hquote hescape :: pieces, .inl ⟨behind, rfl, ?_⟩⟩
        rw [hread]
        cases content? <;> cases hmeant : pieces.mapM Piece.meaning? <;>
          simp [Piece.written, Piece.meaning?, hmeant]
      · exact ⟨.plain c hquote hescape :: pieces, .inr ⟨last, hlast, rfl, by simp [hread]⟩⟩

/-- The keywords are those of the list. -/
theorem Kind.ofKeyword?_eq_some {word : String} {kind : Kind} :
    ofKeyword? word = some kind ↔ (word, kind) ∈ keywords := by
  constructor
  · intro hlookup
    obtain ⟨before, after, heq, _⟩ := List.lookup_eq_some_iff.mp hlookup
    rw [heq]
    exact List.mem_append_right _ List.mem_cons_self
  · intro hmem
    simp only [keywords, List.mem_cons, Prod.mk.injEq, List.not_mem_nil, or_false] at hmem
    rcases hmem with ⟨rfl, rfl⟩ | ⟨rfl, rfl⟩ | ⟨rfl, rfl⟩ | ⟨rfl, rfl⟩ | ⟨rfl, rfl⟩ | ⟨rfl, rfl⟩ |
      ⟨rfl, rfl⟩ <;> rfl

namespace Stands

/-- A word is a keyword or a name. -/
theorem word {span behind : List Char} (hne : span ≠ []) (hspan : ∀ c ∈ span, isWordChar c = true)
    (hend : ∀ c ∈ behind.head?, isWordChar c = false) :
    Stands ((Kind.ofKeyword? (String.ofList span)).getD .ident) (String.ofList span) span
      behind := by
  cases hkind : Kind.ofKeyword? (String.ofList span) with
  | some kind => exact .keyword (Kind.ofKeyword?_eq_some.mp hkind) hspan hend
  | none =>
      refine .name hne (fun kind hmem => ?_) hspan hend
      rw [Kind.ofKeyword?_eq_some.mpr hmem] at hkind
      cases hkind

theorem quotation (rest : List Char) :
    Stands (Cut.quotation rest).kind (Cut.quotation rest).lexeme (Cut.quotation rest).span
      (Cut.quotation rest).rest := by
  obtain ⟨pieces, ⟨behind, rfl, hread⟩ | ⟨last, hlast, rfl, hread⟩⟩ :=
    Quotation.read_pieces (some []) ['"'] rest
  · cases hcontent : pieces.mapM Piece.meaning? with
    | some content =>
        simpa [Cut.quotation, hread, hcontent] using @Stands.text pieces content behind hcontent
    | none =>
        simpa [Cut.quotation, Cut.verbatim, hread, hcontent] using
          @Stands.spoiled pieces behind hcontent
  · simpa [Cut.quotation, Cut.verbatim, hread] using @Stands.opened pieces last hlast

/-- What is cut from a text stands there. -/
theorem cut {c : Char} (hblank : isBlank c = false) (rest : List Char) :
    Stands (Cut.of c rest).kind (Cut.of c rest).lexeme (Cut.of c rest).span
      (Cut.of c rest).rest := by
  by_cases hquote : c = '"'
  · subst hquote
    exact .quotation rest
  by_cases hdouble : (c = '=' ∨ c = '!') ∧ ∃ others, rest = '=' :: others
  · obtain ⟨rfl | rfl, others, rfl⟩ := hdouble
    · exact .equal
    · exact .notEqual
  have hsingle : c = '=' ∨ c = '!' → ∀ d ∈ rest.head?, d ≠ '=' := by
    rintro hc d hd rfl
    exact hdouble ⟨hc, List.head?_eq_some_iff.mp hd⟩
  rw [Cut.of_single hquote hsingle]
  cases hsign : Kind.ofChar? c with
  | some kind => exact .sign hsign hsingle
  | none =>
      -- A run of characters ends where the class of its characters does.
      have hrun {p : Char → Bool} (hc : p c = true) :
          (c :: rest).takeWhile p ≠ [] ∧ (∀ d ∈ (c :: rest).takeWhile p, p d = true) ∧
            ∀ d ∈ ((c :: rest).dropWhile p).head?, p d = false := by
        refine ⟨by simp [hc], fun d hd => List.mem_takeWhile_imp hd, fun d hd => ?_⟩
        have hhead := List.head?_dropWhile_not p (c :: rest)
        rw [Option.mem_def.mp hd] at hhead
        exact hhead
      by_cases hword : isWordChar c = true
      · obtain ⟨hne, hspan, hend⟩ := hrun hword
        simp only [hword, if_true]
        exact .word hne hspan hend
      · by_cases hdigit : c.isDigit = true
        · obtain ⟨hne, hspan, hend⟩ := hrun hdigit
          simp only [hword, hdigit, if_true]
          exact .int hne hspan hend
        · simp only [hword, hdigit]
          exact .other hblank hquote hsign (by simpa using hword) (by simpa using hdigit)

end Stands

/-- A token of a text and the blanks before it. -/
structure Segment where
  blanks : List Char
  span : List Char
  token : Token

def Segment.written (segment : Segment) : List Char :=
  segment.blanks ++ segment.span

/-- The text is its segments in order and blanks behind the last one. Every span is that
of its token, given what is behind it, and the line of the token is the number of line
breaks before the span, those before the text included. -/
structure Segmentation (line : Nat) (cs : List Char) (segments : List Segment)
    (ending : List Char) : Prop where
  text : cs = segments.flatMap Segment.written ++ ending
  ending_blank : ∀ c ∈ ending, isBlank c = true
  blanks {segment : Segment} : segment ∈ segments → ∀ c ∈ segment.blanks, isBlank c = true
  stands {before after : List Segment} {segment : Segment} :
    segments = before ++ segment :: after →
      Stands segment.token.kind segment.token.lexeme segment.span
        (after.flatMap Segment.written ++ ending)
  line {before after : List Segment} {segment : Segment} :
    segments = before ++ segment :: after →
      segment.token.line = line + lineBreaks (before.flatMap Segment.written ++ segment.blanks)

namespace Segmentation

variable {line : Nat} {cs ending : List Char} {segments : List Segment}

theorem nil (h : ∀ c ∈ ending, isBlank c = true) : Segmentation line ending [] ending where
  text := rfl
  ending_blank := h
  blanks hmem := absurd hmem List.not_mem_nil
  stands hsplit := by simp at hsplit
  line hsplit := by simp at hsplit

/-- A segment before other ones. -/
theorem cons (segment : Segment)
    (h : Segmentation (line + lineBreaks segment.written) cs segments ending)
    (hblanks : ∀ c ∈ segment.blanks, isBlank c = true)
    (hstands : Stands segment.token.kind segment.token.lexeme segment.span cs)
    (hline : segment.token.line = line + lineBreaks segment.blanks) :
    Segmentation line (segment.written ++ cs) (segment :: segments) ending where
  text := by rw [h.text, List.flatMap_cons, List.append_assoc]
  ending_blank := h.ending_blank
  blanks hmem := by
    rcases List.mem_cons.mp hmem with rfl | hmem
    · exact hblanks
    · exact h.blanks hmem
  stands {before after other} hsplit := by
    rcases List.cons_eq_append_iff.mp hsplit with ⟨rfl, heq⟩ | ⟨before, rfl, heq⟩
    · cases heq
      rw [← h.text]
      exact hstands
    · exact h.stands heq
  line {before after other} hsplit := by
    rcases List.cons_eq_append_iff.mp hsplit with ⟨rfl, heq⟩ | ⟨before, rfl, heq⟩
    · cases heq
      exact hline
    · rw [h.line heq]
      simp only [List.flatMap_cons, List.append_assoc, lineBreaks_append]
      omega

end Segmentation

namespace Cursor

/-- What is left of a text is made of segments, whose tokens are those from here on. -/
theorem exists_segmentation (cursor : Cursor) :
    ∃ segments last, Segmentation cursor.line cursor.rest segments last ∧
      cursor.tokens.1 = segments.map Segment.token := by
  have hlexes := cursor.lexes_tokens
  generalize cursor.tokens.1 = tokens at hlexes ⊢
  induction hlexes with
  | @done cursor hend =>
      have hblank := List.dropWhile_eq_nil_iff.mp (next_kind_eq_endOfFile_iff.mp hend)
      exact ⟨[], cursor.rest, .nil hblank, rfl⟩
  | @more cursor tokens hmore _ ih =>
      obtain ⟨line, cs⟩ := cursor
      obtain ⟨segments, last, hsegments, htokens⟩ := ih
      cases hcs : cs.dropWhile isBlank with
      | nil => exact absurd (next_kind_eq_endOfFile_iff.mpr hcs) hmore
      | cons c rest =>
          have hblank : isBlank c = false := by
            have hhead := List.head?_dropWhile_not isBlank cs
            rwa [hcs] at hhead
          have htext : cs.takeWhile isBlank ++ ((Cut.of c rest).span ++ (Cut.of c rest).rest) =
              cs := by
            rw [Cut.of_span_append_rest, ← hcs, List.takeWhile_append_dropWhile]
          rw [next_of_cons hcs] at hsegments ⊢
          refine ⟨⟨cs.takeWhile isBlank, (Cut.of c rest).span, _⟩ :: segments, last, ?_,
            by rw [htokens]; rfl⟩
          have hcons := Segmentation.cons
            ⟨cs.takeWhile isBlank, (Cut.of c rest).span,
              ⟨(Cut.of c rest).kind, line + lineBreaks (cs.takeWhile isBlank),
                (Cut.of c rest).lexeme⟩⟩
            (by simpa [Segment.written, lineBreaks_append, ← Nat.add_assoc] using hsegments)
            (fun d hd => List.mem_takeWhile_imp hd) (.cut hblank rest) rfl
          simpa only [Segment.written, List.append_assoc, htext] using hcons

/-- The place behind so many tokens. -/
def skip : Nat → Cursor → Cursor
  | 0, cursor => cursor
  | count + 1, cursor => skip count cursor.next.2

/-- At the end of the text every further token is the end-of-file token, on the line that
the text ends on. -/
theorem next_skip_of_endOfFile {cursor : Cursor} (h : cursor.next.1.kind = .endOfFile)
    (count : Nat) :
    (cursor.skip count).next.1 =
      ⟨.endOfFile, cursor.line + lineBreaks cursor.rest, "end of file"⟩ := by
  induction count generalizing cursor with
  | zero =>
      obtain ⟨line, cs⟩ := cursor
      rw [skip, next_of_blanks (next_kind_eq_endOfFile_iff.mp h)]
  | succ count ih =>
      obtain ⟨line, cs⟩ := cursor
      rw [skip, next_of_blanks (next_kind_eq_endOfFile_iff.mp h), ih rfl]
      rfl

/-- Asked for one token after the other, a text gives its tokens and then the end-of-file
token forever. -/
theorem next_skip (cursor : Cursor) (count : Nat) :
    (cursor.skip count).next.1 =
      cursor.tokens.1[count]?.getD
        ⟨.endOfFile, cursor.line + lineBreaks cursor.rest, "end of file"⟩ := by
  have hlexes := cursor.lexes_tokens
  generalize cursor.tokens.1 = tokens at hlexes ⊢
  induction hlexes generalizing count with
  | done hend => simpa using next_skip_of_endOfFile hend count
  | @more cursor tokens _ _ ih =>
      cases count with
      | zero => rfl
      | succ count =>
          rw [skip, ih count, line_next]
          rfl

end Cursor

/-- A text is made of segments, whose tokens are those of the text. -/
theorem exists_segmentation (text : String) :
    ∃ segments last, Segmentation 0 text.toList segments last ∧
      ofText text = segments.map Segment.token :=
  (Cursor.start text).exists_segmentation

/-- A text is the spans of its tokens in order, with blanks before each and behind the
last. Every span is as long as its token can be where it stands, every token is on the
line that its span starts on, and behind the tokens the end of the file comes forever, on
the line that the text ends on. -/
theorem ofText_segments (text : String) :
    (∃ segments last, Segmentation 0 text.toList segments last ∧
      ofText text = segments.map Segment.token) ∧
    ∀ count, ((Cursor.start text).skip count).next.1 =
      (ofText text)[count]?.getD ⟨.endOfFile, lineBreaks text.toList, "end of file"⟩ := by
  refine ⟨exists_segmentation text, fun count => ?_⟩
  have hnext := (Cursor.start text).next_skip count
  rwa [Cursor.start, Nat.zero_add] at hnext

end Scriptlet.Token
