import Mathlib.Data.String.Basic
import Scriptlet.Proofs.Checked.Agreement
import Scriptlet.Proofs.Token.Segments

/-!
# Scanning by offsets

A scanner keeps a text as it is and marks the token at hand by two offsets into its
bytes, between which the text is sliced. Slicing is partial: offsets have to lie between
characters, in order. So are the counters of bytes and lines, which must not pass the
size of the text, and the repetitions, each of which has a round for every character to
come and one more.

The offsets are at all times the sizes of what was read before the token and up to here,
so a scanner meets no hazard, and it finds the tokens that are cut from the text.
-/

namespace Scriptlet.Checked

open Token (Kind isBlank isWordChar lineBreaks unescape?)
open String (utf8Len)

/-- The part of a text between two offsets in bytes, which have to lie between
characters, in order. -/
def slice? (text : String) (start stop : Nat) : Option String :=
  if start ≤ stop ∧ (⟨start⟩ : String.Pos.Raw).isValid text ∧
      (⟨stop⟩ : String.Pos.Raw).isValid text then
    some (String.Pos.Raw.extract text ⟨start⟩ ⟨stop⟩)
  else none

/-- A counter of bytes or lines of a text, increased. -/
def count? (text : String) (counter more : Nat) : Option Nat :=
  if counter + more ≤ text.utf8ByteSize then some (counter + more) else none

/-- A scanner at work. -/
structure Scanner where
  source : String
  /-- The characters to come. -/
  stream : List Char
  line : Nat
  /-- Where the token at hand starts, in bytes. -/
  start : Nat
  /-- The number of bytes read. -/
  current : Nat

def Scanner.ofText (text : String) : Scanner :=
  ⟨text, text.toList, 0, 0, 0⟩

/-- What a scanner does. It raises no errors. -/
abbrev Scan (α : Type) := Checked Empty Scanner α

namespace Scan

/-- Enough rounds for a repetition that reads a character in each but the last. -/
def rounds : Scan Nat := do
  return (← get).stream.length + 1

/-- Reads a character. -/
def advance : Scan (Option Char) := do
  let scanner ← get
  match scanner.stream with
  | [] => return none
  | c :: rest => do
      let current ← expect .counter (count? scanner.source scanner.current c.utf8Size)
      set { scanner with stream := rest, current }
      return some c

/-- Reads a character of a kind, if one comes next. -/
def advanceIf (p : Char → Bool) : Scan (Option Char) := do
  if (← get).stream.head?.any p then advance else return none

/-- Reads characters of a kind for as long as they come. -/
def advanceWhile (p : Char → Bool) : Nat → Scan Unit
  | 0 => throw (.inl .endless)
  | rounds + 1 => do
      match ← advanceIf p with
      | some _ => advanceWhile p rounds
      | none => return ()

/-- Counts a line, if the character ends one. -/
def countLine (c : Char) : Scan Unit := do
  let scanner ← get
  if c = '\n' then
    let line ← expect .counter (count? scanner.source scanner.line 1)
    set { scanner with line }

def skipBlanks : Nat → Scan Unit
  | 0 => throw (.inl .endless)
  | rounds + 1 => do
      match ← advanceIf isBlank with
      | some c => do
          countLine c
          skipBlanks rounds
      | none => return ()

/-- The text of the token at hand. -/
def lexeme : Scan String := do
  let scanner ← get
  expect .slice (slice? scanner.source scanner.start scanner.current)

/-- The token at hand, read as it is written. -/
def verbatim (kind : Kind) : Scan Token := do
  return ⟨kind, (← get).line, ← lexeme⟩

/-- A token of two characters, or of the first of them only. -/
def lookahead (second : Char) (two one : Kind) : Scan Token := do
  match ← advanceIf (· = second) with
  | some _ => verbatim two
  | none => verbatim one

def word : Scan Token := do
  advanceWhile isWordChar (← rounds)
  match Kind.ofKeyword? (← lexeme) with
  | some kind => verbatim kind
  | none => verbatim .ident

def digits : Scan Token := do
  advanceWhile Char.isDigit (← rounds)
  verbatim .int

/-- Reads the rest of a string literal. It gives back whether the literal is valid, and
the text denoted if so, in reverse. -/
def content : Nat → Bool → List Char → Scan (Bool × List Char)
  | 0, _, _ => throw (.inl .endless)
  | rounds + 1, valid, value => do
      match ← advance with
      | none => return (false, value)
      | some c =>
          if c = '"' then return (valid, value)
          else if c = '\\' then
            match ← advance with
            | none => return (false, value)
            | some c =>
                match unescape? c with
                | some denoted => content rounds valid (denoted :: value)
                | none => do
                    countLine c
                    content rounds false value
          else
            countLine c
            content rounds valid (c :: value)

def quotation : Scan Token := do
  let line := (← get).line
  let (valid, value) ← content (← rounds) true []
  if valid then return ⟨.string, line, String.ofList value.reverse⟩
  else return ⟨.illegal, line, ← lexeme⟩

/-- The token that starts with the character just read. -/
def tokenFrom (c : Char) : Scan Token :=
  if c = '=' then lookahead '=' .equal .assign
  else if c = '!' then lookahead '=' .notEqual .bang
  else if c = '"' then quotation
  else
    match Kind.ofChar? c with
    | some kind => verbatim kind
    | none =>
        if isWordChar c then word
        else if c.isDigit then digits
        else verbatim .illegal

/-- The next token. -/
def next : Scan Token := do
  skipBlanks (← rounds)
  modify fun scanner => { scanner with start := scanner.current }
  match ← advance with
  | none => return ⟨.endOfFile, (← get).line, "end of file"⟩
  | some c => tokenFrom c

/-- All tokens up to the end of the text, behind those `found`, which are in reverse. -/
def all : Nat → List Token → Scan (List Token)
  | 0, _ => throw (.inl .endless)
  | rounds + 1, found => do
      let token ← next
      if token.kind = .endOfFile then return found.reverse
      else all rounds (token :: found)

/-- All tokens of the text. -/
def tokens : Scan (List Token) := do
  all (← rounds) []

/-- The token behind so many others, which are asked for one by one. -/
def tokenAt : Nat → Scan Token
  | 0 => next
  | count + 1 => do
      let _ ← next
      tokenAt count

/-- What a scanner does from the start of a text, or the hazard met on the way. -/
def on {α : Type} (p : Scan α) (text : String) : Except Hazard α :=
  match p (Scanner.ofText text) with
  | .ok a _ => .ok a
  | .error (.inl hazard) _ => .error hazard

end Scan

section Slices

variable (before span rest : List Char)

theorem isValid_utf8Len : (⟨utf8Len before⟩ : String.Pos.Raw).isValid
    (String.ofList (before ++ rest)) := by
  rw [String.Pos.Raw.isValid_eq_true_iff, String.Pos.Raw.isValid_iff_exists_append]
  refine ⟨String.ofList before, String.ofList rest, String.ofList_append, ?_⟩
  rw [String.rawEndPos, String.utf8ByteSize_ofList]

/-- Between the sizes of what is before it and up to its end, a part can be sliced. -/
theorem slice?_ofList :
    slice? (String.ofList (before ++ span ++ rest)) (utf8Len before) (utf8Len (before ++ span)) =
      some (String.ofList span) := by
  have hstart : (⟨utf8Len before⟩ : String.Pos.Raw).isValid
      (String.ofList (before ++ span ++ rest)) := by
    rw [List.append_assoc]
    exact isValid_utf8Len before (span ++ rest)
  have hstop := isValid_utf8Len (before ++ span) rest
  have horder : utf8Len before ≤ utf8Len (before ++ span) := by simp
  rw [slice?, if_pos ⟨horder, hstart, hstop⟩, String.utf8Len_append, String.extract_of_valid]

/-- Between the bytes of a character there is no place to slice. -/
example : slice? "é" 0 2 = some "é" ∧ slice? "é" 0 1 = none ∧ slice? "é" 2 0 = none := by
  decide

/-- A text has no more lines to count than bytes. -/
theorem lineBreaks_le_utf8Len (cs : List Char) : lineBreaks cs ≤ utf8Len cs := by
  induction cs with
  | nil => simp [lineBreaks]
  | cons c cs ih =>
      have hsize := c.utf8Size_pos
      simp only [lineBreaks, List.count_cons, String.utf8Len_cons] at ih ⊢
      split <;> omega

end Slices

/-- The line of a token is not beyond the size of the text. -/
theorem line_le_of_mem_ofText {text : String} {token : Token} (h : token ∈ Token.ofText text) :
    token.line ≤ text.utf8ByteSize := by
  obtain ⟨segments, ending, hsegments, htokens⟩ := Token.exists_segmentation text
  rw [htokens] at h
  obtain ⟨segment, hsegment, rfl⟩ := List.mem_map.mp h
  obtain ⟨before, after, rfl⟩ := List.append_of_mem hsegment
  have hbreaks := lineBreaks_le_utf8Len (before.flatMap Token.Segment.written ++ segment.blanks)
  have hsize : text.utf8ByteSize = utf8Len text.toList := by
    rw [← String.utf8ByteSize_ofList, String.ofList_toList]
  rw [hsegments.line rfl, Nat.zero_add, hsize, hsegments.text]
  simp only [List.flatMap_append, List.flatMap_cons, Token.Segment.written,
    String.utf8Len_append] at hbreaks ⊢
  omega

/-- The scanner that has read `before` for earlier tokens and `span` for the one at hand,
with `rest` to come. -/
def Scanner.placed (before span rest : List Char) : Scanner where
  source := String.ofList (before ++ span ++ rest)
  stream := rest
  line := lineBreaks (before ++ span)
  start := utf8Len before
  current := utf8Len (before ++ span)

/-- The scanner that has just read `c`, and has not counted it as a line. -/
def Scanner.uncounted (before span : List Char) (c : Char) (rest : List Char) : Scanner :=
  { placed before (span ++ [c]) rest with line := lineBreaks (before ++ span) }

namespace Scan

open Scanner (placed uncounted)

variable {before span rest : List Char} {c : Char}

theorem rounds_placed :
    rounds (placed before span rest) = .ok (rest.length + 1) (placed before span rest) :=
  rfl

theorem advance_nil : advance (placed before span []) = .ok none (placed before span []) :=
  rfl

/-- The count of bytes stays within the text. -/
theorem advance_cons :
    advance (placed before span (c :: rest)) = .ok (some c) (uncounted before span c rest) := by
  have hcount : count? (String.ofList (before ++ span ++ c :: rest)) (utf8Len (before ++ span))
      c.utf8Size = some (utf8Len (before ++ span) + c.utf8Size) := by
    apply if_pos
    simp only [String.utf8ByteSize_ofList, String.utf8Len_append, String.utf8Len_cons]
    omega
  rw [advance, get_bind]
  dsimp only [placed]
  rw [hcount, expect_some, pure_bind, set_bind]
  change EStateM.Result.ok _ _ = _
  simp [placed, uncounted, Nat.add_assoc]

theorem uncounted_eq_placed (h : c ≠ '\n') :
    uncounted before span c rest = placed before (span ++ [c]) rest := by
  simp [placed, uncounted, lineBreaks, h]

/-- So does the count of lines. -/
theorem countLine_uncounted :
    countLine c (uncounted before span c rest) = .ok () (placed before (span ++ [c]) rest) := by
  by_cases h : c = '\n'
  · subst h
    have hcount : count? (String.ofList (before ++ (span ++ ['\n']) ++ rest))
        (lineBreaks (before ++ span)) 1 = some (lineBreaks (before ++ span) + 1) := by
      have hbreaks := lineBreaks_le_utf8Len (before ++ span)
      have hsize : '\n'.utf8Size = 1 := by decide
      apply if_pos
      simp only [String.utf8ByteSize_ofList, String.utf8Len_append,
        String.utf8Len_cons] at hbreaks ⊢
      omega
    rw [countLine, get_bind, if_pos rfl]
    dsimp only [uncounted, placed]
    rw [hcount, expect_some, pure_bind]
    change EStateM.Result.ok _ _ = _
    simp [lineBreaks, Nat.add_assoc]
  · rw [uncounted_eq_placed h, countLine, get_bind, if_neg h]
    rfl

theorem advanceIf_cons {p : Char → Bool} (h : p c = true) :
    advanceIf p (placed before span (c :: rest)) = .ok (some c) (uncounted before span c rest) := by
  rw [advanceIf, get_bind, if_pos (by simpa [placed] using h), advance_cons]

theorem advanceIf_of_head {p : Char → Bool} (h : ∀ c ∈ rest.head?, p c = false) :
    advanceIf p (placed before span rest) = .ok none (placed before span rest) := by
  have hnone : ¬(placed before span rest).stream.head?.any p = true := by
    cases rest with
    | nil => simp [placed]
    | cons c rest => simpa [placed] using h c rfl
  rw [advanceIf, get_bind, if_neg hnone]
  rfl

/-- Characters of a kind come next, or none does. -/
theorem head_cases (p : Char → Bool) (cs : List Char) :
    (∃ c behind, cs = c :: behind ∧ p c = true) ∨
      (∀ c ∈ cs.head?, p c = false) ∧ cs.takeWhile p = [] ∧ cs.dropWhile p = cs := by
  cases cs with
  | nil => exact .inr ⟨nofun, rfl, rfl⟩
  | cons c cs =>
      cases hc : p c with
      | true => exact .inl ⟨c, cs, rfl, hc⟩
      | false => exact .inr (by simp [hc])

theorem advanceWhile_placed {p : Char → Bool} (hbreak : p '\n' = false) (count : Nat)
    (span rest : List Char) (h : rest.length < count) :
    advanceWhile p count (placed before span rest) =
      .ok () (placed before (span ++ rest.takeWhile p) (rest.dropWhile p)) := by
  induction count generalizing span rest with
  | zero => omega
  | succ count ih =>
      obtain ⟨c, behind, rfl, hc⟩ | ⟨hnone, htake, hdrop⟩ := head_cases p rest
      · have hne : c ≠ '\n' := by
          rintro rfl
          simp [hbreak] at hc
        rw [advanceWhile, bind_of_ok (advanceIf_cons hc), uncounted_eq_placed hne]
        have hrest := ih (span ++ [c]) behind (by simpa using h)
        simpa [hc] using hrest
      · rw [advanceWhile, bind_of_ok (advanceIf_of_head hnone), htake, hdrop, List.append_nil]
        rfl

theorem skipBlanks_placed (count : Nat) (before span rest : List Char) (h : rest.length < count) :
    skipBlanks count (placed before span rest) =
      .ok () (placed before (span ++ rest.takeWhile isBlank) (rest.dropWhile isBlank)) := by
  induction count generalizing span rest with
  | zero => omega
  | succ count ih =>
      obtain ⟨c, behind, rfl, hc⟩ | ⟨hnone, htake, hdrop⟩ := head_cases isBlank rest
      · rw [skipBlanks, bind_of_ok (advanceIf_cons hc)]
        dsimp only
        rw [bind_of_ok countLine_uncounted]
        have hrest := ih (span ++ [c]) behind (by simpa using h)
        simpa [hc] using hrest
      · rw [skipBlanks, bind_of_ok (advanceIf_of_head hnone), htake, hdrop, List.append_nil]
        rfl

theorem lexeme_placed :
    lexeme (placed before span rest) = .ok (String.ofList span) (placed before span rest) := by
  rw [lexeme, get_bind]
  dsimp only [placed]
  rw [slice?_ofList]
  rfl

theorem verbatim_placed (kind : Kind) :
    verbatim kind (placed before span rest) =
      .ok ⟨kind, lineBreaks (before ++ span), String.ofList span⟩ (placed before span rest) := by
  rw [verbatim, get_bind, bind_of_ok lexeme_placed]
  rfl

/-- What is known of the text that a string literal denotes. -/
def denoted? (valid : Bool) (value : List Char) : Option (List Char) :=
  if valid then some value else none

section Content

variable {count : Nat} {valid : Bool} {value : List Char} {d : Char}

theorem content_nil :
    content (count + 1) valid value (placed before span []) =
      .ok (false, value) (placed before span []) := by
  rw [content, bind_of_ok advance_nil]
  rfl

theorem content_quote :
    content (count + 1) valid value (placed before span ('"' :: rest)) =
      .ok (valid, value) (placed before (span ++ ['"']) rest) := by
  rw [content, bind_of_ok advance_cons, uncounted_eq_placed (by decide)]
  dsimp only
  rw [if_pos rfl]
  rfl

theorem content_backslash :
    content (count + 1) valid value (placed before span ['\\']) =
      .ok (false, value) (placed before (span ++ ['\\']) []) := by
  rw [content, bind_of_ok advance_cons, uncounted_eq_placed (by decide)]
  dsimp only
  rw [if_neg (by decide), if_pos rfl, bind_of_ok advance_nil]
  rfl

theorem content_known {denoted : Char} (h : unescape? d = some denoted) :
    content (count + 1) valid value (placed before span ('\\' :: d :: rest)) =
      content count valid (denoted :: value) (placed before (span ++ ['\\'] ++ [d]) rest) := by
  have hne : d ≠ '\n' := by
    rintro rfl
    simp [unescape?] at h
  rw [content, bind_of_ok advance_cons, uncounted_eq_placed (by decide)]
  dsimp only
  rw [if_neg (by decide), if_pos rfl, bind_of_ok advance_cons, uncounted_eq_placed hne]
  simp only [h]

theorem content_unknown (h : unescape? d = none) :
    content (count + 1) valid value (placed before span ('\\' :: d :: rest)) =
      content count false value (placed before (span ++ ['\\'] ++ [d]) rest) := by
  rw [content, bind_of_ok advance_cons, uncounted_eq_placed (by decide)]
  dsimp only
  rw [if_neg (by decide), if_pos rfl, bind_of_ok advance_cons]
  simp only [h]
  rw [bind_of_ok countLine_uncounted]

theorem content_other (hquote : c ≠ '"') (hescape : c ≠ '\\') :
    content (count + 1) valid value (placed before span (c :: rest)) =
      content count valid (c :: value) (placed before (span ++ [c]) rest) := by
  rw [content, bind_of_ok advance_cons]
  dsimp only
  rw [if_neg hquote, if_neg hescape, bind_of_ok countLine_uncounted]

theorem read_known {denoted : Char} (h : unescape? d = some denoted) :
    Token.Quotation.read (denoted? valid value) span.reverse ('\\' :: d :: rest) =
      Token.Quotation.read (denoted? valid (denoted :: value)) (span ++ ['\\'] ++ [d]).reverse
        rest := by
  cases valid <;> simp [Token.Quotation.read, h, denoted?]

theorem read_unknown (h : unescape? d = none) :
    Token.Quotation.read (denoted? valid value) span.reverse ('\\' :: d :: rest) =
      Token.Quotation.read (denoted? false value) (span ++ ['\\'] ++ [d]).reverse rest := by
  cases valid <;> simp [Token.Quotation.read, h, denoted?]

theorem read_other (hquote : c ≠ '"') (hescape : c ≠ '\\') :
    Token.Quotation.read (denoted? valid value) span.reverse (c :: rest) =
      Token.Quotation.read (denoted? valid (c :: value)) (span ++ [c]).reverse rest := by
  cases valid <;> simp [Token.Quotation.read, hescape, denoted?]

/-- The rest of a string literal is read to where it ends. -/
theorem content_placed (count : Nat) (valid : Bool) (value before span rest : List Char)
    (h : rest.length < count) :
    ∃ valid' value',
      content count valid value (placed before span rest) =
        .ok (valid', value')
          (placed before (Token.Quotation.read (denoted? valid value) span.reverse rest).span
            (Token.Quotation.read (denoted? valid value) span.reverse rest).rest) ∧
      (Token.Quotation.read (denoted? valid value) span.reverse rest).content? =
        denoted? valid' value'.reverse := by
  -- A spoiled literal ends where a valid one would; only what it denotes is lost.
  induction count generalizing valid value span rest with
  | zero => omega
  | succ count ih =>
      obtain _ | ⟨c, rest⟩ := rest
      · exact ⟨false, value, by simp [content_nil, Token.Quotation.read], rfl⟩
      simp only [List.length_cons] at h
      by_cases hquote : c = '"'
      · subst hquote
        exact ⟨valid, value, by simp [content_quote, Token.Quotation.read], by cases valid <;> rfl⟩
      by_cases hescape : c = '\\'
      · subst hescape
        obtain _ | ⟨d, rest⟩ := rest
        · exact ⟨false, value, by simp [content_backslash, Token.Quotation.read], rfl⟩
        simp only [List.length_cons] at h
        cases hd : unescape? d with
        | some denoted =>
            rw [content_known hd, read_known hd]
            exact ih valid (denoted :: value) _ rest (by omega)
        | none =>
            rw [content_unknown hd, read_unknown hd]
            exact ih false value _ rest (by omega)
      · rw [content_other hquote hescape, read_other hquote hescape]
        exact ih valid (c :: value) _ rest (by omega)

end Content

/-- What is read of a token, when the scanner comes to stand behind it. -/
def Cuts (p : Scan Token) (before span rest : List Char) (cut : Token.Cut) : Prop :=
  p (placed before span rest) =
    .ok ⟨cut.kind, lineBreaks before, cut.lexeme⟩ (placed before cut.span cut.rest)

theorem cuts_verbatim (kind : Kind) (h : '\n' ∉ span) :
    Cuts (verbatim kind) before span rest (.verbatim kind span rest) := by
  have hbreaks : lineBreaks (before ++ span) = lineBreaks before := by
    rw [Token.lineBreaks_append, lineBreaks, lineBreaks, List.count_eq_zero.mpr h, Nat.add_zero]
  rw [Cuts, verbatim_placed, hbreaks]
  rfl

theorem cuts_lookahead_two {second : Char} {two one : Kind} (h : '\n' ∉ [c, second]) :
    Cuts (lookahead second two one) before [c] (second :: rest)
      (.verbatim two [c, second] rest) := by
  have hne : second ≠ '\n' := fun heq => h (by simp [heq])
  rw [Cuts, lookahead, bind_of_ok (advanceIf_cons (by simp)), uncounted_eq_placed hne]
  exact cuts_verbatim two h

theorem cuts_lookahead_one {second : Char} {two one : Kind} (h : '\n' ∉ [c])
    (hother : ∀ d ∈ rest.head?, d ≠ second) :
    Cuts (lookahead second two one) before [c] rest (.verbatim one [c] rest) := by
  rw [Cuts, lookahead, bind_of_ok (advanceIf_of_head (by simpa using hother))]
  exact cuts_verbatim one h

/-- A run of characters of a kind, the first of which has been read, has no line breaks and
is read to its end. -/
theorem advanceWhile_run {p : Char → Bool} (hbreak : p '\n' = false) (hc : p c = true)
    (before rest : List Char) :
    '\n' ∉ (c :: rest).takeWhile p ∧
      advanceWhile p (rest.length + 1) (placed before [c] rest) =
        .ok () (placed before ((c :: rest).takeWhile p) ((c :: rest).dropWhile p)) := by
  constructor
  · intro hmem
    have hp := List.mem_takeWhile_imp hmem
    simp [hbreak] at hp
  · rw [advanceWhile_placed hbreak (rest.length + 1) [c] rest (Nat.lt_succ_self _)]
    simp [hc]

theorem cuts_word (h : isWordChar c = true) :
    Cuts word before [c] rest (.word (c :: rest)) := by
  obtain ⟨hbreak, hrun⟩ := advanceWhile_run (by decide) h before rest
  rw [Cuts, word, bind_of_ok rounds_placed, bind_of_ok hrun, bind_of_ok lexeme_placed]
  unfold Token.Cut.word
  dsimp only
  cases Kind.ofKeyword? (String.ofList ((c :: rest).takeWhile isWordChar)) with
  | some kind => exact cuts_verbatim kind hbreak
  | none => exact cuts_verbatim .ident hbreak

theorem cuts_digits (h : c.isDigit = true) :
    Cuts digits before [c] rest (.digits (c :: rest)) := by
  obtain ⟨hbreak, hrun⟩ := advanceWhile_run (p := Char.isDigit) (by decide) h before rest
  rw [Cuts, digits, bind_of_ok rounds_placed, bind_of_ok hrun]
  exact cuts_verbatim .int hbreak

theorem cuts_quotation : Cuts quotation before ['"'] rest (.quotation rest) := by
  obtain ⟨valid, value, hcontent, hvalue⟩ :=
    content_placed (rest.length + 1) true [] before ['"'] rest (Nat.lt_succ_self _)
  have hbreaks : lineBreaks (before ++ ['"']) = lineBreaks before := by
    simp [lineBreaks]
  rw [Cuts, quotation, get_bind, bind_of_ok rounds_placed, bind_of_ok hcontent]
  change (if valid then pure ⟨.string, lineBreaks (before ++ ['"']), String.ofList value.reverse⟩
    else do return ⟨.illegal, lineBreaks (before ++ ['"']), ← lexeme⟩ : Scan Token) _ = _
  rw [hbreaks]
  unfold Token.Cut.quotation
  change (Token.Quotation.read (some []) ['"'] rest).content? = _ at hvalue
  cases valid with
  | true =>
      dsimp only
      rw [hvalue]
      rfl
  | false =>
      dsimp only
      rw [hvalue, if_neg Bool.false_ne_true, bind_of_ok lexeme_placed]
      rfl

/-- An operator that may have a second character. -/
theorem cuts_operator {two one : Kind} (hbreak : '\n' ∉ [c])
    (htwo : ∀ behind, Token.Cut.of c ('=' :: behind) = .verbatim two [c, '='] behind)
    (hone : (∀ d ∈ rest.head?, d ≠ '=') → Token.Cut.of c rest = .verbatim one [c] rest) :
    Cuts (lookahead '=' two one) before [c] rest (.of c rest) := by
  by_cases hhead : ∃ behind, rest = '=' :: behind
  · obtain ⟨behind, rfl⟩ := hhead
    rw [htwo]
    refine cuts_lookahead_two ?_
    simpa using hbreak
  · have hother : ∀ d ∈ rest.head?, d ≠ '=' := by
      rintro d hd rfl
      exact hhead ⟨rest.tail, (List.cons_head?_tail hd).symm⟩
    rw [hone hother]
    exact cuts_lookahead_one hbreak hother

theorem cuts_tokenFrom (h : isBlank c = false) :
    Cuts (tokenFrom c) before [c] rest (.of c rest) := by
  have hbreak : '\n' ∉ [c] := by
    intro hmem
    obtain rfl := List.mem_singleton.mp hmem
    exact absurd h (by decide)
  unfold tokenFrom
  by_cases hassign : c = '='
  · subst hassign
    rw [if_pos rfl]
    exact cuts_operator hbreak (fun _ => rfl) fun hother =>
      Token.Cut.of_single (by decide) fun _ => hother
  by_cases hbang : c = '!'
  · subst hbang
    rw [if_neg hassign, if_pos rfl]
    exact cuts_operator hbreak (fun _ => rfl) fun hother =>
      Token.Cut.of_single (by decide) fun _ => hother
  by_cases hquote : c = '"'
  · subst hquote
    rw [if_neg hassign, if_neg hbang, if_pos rfl]
    exact cuts_quotation
  rw [if_neg hassign, if_neg hbang, if_neg hquote,
    Token.Cut.of_single hquote fun hor => absurd hor (by simp [hassign, hbang])]
  cases Kind.ofChar? c with
  | some kind => exact cuts_verbatim kind hbreak
  | none =>
      dsimp only
      by_cases hword : isWordChar c = true
      · rw [if_pos hword, if_pos hword]
        exact cuts_word hword
      by_cases hdigit : c.isDigit = true
      · rw [if_neg hword, if_neg hword, if_pos hdigit, if_pos hdigit]
        exact cuts_digits hdigit
      · rw [if_neg hword, if_neg hword, if_neg hdigit, if_neg hdigit]
        exact cuts_verbatim .illegal hbreak

/-- The next token is the one that is cut from what is to come. -/
theorem next_placed (before span rest : List Char) :
    ∃ before' span',
      next (placed before span rest) =
        .ok (Token.Cursor.next ⟨lineBreaks (before ++ span), rest⟩).1
          (placed before' span' (Token.Cursor.next ⟨lineBreaks (before ++ span), rest⟩).2.rest) ∧
      (Token.Cursor.next ⟨lineBreaks (before ++ span), rest⟩).2.line =
        lineBreaks (before' ++ span') := by
  have hskip := skipBlanks_placed (rest.length + 1) before span rest
    (Nat.lt_succ_self _)
  -- Here the start of the token before is forgotten, and what it spans joins what is before.
  have hstart (cs : List Char) :
      (modify fun scanner => { scanner with start := scanner.current } : Scan PUnit)
        (placed before (span ++ rest.takeWhile isBlank) cs) =
          .ok ⟨⟩ (placed (before ++ span ++ rest.takeWhile isBlank) [] cs) := by
    change EStateM.Result.ok _ _ = _
    simp [placed]
  rw [next, bind_of_ok rounds_placed, bind_of_ok hskip, bind_of_ok (hstart _)]
  unfold Token.Cursor.next
  dsimp only
  rw [← Token.lineBreaks_append]
  cases hrest : rest.dropWhile isBlank with
  | nil =>
      refine ⟨before ++ span ++ rest.takeWhile isBlank, [], ?_, by simp⟩
      rw [bind_of_ok advance_nil]
      change EStateM.Result.ok _ _ = _
      simp [placed]
  | cons c behind =>
      have hc : isBlank c = false := by
        have hhead := List.head?_dropWhile_not isBlank rest
        simpa [hrest] using hhead
      have hne : c ≠ '\n' := by
        rintro rfl
        exact absurd hc (by decide)
      refine ⟨before ++ span ++ rest.takeWhile isBlank, (Token.Cut.of c behind).span, ?_, ?_⟩
      · rw [bind_of_ok advance_cons, uncounted_eq_placed hne]
        exact cuts_tokenFrom hc
      · dsimp only
        rw [Token.lineBreaks_append (before ++ span ++ _)]

/-- All tokens to come are found. -/
theorem all_placed (count : Nat) (found : List Token) (before span rest : List Char)
    (h : rest.length < count) :
    ∃ last,
      all count found (placed before span rest) =
        .ok (found.reverse ++ (Token.Cursor.mk (lineBreaks (before ++ span)) rest).tokens.1)
          last := by
  induction count generalizing found before span rest with
  | zero => omega
  | succ count ih =>
      obtain ⟨before', span', hnext, hline⟩ := next_placed before span rest
      rw [all, bind_of_ok hnext]
      by_cases hend : (Token.Cursor.next ⟨lineBreaks (before ++ span), rest⟩).1.kind = .endOfFile
      · rw [if_pos hend, Token.Cursor.tokens_of_endOfFile hend, List.append_nil]
        exact ⟨_, rfl⟩
      · have hlt := Token.Cursor.length_rest_next_lt hend
        dsimp only at hlt
        obtain ⟨last, hlast⟩ := ih
          ((Token.Cursor.next ⟨lineBreaks (before ++ span), rest⟩).1 :: found) before' span'
          (Token.Cursor.next ⟨lineBreaks (before ++ span), rest⟩).2.rest (by omega)
        rw [if_neg hend, hlast, Token.Cursor.tokens_of_next hend, ← hline]
        exact ⟨last, by simp⟩

theorem tokenAt_placed (count : Nat) (before span rest : List Char) :
    ∃ last, tokenAt count (placed before span rest) =
      .ok ((Token.Cursor.mk (lineBreaks (before ++ span)) rest).skip count).next.1 last := by
  induction count generalizing before span rest with
  | zero =>
      obtain ⟨before', span', hnext, _⟩ := next_placed before span rest
      exact ⟨_, hnext⟩
  | succ count ih =>
      obtain ⟨before', span', hnext, hline⟩ := next_placed before span rest
      obtain ⟨last, hlast⟩ := ih before' span'
        (Token.Cursor.next ⟨lineBreaks (before ++ span), rest⟩).2.rest
      rw [← hline] at hlast
      rw [tokenAt, bind_of_ok hnext]
      exact ⟨last, hlast⟩

theorem placed_toList (text : String) : placed [] [] text.toList = Scanner.ofText text := by
  simp [placed, Scanner.ofText, lineBreaks]

/-- Scanning a text by offsets meets no hazard, and finds the tokens of the text. -/
theorem tokens_on (text : String) : tokens.on text = .ok (Token.ofText text) := by
  obtain ⟨last, hall⟩ := all_placed (text.toList.length + 1) [] [] [] text.toList
    (Nat.lt_succ_self _)
  have htokens : tokens (Scanner.ofText text) =
      .ok (Token.Cursor.mk 0 text.toList).tokens.1 last := by
    rw [← placed_toList, tokens, bind_of_ok rounds_placed, hall]
    rfl
  rw [on, htokens]
  rfl

/-- Asking for tokens one by one meets no hazard, also behind the end of the text. -/
theorem tokenAt_on (text : String) (count : Nat) :
    (tokenAt count).on text = .ok ((Token.Cursor.start text).skip count).next.1 := by
  obtain ⟨last, htoken⟩ := tokenAt_placed count [] [] text.toList
  rw [placed_toList] at htoken
  rw [on, htoken]
  rfl

end Scan

end Scriptlet.Checked
