import Mathlib.Data.List.TakeWhile
import Scriptlet.Proofs.Program.Loops

/-!
# Where the tokens of a text end

A token depends on its own characters and on whether the character behind them would
make it go on. So a text that is continued has the tokens that it had, unless its last
token goes on or it ends within a string literal, and behind blanks the tokens start
anew. Main result: `Cursor.tokens_append`.
-/

namespace Scriptlet.Token

/-- What a run of characters takes of a longer text. -/
theorem span_append {p : Char → Bool} {cs more : List Char}
    (h : cs.dropWhile p = [] → ∀ c ∈ more.head?, p c = false) :
    (cs ++ more).takeWhile p = cs.takeWhile p ∧
      (cs ++ more).dropWhile p = cs.dropWhile p ++ more := by
  induction cs with
  | nil =>
      cases more with
      | nil => exact ⟨rfl, rfl⟩
      | cons d more => simp [h rfl d rfl]
  | cons c cs ih =>
      by_cases hc : p c = true
      · obtain ⟨htake, hdrop⟩ := ih (by simpa [hc] using h)
        simp [hc, htake, hdrop]
      · simp [hc]

/-- The kinds of words. -/
def Kind.isWord : Kind → Bool
  | .ident | .letWord | .fnWord | .trueWord | .falseWord | .ifWord | .elseWord | .returnWord => true
  | _ => false

/-- Whether a token of this kind would be another one if the character stood right
behind it. -/
def Kind.joins (kind : Kind) (c : Char) : Bool :=
  match kind with
  | .assign | .bang => c = '='
  | .int => c.isDigit
  | kind => kind.isWord && isWordChar c

/-- No character comes next that a token of this kind would take. -/
def Kind.Apart (kind : Kind) (cs : List Char) : Prop :=
  ∀ c ∈ cs.head?, kind.joins c = false

theorem isBlank_iff {c : Char} :
    isBlank c = true ↔ c = ' ' ∨ c = '\t' ∨ c = '\r' ∨ c = '\n' := by
  simp [isBlank, or_assoc]

theorem Kind.joins_of_isBlank (kind : Kind) {c : Char} (h : isBlank c = true) :
    kind.joins c = false := by
  rcases isBlank_iff.mp h with rfl | rfl | rfl | rfl <;> cases kind <;> decide

theorem Kind.isWord_ofKeyword? (word : String) :
    ((Kind.ofKeyword? word).getD .ident).isWord = true := by
  simp only [Kind.ofKeyword?, keywords, List.lookup_cons, List.lookup_nil]
  repeat' split
  all_goals rfl

theorem Kind.joins_of_isWord {kind : Kind} (h : kind.isWord = true) (c : Char) :
    kind.joins c = isWordChar c := by
  cases kind <;> first | rfl | cases h

namespace Quotation

/-- A closing quote comes. -/
def closes : List Char → Bool
  | [] => false
  | '"' :: _ => true
  | ['\\'] => false
  | '\\' :: _ :: rest => closes rest
  | _ :: rest => closes rest

section Plain

variable {c : Char} {rest : List Char}

/-- A character that neither ends the text as a backslash nor escapes another is none. -/
theorem ne_backslash (hlast : c = '\\' → rest = [] → False)
    (hescape : ∀ d others, c = '\\' → rest = d :: others → False) : c ≠ '\\' := by
  rintro rfl
  cases rest with
  | nil => exact hlast rfl rfl
  | cons d others => exact hescape d others rfl rfl

theorem read_plain (hquote : c ≠ '"') (hplain : c ≠ '\\') (content? : Option (List Char))
    (span : List Char) :
    read content? span (c :: rest) = read (content?.map (c :: ·)) (c :: span) rest :=
  read.eq_5 content? span c rest hquote (fun hc => absurd hc hplain) fun _ _ hc => absurd hc hplain

theorem closes_plain (hquote : c ≠ '"') (hplain : c ≠ '\\') : closes (c :: rest) = closes rest :=
  closes.eq_5 c rest hquote (fun hc => absurd hc hplain) fun _ _ hc => absurd hc hplain

end Plain

/-- A literal that is closed does not depend on what is behind it. -/
theorem read_append {cs : List Char} (h : closes cs = true) (content? : Option (List Char))
    (span more : List Char) :
    read content? span (cs ++ more) =
      { read content? span cs with rest := (read content? span cs).rest ++ more } := by
  fun_induction read content? span cs with
  | case1 => cases h
  | case2 => simp [read]
  | case3 => cases h
  | case4 content? span c rest ih =>
      rw [List.cons_append, List.cons_append, read]
      exact ih (by simpa [closes] using h)
  | case5 content? span c rest hquote hlast hescape ih =>
      have hplain := ne_backslash hlast hescape
      rw [closes_plain hquote hplain] at h
      rw [List.cons_append, read_plain hquote hplain]
      exact ih h

/-- A literal that is not closed reaches to the end of the text. -/
theorem read_of_not_closes {cs : List Char} (h : closes cs = false)
    (content? : Option (List Char)) (span : List Char) :
    (read content? span cs).content? = none ∧ (read content? span cs).rest = [] := by
  fun_induction read content? span cs with
  | case1 => exact ⟨rfl, rfl⟩
  | case2 => cases h
  | case3 => exact ⟨rfl, rfl⟩
  | case4 content? span c rest ih => exact ih (by simpa [closes] using h)
  | case5 content? span c rest hquote hlast hescape ih =>
      rw [closes_plain hquote (ne_backslash hlast hescape)] at h
      exact ih h

/-- A literal that is closed ends in the quote that closes it. -/
theorem read_of_closes {cs : List Char} (h : closes cs = true) (content? : Option (List Char))
    (span : List Char) :
    ∃ taken, (read content? span cs).span = span.reverse ++ taken ∧ closes taken = true := by
  fun_induction read content? span cs with
  | case1 => cases h
  | case2 => exact ⟨['"'], by simp, rfl⟩
  | case3 => cases h
  | case4 content? span c rest ih =>
      obtain ⟨taken, hspan, htaken⟩ := ih (by simpa [closes] using h)
      exact ⟨'\\' :: c :: taken, by simpa using hspan, htaken⟩
  | case5 content? span c rest hquote hlast hescape ih =>
      have hplain := ne_backslash hlast hescape
      rw [closes_plain hquote hplain] at h
      obtain ⟨taken, hspan, htaken⟩ := ih h
      exact ⟨c :: taken, by simpa using hspan, (closes_plain hquote hplain).trans htaken⟩

end Quotation

namespace Cut

theorem quotation_append {rest : List Char} (h : Quotation.closes rest = true)
    (more : List Char) :
    quotation (rest ++ more) = { quotation rest with rest := (quotation rest).rest ++ more } := by
  simp only [quotation, Quotation.read_append h]
  split <;> rfl

theorem quotation_of_not_closes {rest : List Char} (h : Quotation.closes rest = false) :
    (quotation rest).kind = .illegal ∧ (quotation rest).rest = [] := by
  obtain ⟨hcontent, hrest⟩ := Quotation.read_of_not_closes h (some []) ['"']
  simp only [quotation, hcontent]
  exact ⟨rfl, hrest⟩

/-- A token that is neither a string literal nor an operator of two characters. -/
theorem of_single {c : Char} {rest : List Char} (hquote : c ≠ '"')
    (hsingle : c = '=' ∨ c = '!' → ∀ d ∈ rest.head?, d ≠ '=') :
    of c rest =
      match Kind.ofChar? c with
      | some kind => .verbatim kind [c] rest
      | none =>
          if isWordChar c then .word (c :: rest)
          else if c.isDigit then .digits (c :: rest)
          else .verbatim .illegal [c] rest := by
  unfold of
  split
  · exact absurd rfl hquote
  · exact absurd rfl (hsingle (.inl rfl) '=' rfl)
  · exact absurd rfl (hsingle (.inr rfl) '=' rfl)
  · rfl

/-- A token stays what it is in a longer text, unless it reaches to where the text is
continued and goes on there. A string literal has to be closed. -/
theorem of_append {c : Char} {rest more : List Char}
    (hclosed : c = '"' → Quotation.closes rest = true)
    (hapart : (of c rest).rest = [] → (of c rest).kind.Apart more) :
    of c (rest ++ more) = { of c rest with rest := (of c rest).rest ++ more } := by
  by_cases hquote : c = '"'
  · subst hquote
    exact quotation_append (hclosed rfl) more
  by_cases hdouble : (c = '=' ∨ c = '!') ∧ ∃ others, rest = '=' :: others
  · obtain ⟨rfl | rfl, others, rfl⟩ := hdouble <;> rfl
  have hsingle : c = '=' ∨ c = '!' → ∀ d ∈ rest.head?, d ≠ '=' := by
    rintro hc d hd rfl
    exact hdouble ⟨hc, List.head?_eq_some_iff.mp hd⟩
  have hsingle' : c = '=' ∨ c = '!' → ∀ d ∈ (rest ++ more).head?, d ≠ '=' := by
    intro hc d hd
    cases rest with
    | nil =>
        have hjoins := hapart (by rcases hc with rfl | rfl <;> rfl) d hd
        rintro rfl
        rcases hc with rfl | rfl <;> cases hjoins
    | cons d' others => exact hsingle hc d hd
  rw [of_single hquote hsingle] at hapart ⊢
  rw [of_single hquote hsingle']
  revert hapart
  cases Kind.ofChar? c with
  | some kind => exact fun _ => rfl
  | none =>
      intro hapart
      by_cases hword : isWordChar c = true
      · simp only [hword, if_true] at hapart ⊢
        have hkind : (word (c :: rest)).kind.isWord = true := Kind.isWord_ofKeyword? _
        have hstops : (c :: rest).dropWhile isWordChar = [] →
            ∀ d ∈ more.head?, isWordChar d = false := by
          intro hrest d hd
          have hjoins := hapart hrest d hd
          rwa [Kind.joins_of_isWord hkind] at hjoins
        obtain ⟨htake, hdrop⟩ := span_append hstops
        simp only [word, ← List.cons_append, htake, hdrop, verbatim]
      · by_cases hdigit : c.isDigit = true
        · simp only [hword, hdigit, if_true] at hapart ⊢
          have hstops : (c :: rest).dropWhile Char.isDigit = [] →
              ∀ d ∈ more.head?, d.isDigit = false := hapart
          obtain ⟨htake, hdrop⟩ := span_append hstops
          simp only [digits, ← List.cons_append, htake, hdrop, verbatim]
          rfl
        · simp only [hword, hdigit]
          rfl

end Cut

/-- A token so many lines further down. -/
def shift (lines : Nat) (token : Token) : Token :=
  { token with line := token.line + lines }

/-- A string literal that reaches to the end of the text because it is not closed. -/
def isLeftOpen (token : Token) : Bool :=
  token.kind = .illegal &&
    match token.lexeme.toList with
    | '"' :: rest => !Quotation.closes rest
    | _ => false

/-- A quotation is left open if and only if no quote closes it. -/
theorem Cut.isLeftOpen_quotation (rest : List Char) (line : Nat) :
    isLeftOpen ⟨(quotation rest).kind, line, (quotation rest).lexeme⟩ =
      !Quotation.closes rest := by
  cases hcloses : Quotation.closes rest with
  | false =>
      obtain ⟨hcontent, hrest⟩ := Quotation.read_of_not_closes hcloses (some []) ['"']
      have hspan := Quotation.read_span_append_rest (some []) ['"'] rest
      rw [hrest, List.append_nil] at hspan
      simp [quotation, hcontent, verbatim, hspan, isLeftOpen, hcloses]
  | true =>
      obtain ⟨taken, hspan, htaken⟩ := Quotation.read_of_closes hcloses (some []) ['"']
      unfold quotation
      dsimp only
      split
      · rfl
      · simp [verbatim, hspan, isLeftOpen, htaken]

/-- Of the tokens in a text, only quotations can be left open. -/
theorem Cut.isLeftOpen_iff (c : Char) (rest : List Char) (line : Nat) :
    isLeftOpen ⟨(of c rest).kind, line, (of c rest).lexeme⟩ = true ↔
      c = '"' ∧ Quotation.closes rest = false := by
  have hword (word : String) : (Kind.ofKeyword? word).getD .ident ≠ .illegal := by
    intro heq
    have hkind := Kind.isWord_ofKeyword? word
    rw [heq] at hkind
    cases hkind
  unfold of
  split
  · rw [isLeftOpen_quotation]
    simp
  · simp [verbatim, isLeftOpen]
  · simp [verbatim, isLeftOpen]
  · rename_i hquote _ _
    have hne : c ≠ '"' := hquote
    simp only [hne, false_and, iff_false, Bool.not_eq_true]
    split
    · rename_i kind hkind
      have hlegal : kind ≠ .illegal := by
        rintro rfl
        unfold Kind.ofChar? at hkind
        split at hkind <;> cases hkind
      simp [verbatim, isLeftOpen, hlegal]
    · split
      · simp [word, verbatim, isLeftOpen, hword]
      · split
        · simp [digits, verbatim, isLeftOpen]
        · simp [verbatim, isLeftOpen, hne]

namespace Cursor

/-- The next token is not a string literal that reaches to the end of the text because
it is not closed. -/
def Cleared (cursor : Cursor) : Prop :=
  ∀ rest, cursor.rest.dropWhile isBlank = '"' :: rest → Quotation.closes rest = true

/-- From here to the end of the text no string literal is left open. -/
inductive Closed : Cursor → Prop where
  | nil {cursor} (h : cursor.next.1.kind = .endOfFile) : Closed cursor
  | cons {cursor} (h : cursor.next.1.kind ≠ .endOfFile) (hclear : cursor.Cleared)
      (hrest : cursor.next.2.Closed) : Closed cursor

section Next

variable {line : Nat} {cs rest more : List Char} {c : Char}

theorem next_of_blanks (h : cs.dropWhile isBlank = []) :
    next ⟨line, cs⟩ =
      (⟨.endOfFile, line + lineBreaks cs, "end of file"⟩, ⟨line + lineBreaks cs, []⟩) := by
  have htake : cs.takeWhile isBlank = cs := by
    have hall := List.takeWhile_append_dropWhile (p := isBlank) (l := cs)
    rwa [h, List.append_nil] at hall
  simp only [next, h, htake]

theorem next_of_cons (h : cs.dropWhile isBlank = c :: rest) :
    next ⟨line, cs⟩ =
      (⟨(Cut.of c rest).kind, line + lineBreaks (cs.takeWhile isBlank), (Cut.of c rest).lexeme⟩,
        ⟨line + lineBreaks (cs.takeWhile isBlank) + lineBreaks (Cut.of c rest).span,
          (Cut.of c rest).rest⟩) := by
  simp only [next, h]

/-- The end of the file comes next when only blanks are left. -/
theorem next_kind_eq_endOfFile_iff :
    (next ⟨line, cs⟩).1.kind = .endOfFile ↔ cs.dropWhile isBlank = [] := by
  cases hcs : cs.dropWhile isBlank with
  | nil => simp [next_of_blanks hcs]
  | cons c rest => simp [next_of_cons hcs, Cut.of_kind_ne_endOfFile]

/-- In a longer text the next token is the same if it is complete. -/
theorem next_append (hne : (next ⟨line, cs⟩).1.kind ≠ .endOfFile)
    (hclear : Cleared ⟨line, cs⟩)
    (hapart : (next ⟨line, cs⟩).2.rest = [] → (next ⟨line, cs⟩).1.kind.Apart more) :
    next ⟨line, cs ++ more⟩ =
      ((next ⟨line, cs⟩).1,
        { (next ⟨line, cs⟩).2 with rest := (next ⟨line, cs⟩).2.rest ++ more }) := by
  cases hcs : cs.dropWhile isBlank with
  | nil => exact absurd (next_kind_eq_endOfFile_iff.mpr hcs) hne
  | cons c rest =>
      rw [next_of_cons hcs] at hapart ⊢
      have hblanks : cs.dropWhile isBlank = [] → ∀ d ∈ more.head?, isBlank d = false := by
        simp [hcs]
      obtain ⟨htake, hdrop⟩ := span_append hblanks
      rw [hcs, List.cons_append] at hdrop
      have hclosed : c = '"' → Quotation.closes rest = true := by
        rintro rfl
        exact hclear rest hcs
      rw [next_of_cons hdrop, Cut.of_append hclosed hapart, htake]

/-- Blanks are skipped. -/
theorem next_blanks {blanks : List Char} (h : ∀ c ∈ blanks, isBlank c = true) (line : Nat)
    (cs : List Char) : next ⟨line, blanks ++ cs⟩ = next ⟨line + lineBreaks blanks, cs⟩ := by
  have hdrop : (blanks ++ cs).dropWhile isBlank = cs.dropWhile isBlank :=
    List.dropWhile_append_of_pos h
  have htake : (blanks ++ cs).takeWhile isBlank = blanks ++ cs.takeWhile isBlank :=
    List.takeWhile_append_of_pos h
  simp only [next, hdrop, htake, lineBreaks_append, Nat.add_assoc]

/-- Reading on loses no line break. -/
theorem line_next (line : Nat) (cs : List Char) :
    (next ⟨line, cs⟩).2.line + lineBreaks (next ⟨line, cs⟩).2.rest = line + lineBreaks cs := by
  have hcs : cs.takeWhile isBlank ++ cs.dropWhile isBlank = cs := List.takeWhile_append_dropWhile
  cases hdrop : cs.dropWhile isBlank with
  | nil =>
      rw [next_of_blanks hdrop]
      rfl
  | cons c rest =>
      have hcut := Cut.of_span_append_rest c rest
      have hlines : lineBreaks cs = lineBreaks (cs.takeWhile isBlank) +
          (lineBreaks (Cut.of c rest).span + lineBreaks (Cut.of c rest).rest) := by
        rw [← lineBreaks_append, hcut, ← hdrop, ← lineBreaks_append, hcs]
      rw [next_of_cons hdrop, hlines]
      simp only [Nat.add_assoc]

/-- Tokens do not depend on the lines before them, but for the lines they are on. -/
theorem next_shift (line : Nat) (cs : List Char) (lines : Nat) :
    next ⟨line + lines, cs⟩ =
      ((next ⟨line, cs⟩).1.shift lines,
        { (next ⟨line, cs⟩).2 with line := (next ⟨line, cs⟩).2.line + lines }) := by
  cases hdrop : cs.dropWhile isBlank with
  | nil => simp [next_of_blanks hdrop, shift, Nat.add_right_comm]
  | cons c rest => simp [next_of_cons hdrop, shift, Nat.add_right_comm]

end Next

theorem tokens_of_next_eq {cursor cursor' : Cursor} (h : cursor.next = cursor'.next) :
    cursor.tokens.1 = cursor'.tokens.1 := by
  by_cases hend : cursor.next.1.kind = .endOfFile
  · rw [tokens_of_endOfFile hend, tokens_of_endOfFile (h ▸ hend)]
  · have hend' : cursor'.next.1.kind ≠ .endOfFile := h ▸ hend
    rw [tokens_of_next hend, tokens_of_next hend', h]

theorem tokens_shift (cursor : Cursor) (lines : Nat) :
    (tokens ⟨cursor.line + lines, cursor.rest⟩).1 = cursor.tokens.1.map (shift lines) := by
  generalize htokens : cursor.tokens.1 = found
  have hlexes := cursor.lexes_tokens
  rw [htokens] at hlexes
  clear htokens
  induction hlexes with
  | @done cursor h =>
      have hshift := next_shift cursor.line cursor.rest lines
      refine tokens_of_endOfFile ?_
      rw [hshift]
      exact h
  | @more cursor found h _ ih =>
      have hshift := next_shift cursor.line cursor.rest lines
      have hne : (next ⟨cursor.line + lines, cursor.rest⟩).1.kind ≠ .endOfFile := by
        rw [hshift]
        exact h
      rw [tokens_of_next hne, hshift, ih]
      rfl

/-- Behind blanks the tokens of a text start anew, unless a string literal is open there. -/
theorem tokens_append {cursor : Cursor} (h : cursor.Closed) {blanks : List Char}
    (hne : blanks ≠ []) (hblanks : ∀ c ∈ blanks, isBlank c = true) (more : List Char) :
    (tokens ⟨cursor.line, cursor.rest ++ (blanks ++ more)⟩).1 =
      cursor.tokens.1 ++
        (tokens ⟨cursor.line + lineBreaks (cursor.rest ++ blanks), more⟩).1 := by
  induction h with
  | @nil cursor hend =>
      obtain ⟨line, cs⟩ := cursor
      have hall : ∀ c ∈ cs ++ blanks, isBlank c = true := by
        have hcs := List.dropWhile_eq_nil_iff.mp (next_kind_eq_endOfFile_iff.mp hend)
        exact fun c hc => (List.mem_append.mp hc).elim (hcs c) (hblanks c)
      rw [tokens_of_endOfFile hend, ← List.append_assoc, List.nil_append]
      exact tokens_of_next_eq (next_blanks hall line more)
  | @cons cursor hkind hclear hrest ih =>
      obtain ⟨line, cs⟩ := cursor
      have hapart : (next ⟨line, cs⟩).1.kind.Apart (blanks ++ more) := by
        obtain ⟨c, others, rfl⟩ := List.exists_cons_of_ne_nil hne
        rintro d hd
        cases hd
        exact Kind.joins_of_isBlank _ (hblanks c (by simp))
      have hnext := next_append hkind hclear fun _ => hapart
      have hkind' : (next ⟨line, cs ++ (blanks ++ more)⟩).1.kind ≠ .endOfFile := by
        rw [hnext]
        exact hkind
      have hline := line_next line cs
      rw [tokens_of_next hkind', hnext, tokens_of_next hkind]
      simp only [ih, List.cons_append, lineBreaks_append, ← Nat.add_assoc, hline]

/-- A text leaves no string literal open if and only if its last token is not one. -/
theorem closed_iff (cursor : Cursor) :
    cursor.Closed ↔ ∀ token ∈ cursor.tokens.1.getLast?, token.isLeftOpen = false := by
  generalize htokens : cursor.tokens.1 = found
  have hlexes := cursor.lexes_tokens
  rw [htokens] at hlexes
  clear htokens
  induction hlexes with
  | done hend => exact ⟨fun _ => by simp, fun _ => .nil hend⟩
  | @more cursor found hkind hrest ih =>
      obtain ⟨line, cs⟩ := cursor
      cases hcs : cs.dropWhile isBlank with
      | nil => exact absurd (next_kind_eq_endOfFile_iff.mpr hcs) hkind
      | cons c rest =>
          have hfirst : (next ⟨line, cs⟩).1.isLeftOpen = true ↔
              c = '"' ∧ Quotation.closes rest = false := by
            rw [next_of_cons hcs]
            exact Cut.isLeftOpen_iff c rest _
          by_cases hopen : c = '"' ∧ Quotation.closes rest = false
          · -- An open literal takes the rest of the text, so it is the last token.
            have hbehind : (next ⟨line, cs⟩).2.rest.dropWhile isBlank = [] := by
              obtain ⟨rfl, hopen⟩ := hopen
              rw [next_of_cons hcs]
              exact congrArg (List.dropWhile isBlank) (Cut.quotation_of_not_closes hopen).2
            have hfound : found = [] := by
              cases hrest with
              | done => rfl
              | more hmore => exact absurd (next_kind_eq_endOfFile_iff.mpr hbehind) hmore
            subst hfound
            have hlast := hfirst.mpr hopen
            refine ⟨fun hclosed => ?_, fun hall => ?_⟩
            · cases hclosed with
              | nil hend => exact absurd hend hkind
              | cons _ hclear _ =>
                  obtain ⟨rfl, hopen⟩ := hopen
                  exact absurd (hclear rest hcs) (by simp [hopen])
            · exact absurd (hall _ rfl) (by simp [hlast])
          · have hnot : (next ⟨line, cs⟩).1.isLeftOpen = false :=
              eq_false_of_ne_true fun htrue => hopen (hfirst.mp htrue)
            have hclear : Cleared ⟨line, cs⟩ := by
              intro rest' hrest'
              cases hcs.symm.trans hrest'
              exact eq_true_of_ne_false fun hfalse => hopen ⟨rfl, hfalse⟩
            have hclosed : Closed ⟨line, cs⟩ ↔ (next ⟨line, cs⟩).2.Closed := by
              refine ⟨fun hclosed => ?_, .cons hkind hclear⟩
              cases hclosed with
              | nil hend => exact absurd hend hkind
              | cons _ _ hrest => exact hrest
            refine hclosed.trans (ih.trans ?_)
            cases found with
            | nil => simp [hnot]
            | cons first others => rw [List.getLast?_cons_cons]

end Cursor

end Scriptlet.Token
