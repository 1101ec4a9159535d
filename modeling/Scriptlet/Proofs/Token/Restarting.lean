import Scriptlet.Proofs.Token.Joint

/-!
# Reading starts anew at blanks

Behind blanks the tokens of a text are those of what stands there, further down by the lines
before it. That is so unless a string literal is open where the blanks begin: then they are
part of the literal, and the tokens differ whatever comes behind. Main result:
`ofText_restarts_iff`.
-/

namespace Scriptlet.Token

namespace Quotation

variable {cs more : List Char}

/-- Reading a literal takes a character, if there is one. -/
theorem length_rest_read_lt (hne : cs ≠ []) (content? : Option (List Char)) (span : List Char) :
    (read content? span cs).rest.length < cs.length := by
  unfold read
  split
  · exact absurd rfl hne
  · simp
  · simp
  · have hle := length_rest_read_le
    exact Nat.lt_succ_of_le (Nat.le_succ_of_le (hle _ _ _))
  · exact Nat.lt_succ_of_le (length_rest_read_le _ _ _)

/-- A literal that is not closed takes some of what is put behind it. -/
theorem length_rest_read_append_lt (h : closes cs = false) (hne : more ≠ [])
    (content? : Option (List Char)) (span : List Char) :
    (read content? span (cs ++ more)).rest.length < more.length := by
  fun_induction closes cs generalizing content? span with
  | case1 => exact length_rest_read_lt hne content? span
  | case2 => cases h
  | case3 =>
      obtain ⟨c, others, rfl⟩ := List.exists_cons_of_ne_nil hne
      rw [List.singleton_append, read]
      exact Nat.lt_succ_of_le (length_rest_read_le _ _ _)
  | case4 c rest ih =>
      rw [List.cons_append, List.cons_append, read]
      exact ih h _ _
  | case5 c rest hquote hlast hescape ih =>
      rw [List.cons_append, read_plain hquote (ne_backslash hlast hescape)]
      exact ih h _ _

end Quotation

namespace Cut

/-- An open literal becomes another token when something is put behind it. -/
theorem quotation_append_ne {rest more : List Char} (h : Quotation.closes rest = false)
    (hne : more ≠ []) (hkind : (quotation (rest ++ more)).kind = (quotation rest).kind) :
    (quotation (rest ++ more)).lexeme ≠ (quotation rest).lexeme := by
  have hlonger := Quotation.length_rest_read_append_lt h hne (some []) ['"']
  have hspan := Quotation.read_span_append_rest (some []) ['"'] (rest ++ more)
  have hspan' := Quotation.read_span_append_rest (some []) ['"'] rest
  obtain ⟨hcontent', hrest'⟩ := Quotation.read_of_not_closes h (some []) ['"']
  rw [hrest', List.append_nil] at hspan'
  have hopen : quotation rest = verbatim .illegal ('"' :: rest) [] := by
    simp [quotation, hcontent', hspan', hrest']
  rw [hopen] at hkind ⊢
  intro hlexeme
  cases hcontent : (Quotation.read (some []) ['"'] (rest ++ more)).content? with
  | some content => simp [quotation, hcontent, verbatim] at hkind
  | none =>
      -- Both are illegal and read as they are written, so they are equally long.
      simp only [quotation, hcontent, verbatim, String.ofList_inj] at hlexeme
      have hlength := congrArg List.length hspan
      rw [hlexeme] at hlength
      simp only [List.length_append, List.length_cons, List.reverse_cons, List.reverse_nil,
        List.nil_append, List.singleton_append] at hlength
      omega

end Cut

namespace Cursor

/-- If tokens are the same with something behind them, no string literal is open there. -/
theorem closed_of_tokens_append {cursor : Cursor} {c : Char} (hblank : isBlank c = true)
    {more : List Char} {others : List Token}
    (h : (tokens ⟨cursor.line, cursor.rest ++ c :: more⟩).1 = cursor.tokens.1 ++ others) :
    cursor.Closed := by
  generalize htokens : cursor.tokens.1 = found at h
  have hlexes := cursor.lexes_tokens
  rw [htokens] at hlexes
  clear htokens
  induction hlexes with
  | done hend => exact .nil hend
  | @more cursor found hkind _ ih =>
      obtain ⟨line, cs⟩ := cursor
      obtain ⟨d, rest, hcs⟩ := List.exists_cons_of_ne_nil (mt next_kind_eq_endOfFile_iff.mpr hkind)
      have hmore : (cs ++ c :: more).dropWhile isBlank = d :: (rest ++ c :: more) := by
        rw [(span_append (by simp [hcs])).2, hcs, List.cons_append]
      have hkind' : (next ⟨line, cs ++ c :: more⟩).1.kind ≠ .endOfFile := by
        rw [Ne, next_kind_eq_endOfFile_iff, hmore]
        exact List.cons_ne_nil _ _
      rw [tokens_of_next hkind', List.cons_append, List.cons.injEq] at h
      obtain ⟨hfirst, hbehind⟩ := h
      have hclear : Cleared ⟨line, cs⟩ := by
        intro rest' hrest'
        cases hcs.symm.trans hrest'
        refine eq_true_of_ne_false fun hopen => ?_
        rw [next_of_cons hmore, next_of_cons hcs] at hfirst
        obtain ⟨hkinds, _, hlexemes⟩ := Token.mk.inj hfirst
        exact Cut.quotation_append_ne hopen (List.cons_ne_nil c more) hkinds hlexemes
      have hapart : (next ⟨line, cs⟩).1.kind.Apart (c :: more) := by
        rintro d hd
        cases hd
        exact Kind.joins_of_isBlank _ hblank
      rw [next_append hkind hclear fun _ => hapart] at hbehind
      exact .cons hkind hclear (ih hbehind)

end Cursor

variable {a blanks : String}

/-- Behind blanks the tokens of a text start anew, if no string literal is open there. -/
theorem ofText_append (hclosed : (Cursor.start a).Closed) (hne : blanks ≠ "")
    (hblanks : ∀ c ∈ blanks.toList, isBlank c = true) (b : String) :
    ofText (a ++ blanks ++ b) =
      ofText a ++ (ofText b).map (shift (lineBreaks (a ++ blanks).toList)) := by
  have hnil : blanks.toList ≠ [] := by simpa using hne
  have hshift := Cursor.tokens_shift (.start b) (lineBreaks (a ++ blanks).toList)
  have happend := Cursor.tokens_append hclosed hnil hblanks b.toList
  simp only [Cursor.start, Nat.zero_add] at hshift happend
  unfold ofText Cursor.start
  rw [← hshift, String.toList_append, String.toList_append, List.append_assoc, happend]

/-- Behind blanks the tokens of a text start anew, on the lines that they are on in the whole
text, if and only if the text before the blanks does not end within a string literal. -/
theorem ofText_restarts_iff (a b : String) (hne : blanks ≠ "")
    (hblanks : ∀ c ∈ blanks.toList, isBlank c = true) :
    ofText (a ++ blanks ++ b) =
        ofText a ++ (ofText b).map (shift (lineBreaks (a ++ blanks).toList)) ↔
      ∀ token ∈ (ofText a).getLast?, token.isLeftOpen = false := by
  refine Iff.trans ⟨fun h => ?_, fun hclosed => ofText_append hclosed hne hblanks b⟩
    (Cursor.closed_iff (.start a))
  have hnil : blanks.toList ≠ [] := by simpa using hne
  obtain ⟨c, others, hcons⟩ := List.exists_cons_of_ne_nil hnil
  have hblank : isBlank c = true := hblanks c (by simp [hcons])
  have htokens : (Cursor.tokens ⟨0, a.toList ++ c :: (others ++ b.toList)⟩).1 =
      (Cursor.start a).tokens.1 ++ (ofText b).map (shift (lineBreaks (a ++ blanks).toList)) := by
    rw [← List.cons_append, ← hcons, ← List.append_assoc, ← String.toList_append,
      ← String.toList_append]
    exact h
  exact Cursor.closed_of_tokens_append hblank htokens

/-- A bad escape, a line break within a literal and an illegal character make no difference.
Behind a backslash that ends the text the blank is escaped, and a quote closes the literal. -/
theorem ofText_restarts_iff_spoiled :
    ofText ("x \"a\\q\n\"@" ++ "\r\n" ++ "\"b\n") =
        ofText "x \"a\\q\n\"@" ++ (ofText "\"b\n").map (shift 2) ∧
      ofText ("\"a\\" ++ " " ++ "\"") ≠ ofText "\"a\\" ++ (ofText "\"").map (shift 0) := by
  have hbreak : ∀ c ∈ "\r\n".toList, isBlank c = true := List.all_eq_true.mp (by decide +kernel)
  have hblank : ∀ c ∈ " ".toList, isBlank c = true := List.all_eq_true.mp (by decide +kernel)
  refine ⟨(ofText_restarts_iff _ _ (by decide) hbreak).mpr (by decide +kernel), fun h => ?_⟩
  exact absurd ((ofText_restarts_iff _ _ (by decide) hblank).mp h) (by decide +kernel)

end Scriptlet.Token
