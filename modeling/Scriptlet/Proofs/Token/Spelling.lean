import Scriptlet.Proofs.Token.Joint
import Scriptlet.Text.Quoted

/-!
# How tokens are written

A token may be written in more than one way, if it is a string literal. Where no
character behind it would make it go on, what is written is read as that token. Main
result: `Spells.tokens_append`.
-/

namespace Scriptlet.Token

/-- The ways to write a text behind an opening quote, up to the closing one. -/
inductive Quotes : List Char → List Char → Prop where
  | nil : Quotes [] ['"']
  | plain {content cs : List Char} {c : Char} (hquote : c ≠ '"') (hescape : c ≠ '\\')
      (h : Quotes content cs) : Quotes (c :: content) (c :: cs)
  | escaped {content cs : List Char} {c d : Char} (hd : unescape? d = some c)
      (h : Quotes content cs) : Quotes (c :: content) ('\\' :: d :: cs)

namespace Quotes

variable {content cs : List Char}

theorem closes (h : Quotes content cs) : Quotation.closes cs = true := by
  induction h with
  | nil => rfl
  | plain hquote hescape _ ih => exact (Quotation.closes_plain hquote hescape).trans ih
  | escaped _ _ ih => exact ih

theorem read (h : Quotes content cs) (before span : List Char) :
    Quotation.read (some before) span cs =
      ⟨some (before.reverse ++ content), span.reverse ++ cs, []⟩ := by
  induction h generalizing before span with
  | nil => simp [Quotation.read]
  | @plain _ cs c hquote hescape _ ih =>
      rw [Quotation.read_plain hquote hescape]
      simpa using ih (c :: before) (c :: span)
  | @escaped _ cs c d hd _ ih =>
      rw [Quotation.read]
      simpa [hd] using ih (c :: before) (d :: '\\' :: span)

end Quotes

/-- The ways to write a token of this kind and text. -/
inductive Spells : Kind → String → List Char → Prop where
  | word {cs : List Char} (hne : cs ≠ []) (h : ∀ c ∈ cs, isWordChar c = true) :
      Spells ((Kind.ofKeyword? (String.ofList cs)).getD .ident) (String.ofList cs) cs
  | int {cs : List Char} (hne : cs ≠ []) (h : ∀ c ∈ cs, c.isDigit = true) :
      Spells .int (String.ofList cs) cs
  | sign {c : Char} {kind : Kind} (h : Kind.ofChar? c = some kind) :
      Spells kind (String.ofList [c]) [c]
  | equal : Spells .equal (String.ofList ['=', '=']) ['=', '=']
  | notEqual : Spells .notEqual (String.ofList ['!', '=']) ['!', '=']
  | text {content cs : List Char} (h : Quotes content cs) :
      Spells .string (String.ofList content) ('"' :: cs)

/-- A sign is no part of a word or a number, nor a blank, nor a quote. -/
theorem Kind.ofChar?_eq_some {c : Char} {kind : Kind} (h : Kind.ofChar? c = some kind) :
    isBlank c = false ∧ isWordChar c = false ∧ c.isDigit = false ∧ c ≠ '"' := by
  unfold Kind.ofChar? at h
  split at h
  any_goals decide
  cases h

/-- What a word is made of. -/
theorem isWordChar_apart {c : Char} (h : isWordChar c = true) :
    isBlank c = false ∧ Kind.ofChar? c = none ∧ c ≠ '"' := by
  refine ⟨?_, ?_, ?_⟩
  · rw [← Bool.not_eq_true, isBlank_iff]
    rintro (rfl | rfl | rfl | rfl) <;> cases h
  · cases hkind : Kind.ofChar? c with
    | none => rfl
    | some kind =>
        rw [(Kind.ofChar?_eq_some hkind).2.1] at h
        cases h
  · rintro rfl
    cases h

/-- What a number is made of. -/
theorem isDigit_apart {c : Char} (h : c.isDigit = true) :
    isBlank c = false ∧ Kind.ofChar? c = none ∧ c ≠ '"' ∧ isWordChar c = false := by
  refine ⟨?_, ?_, ?_, ?_⟩
  · rw [← Bool.not_eq_true, isBlank_iff]
    rintro (rfl | rfl | rfl | rfl) <;> cases h
  · cases hkind : Kind.ofChar? c with
    | none => rfl
    | some kind =>
        rw [(Kind.ofChar?_eq_some hkind).2.2.1] at h
        cases h
  · rintro rfl
    cases h
  · have hrange : 48 ≤ c.toNat ∧ c.toNat ≤ 57 := by
      simpa [Char.isDigit, UInt32.le_iff_toNat_le] using h
    have halpha : c.isAlpha = false := by
      delta Char.isAlpha Char.isUpper Char.isLower
      simp [UInt32.le_iff_toNat_le]
      omega
    have hne : c ≠ '_' := by
      rintro rfl
      cases h
    simp [isWordChar, halpha, hne]

namespace Spells

variable {kind : Kind} {lexeme : String} {span rest : List Char}

theorem cut (h : Spells kind lexeme span) :
    ∃ c cs, span = c :: cs ∧ isBlank c = false ∧ (c = '"' → Quotation.closes cs = true) ∧
      Cut.of c cs = ⟨kind, lexeme, span, []⟩ := by
  cases h with
  | @word cs hne h =>
      obtain ⟨c, cs, rfl⟩ := List.exists_cons_of_ne_nil hne
      have hc := h c List.mem_cons_self
      obtain ⟨hblank, hkind, hquote⟩ := isWordChar_apart hc
      refine ⟨c, cs, rfl, hblank, fun heq => absurd heq hquote, ?_⟩
      rw [Cut.of_single hquote (by rintro (rfl | rfl) <;> cases hc), hkind]
      have htake : (c :: cs).takeWhile isWordChar = c :: cs := List.takeWhile_eq_self_iff.mpr h
      have hdrop : (c :: cs).dropWhile isWordChar = [] := List.dropWhile_eq_nil_iff.mpr h
      simp only [hc, if_true, Cut.word, Cut.verbatim, htake, hdrop]
  | @int cs hne h =>
      obtain ⟨c, cs, rfl⟩ := List.exists_cons_of_ne_nil hne
      have hc := h c List.mem_cons_self
      obtain ⟨hblank, hkind, hquote, hword⟩ := isDigit_apart hc
      refine ⟨c, cs, rfl, hblank, fun heq => absurd heq hquote, ?_⟩
      rw [Cut.of_single hquote (by rintro (rfl | rfl) <;> cases hc), hkind]
      have htake : (c :: cs).takeWhile Char.isDigit = c :: cs := List.takeWhile_eq_self_iff.mpr h
      have hdrop : (c :: cs).dropWhile Char.isDigit = [] := List.dropWhile_eq_nil_iff.mpr h
      simp only [hword, hc, if_true, Cut.digits, Cut.verbatim, htake, hdrop]
      rfl
  | @sign c kind hkind =>
      obtain ⟨hblank, _, _, hquote⟩ := Kind.ofChar?_eq_some hkind
      refine ⟨c, [], rfl, hblank, fun heq => absurd heq hquote, ?_⟩
      rw [Cut.of_single hquote (by simp), hkind]
      rfl
  | equal => exact ⟨'=', ['='], rfl, rfl, by decide, rfl⟩
  | notEqual => exact ⟨'!', ['='], rfl, rfl, by decide, rfl⟩
  | @text content cs h =>
      refine ⟨'"', cs, rfl, rfl, fun _ => h.closes, ?_⟩
      change Cut.quotation cs = _
      simp [Cut.quotation, h.read]

/-- What is written is read, where nothing behind it makes the token go on. -/
theorem next (h : Spells kind lexeme span) (hapart : kind.Apart rest) (line : Nat) :
    Cursor.next ⟨line, span ++ rest⟩ =
      (⟨kind, line, lexeme⟩, ⟨line + lineBreaks span, rest⟩) := by
  obtain ⟨c, cs, rfl, hblank, hclosed, hcut⟩ := h.cut
  have happend : Cut.of c (cs ++ rest) = ⟨kind, lexeme, c :: cs, rest⟩ := by
    rw [Cut.of_append hclosed (by rw [hcut]; exact fun _ => hapart), hcut]
    rfl
  have hdrop : (c :: cs ++ rest).dropWhile isBlank = c :: (cs ++ rest) := by simp [hblank]
  have htake : (c :: cs ++ rest).takeWhile isBlank = [] := by simp [hblank]
  rw [Cursor.next_of_cons hdrop, happend, htake]
  rfl

theorem tokens_append (h : Spells kind lexeme span) (hapart : kind.Apart rest) (line : Nat) :
    (Cursor.tokens ⟨line, span ++ rest⟩).1 =
      ⟨kind, line, lexeme⟩ :: (Cursor.tokens ⟨line + lineBreaks span, rest⟩).1 := by
  obtain ⟨c, cs, _, _, _, hcut⟩ := h.cut
  have hkind : kind ≠ .endOfFile := by
    have hne := Cut.of_kind_ne_endOfFile c cs
    rwa [hcut] at hne
  have hnext := h.next hapart line
  rw [Cursor.tokens_of_next (by rw [hnext]; exact hkind), hnext]

end Spells

/-- Down to what is left, a text is read as tokens with the property, on whatever line it
stands. -/
def Spelled (P : List Token → Prop) (cs rest : List Char) : Prop :=
  ∀ line, ∃ tokens behind,
    (Cursor.tokens ⟨line, cs⟩).1 = tokens ++ (Cursor.tokens ⟨behind, rest⟩).1 ∧ P tokens

/-- One token of this kind and text. -/
def IsToken (kind : Kind) (lexeme : String) (tokens : List Token) : Prop :=
  ∃ token, tokens = [token] ∧ token.kind = kind ∧ token.lexeme = lexeme

theorem Spells.spelled {kind : Kind} {lexeme : String} {span rest : List Char}
    (h : Spells kind lexeme span) (hapart : kind.Apart rest) :
    Spelled (IsToken kind lexeme) (span ++ rest) rest :=
  fun line => ⟨[⟨kind, line, lexeme⟩], _, h.tokens_append hapart line, _, rfl, rfl, rfl⟩

namespace Spelled

variable {P Q R : List Token → Prop} {cs middle rest : List Char}

theorem mono (h : Spelled P cs rest) (hP : ∀ tokens, P tokens → Q tokens) :
    Spelled Q cs rest := by
  intro line
  obtain ⟨tokens, behind, htokens, hp⟩ := h line
  exact ⟨tokens, behind, htokens, hP tokens hp⟩

/-- Blanks may stand before tokens. -/
theorem blank (h : Spelled P cs rest) : Spelled P (' ' :: cs) rest := by
  intro line
  have hblank : ∀ c ∈ [' '], isBlank c = true := by simp [isBlank]
  have hnext := Cursor.next_blanks hblank line cs
  obtain ⟨tokens, behind, htokens, hp⟩ := h (line + lineBreaks [' '])
  exact ⟨tokens, behind, (Cursor.tokens_of_next_eq hnext).trans htokens, hp⟩

/-- One part after the other. -/
theorem append (h : Spelled P cs middle) (h' : Spelled Q middle rest)
    (hR : ∀ tokens more, P tokens → Q more → R (tokens ++ more)) : Spelled R cs rest := by
  intro line
  obtain ⟨tokens, behind, htokens, hp⟩ := h line
  obtain ⟨more, last, hmore, hq⟩ := h' behind
  exact ⟨tokens ++ more, last, by rw [htokens, hmore, List.append_assoc], hR tokens more hp hq⟩

/-- A token before other ones. -/
theorem cons {kind : Kind} {lexeme : String} (h : Spelled (IsToken kind lexeme) cs middle)
    (h' : Spelled Q middle rest)
    (hR : ∀ token more, token.kind = kind → token.lexeme = lexeme → Q more → R (token :: more)) :
    Spelled R cs rest := by
  refine h.append h' fun tokens more hp hq => ?_
  obtain ⟨token, rfl, hkind, hlexeme⟩ := hp
  exact hR token more hkind hlexeme hq

/-- A whole text is read as tokens with the property. -/
theorem ofText {text : String} (h : Spelled P text.toList []) : P (Token.ofText text) := by
  obtain ⟨tokens, behind, htokens, hp⟩ := h 0
  have hnothing : (Cursor.tokens ⟨behind, []⟩).1 = [] := Cursor.tokens_of_endOfFile rfl
  have htext : Token.ofText text = tokens := by
    rw [hnothing, List.append_nil] at htokens
    exact htokens
  exact htext ▸ hp

end Spelled

/-- No word and no number goes on here. -/
def Separate (rest : List Char) : Prop :=
  ∀ c ∈ rest.head?, isWordChar c = false ∧ c.isDigit = false

theorem Separate.nil : Separate [] := by
  simp [Separate]

theorem Separate.cons {c : Char} (h : isWordChar c = false ∧ c.isDigit = false)
    (rest : List Char) : Separate (c :: rest) := by
  intro d hd
  cases hd
  exact h

theorem Separate.apart_word {rest : List Char} (h : Separate rest) {kind : Kind}
    (hkind : kind.isWord = true) : kind.Apart rest := by
  intro c hc
  rw [Kind.joins_of_isWord hkind]
  exact (h c hc).1

theorem Separate.apart_int {rest : List Char} (h : Separate rest) : Kind.int.Apart rest :=
  fun c hc => (h c hc).2

/-- A sign is one token, whatever is behind it. -/
theorem spelled_sign {c : Char} {kind : Kind} (h : Kind.ofChar? c = some kind)
    (hjoins : ∀ d, kind.joins d = false) (rest : List Char) :
    Spelled (IsToken kind (String.ofList [c])) (c :: rest) rest :=
  (Spells.sign h).spelled fun d _ => hjoins d

/-- A word is one token where no further word character comes. -/
theorem spelled_word {word : String} {kind : Kind} (hne : word ≠ "")
    (hchars : word.toList.all isWordChar = true)
    (hkind : (Kind.ofKeyword? word).getD .ident = kind) {rest : List Char} (hrest : Separate rest) :
    Spelled (IsToken kind word) (word.toList ++ rest) rest := by
  have hlist : word.toList ≠ [] := by simpa using hne
  have hspells := Spells.word hlist (List.all_eq_true.mp hchars)
  rw [String.ofList_toList, hkind] at hspells
  exact hspells.spelled (hrest.apart_word (hkind ▸ Kind.isWord_ofKeyword? word))

end Scriptlet.Token
