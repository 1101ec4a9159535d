import Scriptlet.Proofs.Grammar.Completeness
import Scriptlet.Proofs.Program.Legible
import Scriptlet.Proofs.Token.Spelling

/-!
# Canonical tokens

What is written for an expression is an operand of the layered grammar, in brackets of its
own where it has operators. So it may stand wherever the grammar has an expression, and
what stands behind it begins with nothing that would continue it. Here are the words, the
lists and the blocks that canonical texts are made of, with what comes behind left open.
-/

namespace Scriptlet

namespace Grammar

variable {c : List Token} {e : Expr Unit} {dangling : Bool}

/-- An operand is an expression of every layer. -/
theorem IsPostfixed.isExpr (h : IsPostfixed c e dangling) (p : Precedence)
    (hp : p.rank ≤ Precedence.unary.rank) : IsExpr p c e dangling := by
  have hunary : IsExpr .unary c e dangling := .postfixed h
  have hproduct : IsExpr .product c e dangling := .operand rfl hunary
  have hsum : IsExpr .sum c e dangling := .operand rfl hproduct
  have horder : IsExpr .order c e dangling := .operand rfl hsum
  have hequality : IsExpr .equality c e dangling := .operand rfl horder
  cases p with
  | lowest => exact .operand rfl hequality
  | equality => exact hequality
  | order => exact horder
  | sum => exact hsum
  | product => exact hproduct
  | unary => exact hunary
  | call | index => exact absurd hp (by decide)

/-- An expression of a tighter layer is one of the loosest. -/
theorem IsExpr.lowest {p : Precedence} (h : IsExpr p c e dangling) :
    IsExpr .lowest c e dangling := by
  cases p with
  | lowest => exact h
  | equality => exact .operand rfl h
  | order => exact .operand rfl (.operand rfl h)
  | sum => exact .operand rfl (.operand rfl (.operand rfl h))
  | product => exact .operand rfl (.operand rfl (.operand rfl (.operand rfl h)))
  | unary => exact .operand rfl (.operand rfl (.operand rfl (.operand rfl (.operand rfl h))))
  | call | index => exact absurd h.rank_le (by decide)

/-- Two operands with an operator between them. -/
theorem IsPostfixed.binary {d : List Token} {e' : Expr Unit} {dangling' : Bool} {token : Token}
    {op : BinaryOp} (h : IsPostfixed c e dangling) (hop : BinaryOp.ofKind? token.kind = some op)
    (h' : IsPostfixed d e' dangling') :
    IsExpr .lowest (c ++ token :: d) (.binary e op e') dangling' := by
  have hprecedence : op.precedence.rank ≤ Precedence.unary.rank := by cases op <;> decide
  have hlayer : ∃ layer : Precedence, layer.operands? = some op.precedence ∧
      layer.rank ≤ Precedence.unary.rank := by
    cases op with
    | equal | notEqual => exact ⟨.lowest, rfl, by decide⟩
    | less | greater => exact ⟨.equality, rfl, by decide⟩
    | add | subtract => exact ⟨.order, rfl, by decide⟩
    | multiply | divide => exact ⟨.sum, rfl, by decide⟩
  obtain ⟨layer, hlayer, hrank⟩ := hlayer
  exact (IsExpr.chain (h.isExpr layer hrank) hop hlayer (h'.isExpr _ hprecedence)).lowest

end Grammar

open Grammar Token

namespace Token

theorem spelled_name {name : String} (h : isName name = true) {rest : List Char}
    (hrest : Separate rest) : Spelled (IsToken .ident name) (name.toList ++ rest) rest := by
  simp only [isName, Bool.and_eq_true, decide_eq_true_eq, Option.isNone_iff_eq_none] at h
  obtain ⟨⟨hne, hchars⟩, hkeyword⟩ := h
  exact spelled_word hne hchars (by rw [hkeyword]; rfl) hrest

/-- A number that is not negative is written in digits. -/
theorem text_eq_digits {n : Integer} (h : 0 ≤ n.toInt) :
    n.text.toList ≠ [] ∧ ∀ c ∈ n.text.toList, c.isDigit = true := by
  obtain ⟨k, hk⟩ := Int.eq_ofNat_of_zero_le h
  have htext : n.text = String.ofList (Nat.toDigits 10 k) := by
    unfold Integer.text
    rw [hk]
    rfl
  rw [htext, String.toList_ofList]
  exact ⟨Nat.toDigits_ne_nil, fun c hc => Nat.isDigit_of_mem_toDigits (by decide) (by decide) hc⟩

theorem spelled_int {n : Integer} (h : 0 ≤ n.toInt) {rest : List Char} (hrest : Separate rest) :
    Spelled (IsToken .int n.text) (n.text.toList ++ rest) rest := by
  obtain ⟨hne, hdigits⟩ := text_eq_digits h
  have hspells := Spells.int hne hdigits
  rw [String.ofList_toList] at hspells
  exact hspells.spelled hrest.apart_int

theorem spelled_bool (b : Bool) {rest : List Char} (hrest : Separate rest) :
    Spelled (IsToken (if b then .trueWord else .falseWord) (boolText b))
      ((boolText b).toList ++ rest) rest := by
  cases b <;> exact spelled_word (by decide) (by decide) rfl hrest

/-- Quoting a legible character is one of the ways to write it. -/
theorem Quotes.cons_escape {content cs : List Char} {c : Char} (hc : Text.isLegible c = true)
    (h : Quotes content cs) : Quotes (c :: content) (Text.escape c ++ cs) := by
  simp only [Text.isLegible, Bool.or_eq_true, decide_eq_true_eq, List.contains_iff_mem,
    List.mem_cons, List.not_mem_nil, or_false] at hc
  rcases hc with hself | rfl | rfl | rfl | rfl
  · rw [hself]
    -- A quote and a backslash have escapes, so neither stands for itself.
    refine .plain ?_ ?_ h
    · rintro rfl
      exact absurd hself (by decide)
    · rintro rfl
      exact absurd hself (by decide)
  all_goals exact .escaped rfl h

theorem spelled_text {s : String} (h : ∀ c ∈ s.toList, Text.isLegible c = true)
    (rest : List Char) : Spelled (IsToken .string s) ((Text.quote s).toList ++ rest) rest := by
  have hquotes : ∀ cs : List Char, (∀ c ∈ cs, Text.isLegible c = true) →
      Quotes cs (cs.flatMap Text.escape ++ ['"']) := by
    intro cs hcs
    induction cs with
    | nil => exact .nil
    | cons c cs ih =>
        rw [List.flatMap_cons, List.append_assoc]
        exact (ih fun d hd => hcs d (List.mem_cons_of_mem c hd)).cons_escape
          (hcs c List.mem_cons_self)
  have hspells := Spells.text (hquotes s.toList h)
  rw [String.ofList_toList, ← Text.toList_quote] at hspells
  exact hspells.spelled fun _ _ => rfl

end Token

/-- The tokens of an expression as its canonical text has them. -/
structure Expr.Canonical (e : Expr Unit) (tokens : List Token) : Prop where
  postfixed : ∃ dangling, IsPostfixed tokens e dangling
  /-- Only with a bracket does an expression begin like the rest of another one. -/
  opens : ∀ token ∈ tokens.head?,
    Continuation.ofKind? token.kind ≠ none → e.opensBracket = true
  grouped : e.isGrouped = true → ∃ opening inner dangling closing,
    tokens = opening :: (inner ++ [closing]) ∧ opening.kind = .leftParen ∧
      IsExpr .lowest inner e dangling ∧ closing.kind = .rightParen

/-- The canonical text of an expression is read as the expression, wherever it stands. -/
def Expr.IsSpelled (e : Expr Unit) : Prop :=
  ∀ rest, Separate rest → Spelled e.Canonical (e.render.toList ++ rest) rest

namespace Expr.Canonical

variable {e : Expr Unit} {tokens : List Token}

theorem isExpr (h : e.Canonical tokens) : ∃ dangling, IsExpr .lowest tokens e dangling := by
  obtain ⟨dangling, he⟩ := h.postfixed
  exact ⟨dangling, he.isExpr .lowest (by decide)⟩

/-- An operand that begins with a word, a number or a text. -/
theorem of_primary {token : Token} {more : List Token} {dangling : Bool}
    (h : IsPrimary (token :: more) e dangling)
    (hkind : Continuation.ofKind? token.kind = none) (hgrouped : e.isGrouped = false) :
    e.Canonical (token :: more) where
  postfixed := ⟨dangling, .primary h⟩
  opens first hfirst hne := by
    cases hfirst
    exact absurd hkind hne
  grouped htrue := by
    rw [hgrouped] at htrue
    cases htrue

end Expr.Canonical

/-- An expression in brackets of its own. -/
theorem Token.Spelled.group {e : Expr Unit} {cs rest : List Char}
    (h : Spelled (fun tokens => ∃ dangling, IsExpr .lowest tokens e dangling) cs (')' :: rest))
    (hopens : e.opensBracket = true) : Spelled e.Canonical ('(' :: cs) rest := by
  have hopening := spelled_sign (c := '(') rfl (fun _ => rfl) cs
  have hclosing := spelled_sign (c := ')') rfl (fun _ => rfl) rest
  have hinner : Spelled (fun tokens => ∃ inner dangling closing, tokens = inner ++ [closing] ∧
      IsExpr .lowest inner e dangling ∧ closing.kind = .rightParen) cs rest := by
    refine h.append hclosing fun inner more he hmore => ?_
    obtain ⟨dangling, he⟩ := he
    obtain ⟨closing, rfl, hkind, _⟩ := hmore
    exact ⟨inner, dangling, closing, rfl, he, hkind⟩
  refine hopening.cons hinner fun opening more hopening _ hmore => ?_
  obtain ⟨inner, dangling, closing, rfl, he, hclosing⟩ := hmore
  exact {
    postfixed := ⟨false, .primary (.group hopening he hclosing)⟩
    opens := fun _ _ _ => hopens
    grouped := fun _ => ⟨opening, inner, dangling, closing, rfl, hopening, he, hclosing⟩ }

section Lists

variable {α : Type} (element : List Token → α → Prop) (text : α → String)

/-- Elements with commas between them, each of which is spelled wherever it stands. -/
theorem Token.spelled_separated (a : α) (as : List α)
    (h : ∀ b ∈ a :: as, ∀ rest, Separate rest →
      Spelled (fun tokens => element tokens b) ((text b).toList ++ rest) rest)
    {rest : List Char} (hrest : Separate rest) :
    Spelled (fun tokens => Separated element tokens (a :: as))
      ((commaSeparated ((a :: as).map text)).toList ++ rest) rest := by
  induction as generalizing a with
  | nil =>
      have hlast := h a List.mem_cons_self rest hrest
      simp only [commaSeparated, List.map_cons, List.map_nil, String.intercalate_singleton]
      exact hlast.mono fun tokens ha => .last ha
  | cons b bs ih =>
      have hmore := ih b fun d hd => h d (List.mem_cons_of_mem a hd)
      have hcomma := spelled_sign (c := ',') rfl (fun _ => rfl)
        (' ' :: ((commaSeparated ((b :: bs).map text)).toList ++ rest))
      have hbehind : Spelled (fun tokens => ∃ comma d, tokens = comma :: d ∧
          comma.kind = .comma ∧ Separated element d (b :: bs)) _ rest :=
        hcomma.cons hmore.blank fun comma d hkind _ hd => ⟨comma, d, rfl, hkind, hd⟩
      have hfirst := h a List.mem_cons_self _ (.cons (c := ',') (by decide)
        (' ' :: ((commaSeparated ((b :: bs).map text)).toList ++ rest)))
      have htext : (commaSeparated ((a :: b :: bs).map text)).toList ++ rest =
          (text a).toList ++
            ',' :: ' ' :: ((commaSeparated ((b :: bs).map text)).toList ++ rest) := by
        simp [commaSeparated, String.intercalate_cons_cons]
      rw [htext]
      refine hfirst.append hbehind fun tokens more ha hmore => ?_
      obtain ⟨comma, d, rfl, hkind, hd⟩ := hmore
      exact .more ha hkind hd

/-- A list behind its opening bracket, up to the closing one. -/
theorem Token.spelled_list {c : Char} {kind : Kind} (hclose : Kind.ofChar? c = some kind)
    (hjoins : ∀ d, kind.joins d = false) (as : List α)
    (h : ∀ a ∈ as, ∀ rest, Separate rest →
      Spelled (fun tokens => element tokens a) ((text a).toList ++ rest) rest)
    (rest : List Char) :
    Spelled (fun tokens => ListBehind kind element tokens as)
      ((commaSeparated (as.map text)).toList ++ c :: rest) rest := by
  have hclosing := spelled_sign hclose hjoins rest
  cases as with
  | nil =>
      refine hclosing.mono fun tokens htokens => ?_
      obtain ⟨token, rfl, hkind, _⟩ := htokens
      exact .empty hkind
  | cons a as =>
      obtain ⟨_, hword, hdigit, _⟩ := Kind.ofChar?_eq_some hclose
      have has := spelled_separated element text a as h (.cons ⟨hword, hdigit⟩ rest)
      refine has.append hclosing fun tokens more htokens hmore => ?_
      obtain ⟨token, rfl, hkind, _⟩ := hmore
      exact .filled htokens hkind

end Lists

theorem Token.spelled_params {params : List String}
    (h : ∀ name ∈ params, Token.isName name = true) (rest : List Char) :
    Spelled (fun tokens => ListBehind .rightParen IsParameter tokens params)
      ((commaSeparated params).toList ++ ')' :: rest) rest := by
  have hname : ∀ name ∈ params, ∀ rest, Separate rest →
      Spelled (fun tokens => IsParameter tokens name) (name.toList ++ rest) rest := by
    intro name hname rest hrest
    refine (spelled_name (h name hname) hrest).mono fun tokens htokens => ?_
    obtain ⟨token, rfl, hkind, hlexeme⟩ := htokens
    exact ⟨token, hkind, rfl, hlexeme.symm⟩
  have hparams : Spelled (fun tokens => ListBehind .rightParen IsParameter tokens params)
      ((commaSeparated (params.map id)).toList ++ ')' :: rest) rest :=
    spelled_list IsParameter id rfl (fun _ => rfl) params hname rest
  rwa [List.map_id] at hparams

theorem Token.spelled_arguments {c : Char} {kind : Kind}
    (hclose : Kind.ofChar? c = some kind) (hjoins : ∀ d, kind.joins d = false)
    {es : List (Expr Unit)} (h : ∀ e ∈ es, e.IsSpelled) (rest : List Char) :
    Spelled (fun tokens => IsArguments kind tokens es)
      ((commaSeparated (es.map Expr.render)).toList ++ c :: rest) rest := by
  have hlist := spelled_list (fun tokens e => ∃ dangling, IsExpr .lowest tokens e dangling)
    Expr.render hclose hjoins es
    (fun e he rest hrest => (h e he rest hrest).mono fun _ htokens => htokens.isExpr) rest
  exact hlist.mono fun _ htokens => .of_listBehind htokens

/-- The tokens of an item as its canonical text has them. -/
structure Item.Canonical (item : Item Unit) (tokens : List Token) : Prop where
  phrase : ∃ ending, IsItem tokens item ending ∧
    ∀ dangling, ending = .expression dangling → ∃ e, item = .expr e
  opens : ∀ token ∈ tokens.head?, Continuation.ofKind? token.kind ≠ none →
    ∃ e, item = .expr e ∧ e.opensBracket = true

/-- The canonical text of an item is read as the item, wherever it stands. -/
def Item.IsSpelled (item : Item Unit) : Prop :=
  ∀ rest, Separate rest → Spelled item.Canonical (item.render.toList ++ rest) rest

/-- The tokens of items as their canonical text has them. -/
structure Item.CanonicalAll (items : List (Item Unit)) (tokens : List Token) : Prop where
  phrase : IsItems tokens items
  opens : ∀ token ∈ tokens.head?, Continuation.ofKind? token.kind ≠ none →
    ∃ e more, items = .expr e :: more ∧ e.opensBracket = true

theorem Item.Canonical.cons {item : Item Unit} {items : List (Item Unit)}
    {tokens more : List Token} (h : item.Canonical tokens) (hmore : Item.CanonicalAll items more)
    (hruns : item.runsOn items = false) : Item.CanonicalAll (item :: items) (tokens ++ more) := by
  obtain ⟨ending, hitem, hending⟩ := h.phrase
  constructor
  · refine .cons hitem hmore.phrase fun dangling hexpr token htoken => ?_
    -- What stands behind an expression must not begin like a call or an index.
    obtain ⟨e, rfl⟩ := hending dangling hexpr
    by_contra hkind
    obtain ⟨e', items, rfl, hopens⟩ := hmore.opens token htoken hkind
    rw [runsOn, hopens] at hruns
    cases hruns
  · intro token htoken hkind
    obtain ⟨first, others, rfl, _⟩ := hitem.starts
    obtain ⟨e, rfl, hopens⟩ := h.opens token htoken hkind
    exact ⟨e, items, rfl, hopens⟩

theorem Item.CanonicalAll.nil : Item.CanonicalAll [] [] where
  phrase := .nil
  opens _ hmem := by cases hmem

theorem Item.allLegible_cons {item : Item Unit} {items : List (Item Unit)}
    (h : Item.allLegible (item :: items) = true) :
    item.isLegible = true ∧ item.runsOn items = false ∧ Item.allLegible items = true := by
  simp only [Item.allLegible, Bool.and_eq_true, Bool.not_eq_true'] at h
  exact ⟨h.1.1, h.1.2, h.2⟩

/-- Items with single blanks between them. -/
theorem Token.spelled_items {items : List (Item Unit)} (h : ∀ item ∈ items, item.IsSpelled)
    (hlegible : Item.allLegible items = true) {rest : List Char} (hrest : Separate rest) :
    Spelled (Item.CanonicalAll items)
      ((" ".intercalate (items.map Item.render)).toList ++ rest) rest := by
  induction items with
  | nil => exact fun line => ⟨[], line, rfl, .nil⟩
  | cons item items ih =>
      obtain ⟨_, hruns, hothers⟩ := Item.allLegible_cons hlegible
      have hmore := ih (fun other hother => h other (List.mem_cons_of_mem item hother)) hothers
      have hitem := h item List.mem_cons_self
      cases items with
      | nil =>
          simp only [List.map_cons, List.map_nil, String.intercalate_singleton]
          refine (hitem rest hrest).mono fun tokens htokens => ?_
          simpa using htokens.cons .nil hruns
      | cons next items =>
          have htext : (" ".intercalate ((item :: next :: items).map Item.render)).toList ++ rest =
              item.render.toList ++
                ' ' :: ((" ".intercalate ((next :: items).map Item.render)).toList ++ rest) := by
            simp [String.intercalate_cons_cons]
          -- The blank keeps two words apart, but not an expression from a bracket behind it.
          rw [htext]
          exact (hitem _ (.cons (by decide) _)).append hmore.blank
            fun tokens more htokens hmore => htokens.cons hmore hruns

/-- A block of items shows them between braces. -/
theorem blockText_append {items : List String} (h : items ≠ []) (rest : List Char) :
    (blockText items).toList ++ rest =
      '{' :: ' ' :: ((" ".intercalate items).toList ++ ' ' :: '}' :: rest) := by
  have hjoin : ∀ item others, String.join ((item :: others).map (· ++ " ")) =
      " ".intercalate (item :: others) ++ " " := by
    intro item others
    induction others generalizing item with
    | nil => simp
    | cons other others ih =>
        rw [List.map_cons, String.join_cons, ih, String.intercalate_cons_cons]
        simp only [String.append_assoc]
  obtain ⟨item, others, rfl⟩ := List.exists_cons_of_ne_nil h
  rw [blockText, List.isEmpty_cons, hjoin]
  simp

theorem Token.spelled_block {items : List (Item Unit)} (h : ∀ item ∈ items, item.IsSpelled)
    (hlegible : Item.allLegible items = true) (rest : List Char) :
    Spelled (fun tokens => IsBlock tokens items)
      ((blockText (items.map Item.render)).toList ++ rest) rest := by
  have hclosing := spelled_sign (c := '}') rfl (fun _ => rfl) rest
  by_cases hnil : items = []
  · subst hnil
    have hopening := spelled_sign (c := '{') rfl (fun _ => rfl) ('}' :: rest)
    have htext : (blockText (List.map Item.render ([] : Program Unit))).toList ++ rest =
        '{' :: '}' :: rest := by
      simp [blockText]
    rw [htext]
    refine hopening.append hclosing fun tokens more htokens hmore => ?_
    obtain ⟨opening, rfl, hopening, _⟩ := htokens
    obtain ⟨closing, rfl, hclosing, _⟩ := hmore
    exact .braces hopening .nil hclosing
  · rw [blockText_append (by simpa using hnil)]
    have hitems := spelled_items h hlegible (.cons (c := ' ') (by decide) ('}' :: rest))
    have hopening := spelled_sign (c := '{') rfl (fun _ => rfl)
      (' ' :: ((" ".intercalate (items.map Item.render)).toList ++ ' ' :: '}' :: rest))
    have hbehind : Spelled (fun tokens => ∃ d closing, tokens = d ++ [closing] ∧
        IsItems d items ∧ closing.kind = .rightBrace) _ rest :=
      hitems.blank.append hclosing.blank fun d more hd hmore => by
        obtain ⟨closing, rfl, hclosing, _⟩ := hmore
        exact ⟨d, closing, rfl, hd.phrase, hclosing⟩
    refine hopening.cons hbehind fun opening more hopening _ hmore => ?_
    obtain ⟨d, closing, rfl, hd, hclosing⟩ := hmore
    exact .braces hopening hd hclosing

end Scriptlet
