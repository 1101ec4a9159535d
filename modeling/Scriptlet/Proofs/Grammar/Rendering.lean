import Scriptlet.Proofs.Grammar.Canonical

/-!
# The canonical text of a legible program is a phrase of the grammar

For every form of expression and of item: if the canonical texts of the parts are read as
the parts, the canonical text of the whole is read as the whole. Main results:
`Expr.isSpelled` and `Item.isSpelled`.
-/

namespace Scriptlet

open Grammar Token

theorem Token.spelled_unaryOp (op : UnaryOp) {rest : List Char}
    (hrest : ∀ c ∈ rest.head?, c ≠ '=') :
    Spelled (fun tokens => ∃ token, tokens = [token] ∧ UnaryOp.ofKind? token.kind = some op)
      (op.symbol.toList ++ rest) rest := by
  cases op with
  | not =>
      -- An equals sign behind it would make another operator of it.
      have hbang : Spelled (IsToken .bang "!") ('!' :: rest) rest :=
        (Spells.sign (c := '!') rfl).spelled fun c hc => by simpa [Kind.joins] using hrest c hc
      refine hbang.mono fun tokens htokens => ?_
      obtain ⟨token, rfl, hkind, _⟩ := htokens
      exact ⟨token, rfl, by rw [hkind]; rfl⟩
  | negate =>
      refine (spelled_sign (c := '-') rfl (fun _ => rfl) rest).mono fun tokens htokens => ?_
      obtain ⟨token, rfl, hkind, _⟩ := htokens
      exact ⟨token, rfl, by rw [hkind]; rfl⟩

/-- An operator between blanks. -/
theorem Token.spelled_binaryOp (op : BinaryOp) (rest : List Char) :
    Spelled (fun tokens => ∃ token, tokens = [token] ∧ BinaryOp.ofKind? token.kind = some op)
      (op.symbol.toList ++ ' ' :: rest) (' ' :: rest) := by
  have hspells : ∃ kind lexeme, BinaryOp.ofKind? kind = some op ∧
      Spells kind lexeme op.symbol.toList := by
    cases op with
    | divide => exact ⟨.slash, _, rfl, .sign (c := '/') rfl⟩
    | multiply => exact ⟨.star, _, rfl, .sign (c := '*') rfl⟩
    | add => exact ⟨.plus, _, rfl, .sign (c := '+') rfl⟩
    | subtract => exact ⟨.minus, _, rfl, .sign (c := '-') rfl⟩
    | greater => exact ⟨.greater, _, rfl, .sign (c := '>') rfl⟩
    | less => exact ⟨.less, _, rfl, .sign (c := '<') rfl⟩
    | notEqual => exact ⟨.notEqual, _, rfl, .notEqual⟩
    | equal => exact ⟨.equal, _, rfl, .equal⟩
  obtain ⟨kind, lexeme, hop, hspells⟩ := hspells
  -- No token goes on over a blank.
  have hapart : kind.Apart (' ' :: rest) := by
    intro c hc
    cases hc
    exact Kind.joins_of_isBlank kind rfl
  refine (hspells.spelled hapart).mono fun tokens htokens => ?_
  obtain ⟨token, rfl, hkind, _⟩ := htokens
  exact ⟨token, rfl, hkind ▸ hop⟩

theorem Expr.render_call (callee : Expr Unit) (args : List (Expr Unit)) :
    (Expr.call callee args).render.toList =
      callee.render.toList ++ '(' :: ((commaSeparated (args.map Expr.render)).toList ++ [')']) := by
  simp [Expr.render]

/-- No canonical text begins with an equals sign. -/
theorem Expr.head_render : ∀ e : Expr Unit, e.isLegible = true →
    ∀ c ∈ e.render.toList.head?, c ≠ '='
  | .var name, h => by
      intro c hc
      simp only [Expr.isLegible, isName, Bool.and_eq_true, List.all_eq_true] at h
      rw [Expr.render] at hc
      have hword := h.1.2 c (List.mem_of_mem_head? hc)
      rintro rfl
      cases hword
  | .lit (.int n), h => by
      intro c hc
      simp only [Expr.isLegible, Literal.isLegible, decide_eq_true_eq] at h
      rw [Expr.render, Literal.render] at hc
      have hdigit := (text_eq_digits h).2 c (List.mem_of_mem_head? hc)
      rintro rfl
      cases hdigit
  | .lit (.text s), _ => by
      intro c hc
      rw [Expr.render, Literal.render, Text.toList_quote] at hc
      cases hc
      decide
  | .lit (.bool b), _ => by
      intro c hc
      rw [Expr.render, Literal.render] at hc
      cases b <;> cases hc <;> decide
  | .call callee args, h => by
      intro c hc
      simp only [Expr.isLegible, Bool.and_eq_true] at h
      rw [render_call, List.head?_append, Option.mem_def, Option.or_eq_some_iff] at hc
      rcases hc with hc | ⟨_, hc⟩
      · exact head_render callee h.1 c hc
      · cases hc
        decide
  | .unary _ _, _ | .binary _ _ _, _ | .index _ _, _ => by
      intro c hc
      simp [Expr.render] at hc
      simp [← hc]
  | .cond _ _ _, _ | .fn _ _ _, _ | .array _, _ => by
      intro c hc
      simp [Expr.render] at hc
      simp [← hc]

/-- A choice up to its first block, with whatever there is behind it. -/
structure Grammar.IsChoice (test : Expr Unit) (yes : Program Unit) (Q : List Token → Prop)
    (tokens : List Token) : Prop where
  phrase : ∃ start opening c dangling closing d more,
    tokens = start :: opening :: (c ++ closing :: (d ++ more)) ∧ start.kind = .ifWord ∧
      opening.kind = .leftParen ∧ IsExpr .lowest c test dangling ∧ closing.kind = .rightParen ∧
      IsBlock d yes ∧ Q more

theorem Token.spelled_choice {test : Expr Unit} {yes : Program Unit} {Q : List Token → Prop}
    {cs rest : List Char} (htest : test.IsSpelled) (hgrouped : test.isGrouped = true)
    (hyes : Spelled (fun tokens => IsBlock tokens yes)
      ((blockText (yes.map Item.render)).toList ++ cs) cs)
    (hQ : Spelled Q cs rest) :
    Spelled (IsChoice test yes Q)
      ("if".toList ++ ' ' :: (test.render.toList ++
        ' ' :: ((blockText (yes.map Item.render)).toList ++ cs))) rest := by
  have hif : Spelled (IsToken .ifWord "if") ("if".toList ++ ' ' :: (test.render.toList ++
      ' ' :: ((blockText (yes.map Item.render)).toList ++ cs))) _ :=
    spelled_word (by decide) (by decide) rfl (.cons (by decide) _)
  have hblock : Spelled (fun tokens => ∃ d more, tokens = d ++ more ∧ IsBlock d yes ∧ Q more)
      _ rest :=
    hyes.append hQ fun d more hd hmore => ⟨d, more, rfl, hd, hmore⟩
  have htest := htest (' ' :: ((blockText (yes.map Item.render)).toList ++ cs))
    (.cons (by decide) _)
  have hbehind : Spelled (fun tokens => ∃ c d more, tokens = c ++ (d ++ more) ∧
      test.Canonical c ∧ IsBlock d yes ∧ Q more) _ rest :=
    htest.append hblock.blank fun c tokens hc hblock => by
      obtain ⟨d, more, rfl, hd, hmore⟩ := hblock
      exact ⟨c, d, more, rfl, hc, hd, hmore⟩
  refine hif.cons hbehind.blank fun start tokens hstart _ hbehind => ?_
  obtain ⟨c, d, more, rfl, hc, hd, hmore⟩ := hbehind
  -- The parentheses that a choice asks for are those of its test.
  obtain ⟨opening, inner, dangling, closing, rfl, hopening, he, hclosing⟩ := hc.grouped hgrouped
  exact ⟨start, opening, inner, dangling, closing, d, more, by simp, hstart, hopening, he,
    hclosing, hd, hmore⟩

theorem Expr.Canonical.call {callee : Expr Unit} {args : List (Expr Unit)} {c d : List Token}
    {opening : Token} (h : callee.Canonical c) (hopening : opening.kind = .leftParen)
    (hargs : IsArguments .rightParen d args) :
    (Expr.call callee args).Canonical (c ++ opening :: d) := by
  obtain ⟨dangling, hcallee⟩ := h.postfixed
  refine ⟨⟨false, .call hcallee hopening hargs⟩, ?_, fun hgrouped => by cases hgrouped⟩
  -- A call begins as its callee does, in the tokens and in the text.
  intro token htoken hkind
  obtain ⟨first, others, rfl, _⟩ := hcallee.starts
  have hopens := h.opens token htoken hkind
  simp only [Expr.opensBracket, Bool.or_eq_true, decide_eq_true_eq] at hopens ⊢
  rw [Expr.render_call, List.head?_append]
  exact hopens.imp (by rintro heq; rw [heq]; rfl) (by rintro heq; rw [heq]; rfl)

namespace Expr.IsSpelled

theorem var {name : String} (h : isName name = true) : (Expr.var name).IsSpelled := by
  intro rest hrest
  refine (spelled_name h hrest).mono fun tokens htokens => ?_
  obtain ⟨token, rfl, hkind, rfl⟩ := htokens
  exact .of_primary (.name hkind) (by rw [hkind]; rfl) rfl

theorem int {n : Integer} (h : 0 ≤ n.toInt) : (Expr.lit (.int n)).IsSpelled := by
  intro rest hrest
  refine (spelled_int h hrest).mono fun tokens htokens => ?_
  obtain ⟨token, rfl, hkind, hlexeme⟩ := htokens
  have hread : Integer.read? token.lexeme.toList = some n := hlexeme ▸ n.read?_text
  exact .of_primary (.int hkind hread) (by rw [hkind]; rfl) rfl

theorem text {s : String} (h : ∀ c ∈ s.toList, Text.isLegible c = true) :
    (Expr.lit (.text s)).IsSpelled := by
  intro rest _
  refine (spelled_text h rest).mono fun tokens htokens => ?_
  obtain ⟨token, rfl, hkind, rfl⟩ := htokens
  exact .of_primary (.text hkind) (by rw [hkind]; rfl) rfl

theorem bool (b : Bool) : (Expr.lit (.bool b)).IsSpelled := by
  intro rest hrest
  refine (spelled_bool b hrest).mono fun tokens htokens => ?_
  obtain ⟨token, rfl, hkind, _⟩ := htokens
  cases b with
  | true => exact .of_primary (.yes hkind) (by rw [hkind]; rfl) rfl
  | false => exact .of_primary (.no hkind) (by rw [hkind]; rfl) rfl

theorem unary (op : UnaryOp) {operand : Expr Unit} (h : operand.IsSpelled)
    (hhead : ∀ c ∈ operand.render.toList.head?, c ≠ '=') : (Expr.unary op operand).IsSpelled := by
  intro rest _
  have htext : (Expr.unary op operand).render.toList ++ rest =
      '(' :: (op.symbol.toList ++ (operand.render.toList ++ ')' :: rest)) := by
    simp [Expr.render]
  have hhead : ∀ c ∈ (operand.render.toList ++ ')' :: rest).head?, c ≠ '=' := by
    intro c hc
    rw [List.head?_append, Option.mem_def, Option.or_eq_some_iff] at hc
    rcases hc with hc | ⟨_, hc⟩
    · exact hhead c hc
    · cases hc
      decide
  have hoperand := h (')' :: rest) (.cons (by decide) rest)
  rw [htext]
  refine .group ((spelled_unaryOp op hhead).append hoperand fun tokens more hop hmore => ?_)
    (by simp [Expr.opensBracket, Expr.render])
  obtain ⟨token, rfl, hop⟩ := hop
  obtain ⟨dangling, he⟩ := hmore.postfixed
  exact ⟨dangling, (IsExpr.unary hop (.postfixed he)).lowest⟩

theorem binary (op : BinaryOp) {left right : Expr Unit} (hleft : left.IsSpelled)
    (hright : right.IsSpelled) : (Expr.binary left op right).IsSpelled := by
  intro rest _
  have htext : (Expr.binary left op right).render.toList ++ rest =
      '(' :: (left.render.toList ++
        ' ' :: (op.symbol.toList ++ ' ' :: (right.render.toList ++ ')' :: rest))) := by
    simp [Expr.render]
  have hleft := hleft (' ' :: (op.symbol.toList ++ ' ' :: (right.render.toList ++ ')' :: rest)))
    (.cons (by decide) _)
  have hright := hright (')' :: rest) (.cons (by decide) rest)
  have hbehind : Spelled (fun tokens => ∃ token more, tokens = token :: more ∧
      BinaryOp.ofKind? token.kind = some op ∧ right.Canonical more) _ (')' :: rest) :=
    (spelled_binaryOp op _).append hright.blank fun tokens more hop hmore => by
      obtain ⟨token, rfl, hop⟩ := hop
      exact ⟨token, more, rfl, hop, hmore⟩
  rw [htext]
  refine .group (hleft.append hbehind.blank fun tokens more hleft hmore => ?_)
    (by simp [Expr.opensBracket, Expr.render])
  obtain ⟨_, hleft⟩ := hleft.postfixed
  obtain ⟨token, more, rfl, hop, hright⟩ := hmore
  obtain ⟨dangling, hright⟩ := hright.postfixed
  exact ⟨dangling, hleft.binary hop hright⟩

theorem cond {test : Expr Unit} {yes : Program Unit} (htest : test.IsSpelled)
    (hgrouped : test.isGrouped = true) (hyes : ∀ item ∈ yes, item.IsSpelled)
    (hlegible : Item.allLegible yes = true) : (Expr.cond test yes none).IsSpelled := by
  intro rest _
  have htext : (Expr.cond test yes none).render.toList ++ rest =
      "if".toList ++ ' ' :: (test.render.toList ++
        ' ' :: ((blockText (yes.map Item.render)).toList ++ rest)) := by
    simp [Expr.render, Item.renderElse]
  have hnothing : Spelled (· = []) rest rest := fun line => ⟨[], line, rfl, rfl⟩
  have hchoice := spelled_choice htest hgrouped (spelled_block hyes hlegible rest) hnothing
  rw [htext]
  refine hchoice.mono fun tokens htokens => ?_
  obtain ⟨start, opening, c, dangling, closing, d, _, rfl, hstart, hopening, htest, hclosing,
    hd, rfl⟩ := htokens.phrase
  rw [List.append_nil]
  exact .of_primary (.choice hstart hopening htest hclosing hd) (by rw [hstart]; rfl) rfl

theorem condElse {test : Expr Unit} {yes no : Program Unit} (htest : test.IsSpelled)
    (hgrouped : test.isGrouped = true) (hyes : ∀ item ∈ yes, item.IsSpelled)
    (hlegible : Item.allLegible yes = true) (hno : ∀ item ∈ no, item.IsSpelled)
    (hlegible' : Item.allLegible no = true) : (Expr.cond test yes (some no)).IsSpelled := by
  intro rest _
  have htext : (Expr.cond test yes (some no)).render.toList ++ rest =
      "if".toList ++ ' ' :: (test.render.toList ++
        ' ' :: ((blockText (yes.map Item.render)).toList ++
          ' ' :: ("else".toList ++ ' ' :: ((blockText (no.map Item.render)).toList ++ rest)))) := by
    simp [Expr.render, Item.renderElse]
  have hword : Spelled (IsToken .elseWord "else")
      ("else".toList ++ ' ' :: ((blockText (no.map Item.render)).toList ++ rest)) _ :=
    spelled_word (by decide) (by decide) rfl (.cons (by decide) _)
  have helse : Spelled (fun tokens => ∃ middle d, tokens = middle :: d ∧
      middle.kind = .elseWord ∧ IsBlock d no) _ rest :=
    hword.cons (spelled_block hno hlegible' rest).blank
      fun middle d hmiddle _ hd => ⟨middle, d, rfl, hmiddle, hd⟩
  have hchoice := spelled_choice htest hgrouped (spelled_block hyes hlegible _) helse.blank
  rw [htext]
  refine hchoice.mono fun tokens htokens => ?_
  obtain ⟨start, opening, c, dangling, closing, d, _, rfl, hstart, hopening, htest, hclosing,
    hd, middle, d', rfl, hmiddle, hd'⟩ := htokens.phrase
  exact .of_primary (.choiceElse hstart hopening htest hclosing hd hmiddle hd')
    (by rw [hstart]; rfl) rfl

theorem fn {params : List String} {body : Program Unit}
    (hparams : ∀ name ∈ params, isName name = true) (hbody : ∀ item ∈ body, item.IsSpelled)
    (hlegible : Item.allLegible body = true) : (Expr.fn () params body).IsSpelled := by
  intro rest _
  have htext : (Expr.fn () params body).render.toList ++ rest =
      "fn".toList ++ '(' :: ((commaSeparated params).toList ++
        ')' :: ' ' :: ((blockText (body.map Item.render)).toList ++ rest)) := by
    simp [Expr.render]
  have hparams := spelled_params hparams
    (' ' :: ((blockText (body.map Item.render)).toList ++ rest))
  have hbody := spelled_block hbody hlegible rest
  have hopening := spelled_sign (c := '(') rfl (fun _ => rfl)
    ((commaSeparated params).toList ++
      ')' :: ' ' :: ((blockText (body.map Item.render)).toList ++ rest))
  have hfn : Spelled (IsToken .fnWord "fn")
      ("fn".toList ++ '(' :: ((commaSeparated params).toList ++
        ')' :: ' ' :: ((blockText (body.map Item.render)).toList ++ rest))) _ :=
    spelled_word (by decide) (by decide) rfl (.cons (by decide) _)
  have hlists : Spelled (fun tokens => ∃ c d, tokens = c ++ d ∧
      ListBehind .rightParen IsParameter c params ∧ IsBlock d body) _ rest :=
    hparams.append hbody.blank fun c d hc hd => ⟨c, d, rfl, hc, hd⟩
  have hbehind : Spelled (fun tokens => ∃ opening c d, tokens = opening :: (c ++ d) ∧
      opening.kind = .leftParen ∧ ListBehind .rightParen IsParameter c params ∧
      IsBlock d body) _ rest :=
    hopening.cons hlists fun opening more hopening _ hmore => by
      obtain ⟨c, d, rfl, hc, hd⟩ := hmore
      exact ⟨opening, c, d, rfl, hopening, hc, hd⟩
  rw [htext]
  refine hfn.cons hbehind fun start more hstart _ hmore => ?_
  obtain ⟨opening, c, d, rfl, hopening, hc, hd⟩ := hmore
  exact .of_primary (.function hstart hopening hc hd) (by rw [hstart]; rfl) rfl

theorem call {callee : Expr Unit} {args : List (Expr Unit)} (hcallee : callee.IsSpelled)
    (hargs : ∀ e ∈ args, e.IsSpelled) : (Expr.call callee args).IsSpelled := by
  intro rest _
  have htext : (Expr.call callee args).render.toList ++ rest = callee.render.toList ++
      '(' :: ((commaSeparated (args.map Expr.render)).toList ++ ')' :: rest) := by
    simp [Expr.render_call]
  have hcallee := hcallee ('(' :: ((commaSeparated (args.map Expr.render)).toList ++ ')' :: rest))
    (.cons (by decide) _)
  have hopening := spelled_sign (c := '(') rfl (fun _ => rfl)
    ((commaSeparated (args.map Expr.render)).toList ++ ')' :: rest)
  have hargs := spelled_arguments (c := ')') rfl (fun _ => rfl) hargs rest
  have hbehind : Spelled (fun tokens => ∃ opening d, tokens = opening :: d ∧
      opening.kind = .leftParen ∧ IsArguments .rightParen d args) _ rest :=
    hopening.cons hargs fun opening d hopening _ hd => ⟨opening, d, rfl, hopening, hd⟩
  rw [htext]
  refine hcallee.append hbehind fun tokens more htokens hmore => ?_
  obtain ⟨opening, d, rfl, hopening, hd⟩ := hmore
  exact htokens.call hopening hd

theorem array {es : List (Expr Unit)} (h : ∀ e ∈ es, e.IsSpelled) :
    (Expr.array es).IsSpelled := by
  intro rest _
  have htext : (Expr.array es).render.toList ++ rest =
      '[' :: ((commaSeparated (es.map Expr.render)).toList ++ ']' :: rest) := by
    simp [Expr.render]
  have hopening := spelled_sign (c := '[') rfl (fun _ => rfl)
    ((commaSeparated (es.map Expr.render)).toList ++ ']' :: rest)
  have helements := spelled_arguments (c := ']') rfl (fun _ => rfl) h rest
  rw [htext]
  refine hopening.cons helements fun opening d hopening _ hd => ?_
  exact {
    postfixed := ⟨false, .primary (.array hopening hd)⟩
    opens := fun _ _ _ => by simp [Expr.opensBracket, Expr.render]
    grouped := fun hgrouped => by cases hgrouped }

theorem index {base position : Expr Unit} (hbase : base.IsSpelled)
    (hposition : position.IsSpelled) : (Expr.index base position).IsSpelled := by
  intro rest _
  have htext : (Expr.index base position).render.toList ++ rest =
      '(' :: (base.render.toList ++
        '[' :: (position.render.toList ++ ']' :: ')' :: rest)) := by
    simp [Expr.render]
  have hbase := hbase ('[' :: (position.render.toList ++ ']' :: ')' :: rest))
    (.cons (by decide) _)
  have hopening := spelled_sign (c := '[') rfl (fun _ => rfl)
    (position.render.toList ++ ']' :: ')' :: rest)
  have hposition := hposition (']' :: ')' :: rest) (.cons (by decide) _)
  have hclosing := spelled_sign (c := ']') rfl (fun _ => rfl) (')' :: rest)
  have hinner : Spelled (fun tokens => ∃ d closing dangling, tokens = d ++ [closing] ∧
      IsExpr .lowest d position dangling ∧ closing.kind = .rightBracket) _ (')' :: rest) :=
    hposition.append hclosing fun d more hd hmore => by
      obtain ⟨dangling, hd⟩ := hd.isExpr
      obtain ⟨closing, rfl, hclosing, _⟩ := hmore
      exact ⟨d, closing, dangling, rfl, hd, hclosing⟩
  have hbehind : Spelled (fun tokens => ∃ opening d closing dangling,
      tokens = opening :: (d ++ [closing]) ∧ opening.kind = .leftBracket ∧
      IsExpr .lowest d position dangling ∧ closing.kind = .rightBracket) _ (')' :: rest) :=
    hopening.cons hinner fun opening more hopening _ hmore => by
      obtain ⟨d, closing, dangling, rfl, hd, hclosing⟩ := hmore
      exact ⟨opening, d, closing, dangling, rfl, hopening, hd, hclosing⟩
  rw [htext]
  -- The index is behind an operand already, so its own parentheses are a group around it.
  refine .group (hbase.append hbehind fun tokens more htokens hmore => ?_)
    (by simp [Expr.opensBracket, Expr.render])
  obtain ⟨_, htokens⟩ := htokens.postfixed
  obtain ⟨opening, d, closing, dangling, rfl, hopening, hd, hclosing⟩ := hmore
  exact ⟨false, (htokens.index hopening hd hclosing).isExpr .lowest (by decide)⟩

end Expr.IsSpelled

/-- A statement that begins with a keyword, with a semicolon behind it. -/
theorem Item.Canonical.of_statement {item : Item Unit} {first : Token} {others : List Token}
    {ending : Ending} {last : Token} (h : IsStatement (first :: others) item ending)
    (hlast : last.kind = .semicolon) (hkind : Continuation.ofKind? first.kind = none) :
    item.Canonical (first :: others ++ [last]) where
  phrase := ⟨.semicolon, .terminated h hlast, fun _ hending => by cases hending⟩
  opens token htoken hne := by
    cases htoken
    exact absurd hkind hne

namespace Item.IsSpelled

theorem expr {e : Expr Unit} (h : e.IsSpelled) : (Item.expr e).IsSpelled := by
  intro rest hrest
  refine (h rest hrest).mono fun tokens htokens => ?_
  obtain ⟨dangling, he⟩ := htokens.isExpr
  exact {
    phrase := ⟨_, .bare (.expr he), fun _ _ => ⟨e, rfl⟩⟩
    opens := fun token htoken hkind => ⟨e, rfl, htokens.opens token htoken hkind⟩ }

/-- An expression with a semicolon behind it. -/
theorem terminated {e : Expr Unit} (h : e.IsSpelled) (rest : List Char) :
    Spelled (fun tokens => ∃ c dangling last, tokens = c ++ [last] ∧
      IsExpr .lowest c e dangling ∧ last.kind = .semicolon)
      (e.render.toList ++ ';' :: rest) rest := by
  have hend := spelled_sign (c := ';') rfl (fun _ => rfl) rest
  refine (h (';' :: rest) (.cons (by decide) rest)).append hend fun c more hc hmore => ?_
  obtain ⟨dangling, hc⟩ := hc.isExpr
  obtain ⟨last, rfl, hlast, _⟩ := hmore
  exact ⟨c, dangling, last, rfl, hc, hlast⟩

theorem bind {name : String} {init : Expr Unit} (hname : isName name = true)
    (hinit : init.IsSpelled) : (Item.bind name init).IsSpelled := by
  intro rest _
  have htext : (Item.bind name init).render.toList ++ rest =
      "let".toList ++ ' ' :: (name.toList ++
        ' ' :: '=' :: ' ' :: (init.render.toList ++ ';' :: rest)) := by
    simp [Item.render]
  have hlet : Spelled (IsToken .letWord "let") ("let".toList ++ ' ' :: (name.toList ++
      ' ' :: '=' :: ' ' :: (init.render.toList ++ ';' :: rest))) _ :=
    spelled_word (by decide) (by decide) rfl (.cons (by decide) _)
  have hname : Spelled (IsToken .ident name) (name.toList ++
      ' ' :: '=' :: ' ' :: (init.render.toList ++ ';' :: rest)) _ :=
    spelled_name hname (.cons (by decide) _)
  have hassign : Spelled (IsToken .assign "=")
      ('=' :: ' ' :: (init.render.toList ++ ';' :: rest)) _ :=
    (Spells.sign (c := '=') rfl).spelled fun c hc => by cases hc; rfl
  have hvalue : Spelled (fun tokens => ∃ assign c dangling last,
      tokens = assign :: (c ++ [last]) ∧ assign.kind = .assign ∧
      IsExpr .lowest c init dangling ∧ last.kind = .semicolon) _ rest :=
    hassign.cons (terminated hinit rest).blank fun assign more hassign _ hmore => by
      obtain ⟨c, dangling, last, rfl, hc, hlast⟩ := hmore
      exact ⟨assign, c, dangling, last, rfl, hassign, hc, hlast⟩
  have hbehind : Spelled (fun tokens => ∃ target assign c dangling last,
      tokens = target :: assign :: (c ++ [last]) ∧ target.kind = .ident ∧
      target.lexeme = name ∧ assign.kind = .assign ∧ IsExpr .lowest c init dangling ∧
      last.kind = .semicolon) _ rest :=
    hname.cons hvalue.blank fun target more hkind hlexeme hmore => by
      obtain ⟨assign, c, dangling, last, rfl, hassign, hc, hlast⟩ := hmore
      exact ⟨target, assign, c, dangling, last, rfl, hkind, hlexeme, hassign, hc, hlast⟩
  rw [htext]
  refine hlet.cons hbehind.blank fun start more hstart _ hmore => ?_
  obtain ⟨target, assign, c, dangling, last, rfl, hkind, rfl, hassign, hc, hlast⟩ := hmore
  exact .of_statement (.bind hstart hkind hassign hc) hlast (by rw [hstart]; rfl)

theorem ret {e : Expr Unit} (h : e.IsSpelled) : (Item.ret e).IsSpelled := by
  intro rest _
  have htext : (Item.ret e).render.toList ++ rest =
      "return".toList ++ ' ' :: (e.render.toList ++ ';' :: rest) := by
    simp [Item.render]
  have hreturn : Spelled (IsToken .returnWord "return")
      ("return".toList ++ ' ' :: (e.render.toList ++ ';' :: rest)) _ :=
    spelled_word (by decide) (by decide) rfl (.cons (by decide) _)
  rw [htext]
  refine hreturn.cons (terminated h rest).blank fun start more hstart _ hmore => ?_
  obtain ⟨c, dangling, last, rfl, hc, hlast⟩ := hmore
  exact .of_statement (.ret hstart hc) hlast (by rw [hstart]; rfl)

theorem block {items : Program Unit} (h : ∀ item ∈ items, item.IsSpelled)
    (hlegible : Item.allLegible items = true) : (Item.block items).IsSpelled := by
  intro rest _
  have htext : (Item.block items).render = blockText (items.map Item.render) := by
    simp [Item.render]
  rw [htext]
  refine (spelled_block h hlegible rest).mono fun tokens htokens => ?_
  obtain ⟨first, others, rfl, hfirst⟩ := htokens.starts
  exact {
    phrase := ⟨_, .bare (.block htokens), fun _ hending => by cases hending⟩
    opens := fun token htoken hkind => by
      cases htoken
      rw [hfirst] at hkind
      cases hkind rfl }

end Item.IsSpelled

mutual

/-- The canonical text of a legible expression is read as the expression. -/
theorem Expr.isSpelled : ∀ e : Expr Unit, e.isLegible = true → e.IsSpelled
  | .var name, h => .var (by simpa [Expr.isLegible] using h)
  | .lit (.int n), h => .int (by simpa [Expr.isLegible, Literal.isLegible] using h)
  | .lit (.text s), h => .text (by simpa [Expr.isLegible, Literal.isLegible] using h)
  | .lit (.bool b), _ => .bool b
  | .unary op operand, h => by
      simp only [Expr.isLegible] at h
      exact .unary op (Expr.isSpelled operand h) (operand.head_render h)
  | .binary left op right, h => by
      simp only [Expr.isLegible, Bool.and_eq_true] at h
      exact .binary op (Expr.isSpelled left h.1) (Expr.isSpelled right h.2)
  | .cond test yes none, h => by
      simp only [Expr.isLegible, Bool.and_eq_true] at h
      exact .cond (Expr.isSpelled test h.1.1.2) h.1.1.1 (Item.isSpelled_of_mem yes h.1.2) h.1.2
  | .cond test yes (some no), h => by
      simp only [Expr.isLegible, Item.elseLegible, Bool.and_eq_true] at h
      exact .condElse (Expr.isSpelled test h.1.1.2) h.1.1.1 (Item.isSpelled_of_mem yes h.1.2)
        h.1.2 (Item.isSpelled_of_mem no h.2) h.2
  | .fn () params body, h => by
      simp only [Expr.isLegible, Bool.and_eq_true, List.all_eq_true] at h
      exact .fn h.1 (Item.isSpelled_of_mem body h.2) h.2
  | .call callee args, h => by
      simp only [Expr.isLegible, Bool.and_eq_true] at h
      exact .call (Expr.isSpelled callee h.1) (Expr.isSpelled_of_mem args h.2)
  | .array elements, h => by
      simp only [Expr.isLegible] at h
      exact .array (Expr.isSpelled_of_mem elements h)
  | .index base position, h => by
      simp only [Expr.isLegible, Bool.and_eq_true] at h
      exact .index (Expr.isSpelled base h.1) (Expr.isSpelled position h.2)

/-- The canonical text of a legible item is read as the item. -/
theorem Item.isSpelled : ∀ item : Item Unit, item.isLegible = true → item.IsSpelled
  | .expr e, h => by
      simp only [Item.isLegible] at h
      exact .expr (Expr.isSpelled e h)
  | .bind name init, h => by
      simp only [Item.isLegible, Bool.and_eq_true] at h
      exact .bind h.1 (Expr.isSpelled init h.2)
  | .ret e, h => by
      simp only [Item.isLegible] at h
      exact .ret (Expr.isSpelled e h)
  | .block items, h => by
      simp only [Item.isLegible] at h
      exact .block (Item.isSpelled_of_mem items h) h

theorem Expr.isSpelled_of_mem : ∀ es : List (Expr Unit), Expr.allLegible es = true →
    ∀ e ∈ es, e.IsSpelled
  | [], _, _, hmem => by cases hmem
  | e :: es, h, other, hmem => by
      simp only [Expr.allLegible, Bool.and_eq_true] at h
      have hfirst := Expr.isSpelled e h.1
      rcases List.mem_cons.mp hmem with rfl | hmem
      · exact hfirst
      · exact Expr.isSpelled_of_mem es h.2 other hmem

theorem Item.isSpelled_of_mem : ∀ items : List (Item Unit), Item.allLegible items = true →
    ∀ item ∈ items, item.IsSpelled
  | [], _, _, hmem => by cases hmem
  | item :: items, h, other, hmem => by
      obtain ⟨hitem, _, hitems⟩ := Item.allLegible_cons h
      have hfirst := Item.isSpelled item hitem
      rcases List.mem_cons.mp hmem with rfl | hmem
      · exact hfirst
      · exact Item.isSpelled_of_mem items hitems other hmem

end

end Scriptlet
