import Scriptlet.Proofs.Grammar.Layers
import Scriptlet.Proofs.Grammar.Progress

/-!
# What the grammar reads is in its layers

Whatever a parser of the grammar succeeds with, the tokens it took are a phrase of
the layered grammar, and it stopped only where nothing continues the phrase. The
loop over continuations carries the invariant that what it has so far is an
expression of some layer, which nothing tighter than the next layer continues.
-/

namespace Scriptlet

open Scriptlet.Parser

variable {α : Type} {tokens rest : List Token}

/-- The tightest operator that leaves an expression of a layer in one piece. -/
def Precedence.reach (layer : Precedence) : Precedence :=
  layer.operands?.getD .unary

theorem Precedence.operands?_eq_some {layer next : Precedence} (h : layer.operands? = some next) :
    layer.reach = next ∧ layer.rank < next.rank ∧ next.rank ≤ Precedence.unary.rank := by
  refine ⟨by simp [reach, h], ?_⟩
  revert h
  cases layer <;> simp only [operands?, Option.some.injEq, reduceCtorEq, false_implies]
  all_goals
    rintro rfl
    decide

theorem BinaryOp.exists_layer (op : BinaryOp) :
    ∃ layer : Precedence, layer.operands? = some op.precedence ∧
      op.precedence.rank = layer.rank + 1 := by
  cases op with
  | equal | notEqual => exact ⟨.lowest, rfl, rfl⟩
  | less | greater => exact ⟨.equality, rfl, rfl⟩
  | add | subtract => exact ⟨.order, rfl, rfl⟩
  | multiply | divide => exact ⟨.sum, rfl, rfl⟩

/-- Both parsers of a nesting read phrases and stop behind them. -/
structure Nested.Sound (inner : Nested) : Prop where
  expr {p : Precedence} {e : Expr Unit} {tokens rest : List Token} :
    p.rank ≤ Precedence.unary.rank → inner.expr p tokens = .ok e rest →
      ∃ c dangling, tokens = c ++ rest ∧ Grammar.IsExpr p c e dangling ∧
        Grammar.Stops p dangling rest
  block {items : Program Unit} {tokens rest : List Token} :
    inner.block tokens = .ok items rest → ∃ c, tokens = c ++ rest ∧ Grammar.IsBlock c items

namespace Grammar

theorem Stops.mono {p q : Precedence} {dangling : Bool} (h : Stops p dangling rest)
    (hpq : p.rank ≤ q.rank) : Stops q dangling rest :=
  fun token htoken => ⟨Nat.le_trans (h token htoken).1 hpq, (h token htoken).2⟩

/-- An expression of a layer is one of every looser layer. -/
theorem IsExpr.loosen {p q : Precedence} {c : List Token} {e : Expr Unit} {dangling : Bool}
    (h : IsExpr q c e dangling) (hq : q.rank ≤ Precedence.unary.rank) (hpq : p.rank ≤ q.rank) :
    IsExpr p c e dangling := by
  have hunary (h : IsExpr .unary c e dangling) : IsExpr .product c e dangling := .operand rfl h
  have hproduct (h : IsExpr .product c e dangling) : IsExpr .sum c e dangling := .operand rfl h
  have hsum (h : IsExpr .sum c e dangling) : IsExpr .order c e dangling := .operand rfl h
  have horder (h : IsExpr .order c e dangling) : IsExpr .equality c e dangling := .operand rfl h
  have hequality (h : IsExpr .equality c e dangling) : IsExpr .lowest c e dangling :=
    .operand rfl h
  cases q <;> cases p <;> simp [Precedence.rank] at hq hpq <;> simp_all

/-- Elements can be added at the end too. -/
theorem Separated.concat {Element : List Token → α → Prop} {c d : List Token} {as : List α}
    {comma : Token} {a : α} (h : Separated Element c as) (hcomma : comma.kind = .comma)
    (ha : Element d a) : Separated Element (c ++ comma :: d) (as ++ [a]) := by
  induction h with
  | last hlast => exact .more hlast hcomma (.last ha)
  | more hmore hbetween _ ih =>
      rw [List.append_assoc, List.cons_append]
      exact .more hmore hbetween ih

section Lists

variable {element : Parser α} {Element : List Token → α → Prop}

theorem moreElements_sound (hreads : ∀ count, AgreeUpTo count element element)
    (hsound : ∀ {tokens rest a}, element tokens = .ok a rest →
      ∃ c, tokens = c ++ rest ∧ Element c a)
    (found : List α) {whole c : List Token} {found' : List α} (hwhole : whole = c ++ tokens)
    (hfound : Separated Element c found.reverse)
    (hok : moreElements element found tokens = .ok found' rest) :
    ∃ c, whole = c ++ rest ∧ Separated Element c found'.reverse := by
  have hkeep {found next : List α} {tokens rest : List Token}
      (hinv : ∃ c, whole = c ++ tokens ∧ Separated Element c found.reverse)
      (hstep : nextElement element found tokens = .ok (some next) rest) :
      ∃ c, whole = c ++ rest ∧ Separated Element c next.reverse := by
    obtain ⟨c, hc, hfound⟩ := hinv
    obtain ⟨comma, _, a, hcomma, rfl, helement, rfl⟩ := nextElement_eq_ok_some.mp hstep
    obtain ⟨d, rfl, ha⟩ := hsound helement
    refine ⟨c ++ comma :: d, by simp [hc], ?_⟩
    rw [List.reverse_cons]
    exact hfound.concat hcomma ha
  obtain ⟨last, hinv, hend⟩ := iterate_invariant (nextElement_advances hreads)
    (fun found rest => ∃ c, whole = c ++ rest ∧ Separated Element c found.reverse) hkeep
    ⟨c, hwhole, hfound⟩ hok
  obtain ⟨rfl, _⟩ := nextElement_eq_ok_none.mp hend
  exact hinv

/-- A list is read rightly if its elements are. -/
theorem listUpTo_sound {closing : ParseError.Required}
    (hreads : ∀ count, AgreeUpTo count element element)
    (hsound : ∀ {tokens rest a}, element tokens = .ok a rest →
      ∃ c, tokens = c ++ rest ∧ Element c a)
    {as : List α} (hok : listUpTo closing element tokens = .ok as rest) :
    ∃ c, tokens = c ++ rest ∧ ListBehind closing.kind Element c as := by
  simp only [listUpTo, Steps.accept, bind_eq_ok] at hok
  obtain ⟨closed, behind, haccept, hok⟩ := hok
  cases closed with
  | true =>
      obtain ⟨close, hclose, rfl⟩ := accept_eq_ok_true.mp haccept
      simp only [if_true, pure_eq_ok] at hok
      obtain ⟨rfl, rfl⟩ := hok
      exact ⟨[close], rfl, .empty hclose⟩
  | false =>
      obtain ⟨rfl, _⟩ := accept_eq_ok_false.mp haccept
      simp only [Bool.false_eq_true, if_false, elements, Steps.require, bind_eq_ok, pure_eq_ok,
        require_eq_ok] at hok
      obtain ⟨_, _, ⟨first, middle, hfirst, found, _, hmore, rfl, rfl⟩, close, _,
        ⟨hclose, rfl⟩, rfl, rfl⟩ := hok
      obtain ⟨c, hc, ha⟩ := hsound hfirst
      obtain ⟨d, hd, hfound⟩ := moreElements_sound hreads hsound [first] hc (.last ha) hmore
      exact ⟨d ++ [close], by simp [hd], .filled hfound hclose⟩

end Lists

theorem parameter_sound {name : String} (hok : parameter (m := Parser) tokens = .ok name rest) :
    ∃ c, tokens = c ++ rest ∧ IsParameter c name := by
  simp only [parameter, Steps.require, bind_eq_ok, require_eq_ok, pure_eq_ok] at hok
  obtain ⟨token, _, ⟨hkind, rfl⟩, rfl, rfl⟩ := hok
  exact ⟨[token], rfl, token, hkind, rfl, rfl⟩

theorem IsElements.of_separated {c : List Token} {es : List (Expr Unit)}
    (h : Separated (fun c e => ∃ dangling, IsExpr .lowest c e dangling) c es) :
    IsElements c es := by
  induction h with
  | last he =>
      obtain ⟨_, he⟩ := he
      exact .last he
  | more he hcomma _ ih =>
      obtain ⟨_, he⟩ := he
      exact .more he hcomma ih

theorem IsArguments.of_listBehind {closing : Token.Kind} {c : List Token} {es : List (Expr Unit)}
    (h : ListBehind closing (fun c e => ∃ dangling, IsExpr .lowest c e dangling) c es) :
    IsArguments closing c es := by
  cases h with
  | empty hclose => exact .empty hclose
  | filled hes hclose => exact .filled (.of_separated hes) hclose

variable {inner : Nested}

theorem arguments_sound (hreads : inner.Reading) (hsound : inner.Sound)
    {closing : ParseError.Required} {args : List (Expr Unit)}
    (hok : listUpTo closing (inner.expr .lowest) tokens = .ok args rest) :
    ∃ c, tokens = c ++ rest ∧ IsArguments closing.kind c args := by
  have helement {tokens rest : List Token} {e : Expr Unit}
      (hok : inner.expr .lowest tokens = .ok e rest) :
      ∃ c, tokens = c ++ rest ∧ ∃ dangling, IsExpr .lowest c e dangling := by
    obtain ⟨c, dangling, hc, he, _⟩ := hsound.expr (by decide) hok
    exact ⟨c, hc, dangling, he⟩
  obtain ⟨c, hc, hargs⟩ := listUpTo_sound (fun count => (hreads.suffix count).expr _) helement hok
  exact ⟨c, hc, .of_listBehind hargs⟩

theorem choice_sound (hsound : inner.Sound) {token : Token} (hkind : token.kind = .ifWord)
    {e : Expr Unit} (hok : choice inner tokens = .ok e rest) :
    ∃ c dangling, tokens = c ++ rest ∧ IsPrimary (token :: c) e dangling ∧
      (dangling = true → ∀ next ∈ rest.head?, next.kind ≠ .elseWord) := by
  simp only [choice, Steps.require, bind_eq_ok, require_eq_ok] at hok
  obtain ⟨opening, _, ⟨hopening, rfl⟩, test, _, htest, closing, _, ⟨hclosing, rfl⟩, yes, _,
    hyes, more, behind, haccept, hok⟩ := hok
  obtain ⟨c, _, rfl, hc, _⟩ := hsound.expr (by decide) htest
  obtain ⟨d, rfl, hd⟩ := hsound.block hyes
  cases more with
  | true =>
      obtain ⟨middle, hmiddle, rfl⟩ := accept_eq_ok_true.mp haccept
      simp only [if_true, bind_eq_ok, pure_eq_ok] at hok
      obtain ⟨no, _, hno, rfl, rfl⟩ := hok
      obtain ⟨d', rfl, hd'⟩ := hsound.block hno
      refine ⟨opening :: (c ++ closing :: (d ++ middle :: d')), false, by simp, ?_, by simp⟩
      exact .choiceElse hkind hopening hc hclosing hd hmiddle hd'
  | false =>
      obtain ⟨rfl, hnot⟩ := accept_eq_ok_false.mp haccept
      simp only [Bool.false_eq_true, if_false, pure_eq_ok] at hok
      obtain ⟨rfl, rfl⟩ := hok
      refine ⟨opening :: (c ++ closing :: d), true, by simp, ?_, fun _ => hnot⟩
      exact .choice hkind hopening hc hclosing hd

theorem function_sound (hsound : inner.Sound) {token : Token} (hkind : token.kind = .fnWord)
    {e : Expr Unit} (hok : function inner tokens = .ok e rest) :
    ∃ c, tokens = c ++ rest ∧ IsPrimary (token :: c) e false := by
  simp only [function, Steps.require, bind_eq_ok, require_eq_ok, pure_eq_ok] at hok
  obtain ⟨opening, _, ⟨hopening, rfl⟩, params, _, hparams, body, _, hbody, rfl, rfl⟩ := hok
  obtain ⟨c, rfl, hc⟩ := listUpTo_sound
    (fun count => parameter_related (AgreeUpTo.congruence count)) parameter_sound hparams
  obtain ⟨d, rfl, hd⟩ := hsound.block hbody
  exact ⟨opening :: (c ++ d), by simp, .function hkind hopening hc hd⟩

/-- What the loop over continuations has read so far, and what it has not: either
an operand with calls and indexes, or an expression of a layer not looser than the
floor, which no tighter operator comes to continue. -/
inductive Grown (floor : Precedence) (c : List Token) (e : Expr Unit) (rest : List Token) :
    Prop where
  | postfixed {dangling} (he : IsPostfixed c e dangling)
      (hstop : dangling = true → ∀ next ∈ rest.head?, next.kind ≠ .elseWord) : Grown floor c e rest
  | layer {layer dangling} (hfloor : floor.rank ≤ layer.rank)
      (hlayer : layer.rank ≤ Precedence.unary.rank) (he : IsExpr layer c e dangling)
      (hstops : Stops layer.reach dangling rest) : Grown floor c e rest

theorem operand_sound (hreads : inner.Reading) (hsound : inner.Sound) {floor : Precedence}
    (hfloor : floor.rank ≤ Precedence.unary.rank) {token : Token} {e : Expr Unit}
    (hok : operand inner token tokens = .ok e rest) :
    ∃ c, tokens = c ++ rest ∧ Grown floor (token :: c) e rest := by
  have hprimary {e : Expr Unit} (h : IsPrimary [token] e false) :
      ∃ c, tokens = c ++ tokens ∧ Grown floor (token :: c) e tokens :=
    ⟨[], rfl, .postfixed (.primary h) (by simp)⟩
  have hunary {op : UnaryOp} (hop : UnaryOp.ofKind? token.kind = some op)
      (hok : (do return .unary op (← inner.expr .unary) : Parser (Expr Unit)) tokens =
        .ok e rest) : ∃ c, tokens = c ++ rest ∧ Grown floor (token :: c) e rest := by
    simp only [bind_eq_ok, pure_eq_ok] at hok
    obtain ⟨_, _, hexpr, rfl, rfl⟩ := hok
    obtain ⟨c, _, rfl, hc, hstops⟩ := hsound.expr (Nat.le_refl _) hexpr
    exact ⟨c, rfl, .layer hfloor (Nat.le_refl _) (.unary hop hc) hstops⟩
  rw [operand_apply] at hok
  cases hkind : token.kind <;> rw [hkind] at hok <;> dsimp only at hok
  case ident =>
    cases hok
    exact hprimary (.name hkind)
  case int =>
    split at hok
    · rename_i n hn
      cases hok
      exact hprimary (.int hkind hn)
    · simp at hok
  case string =>
    cases hok
    exact hprimary (.text hkind)
  case trueWord =>
    cases hok
    exact hprimary (.yes hkind)
  case falseWord =>
    cases hok
    exact hprimary (.no hkind)
  case bang => exact hunary (by rw [hkind]; rfl) hok
  case minus => exact hunary (by rw [hkind]; rfl) hok
  case leftParen =>
    simp only [bind_eq_ok, require_eq_ok, pure_eq_ok] at hok
    obtain ⟨_, _, hexpr, closing, _, ⟨hclosing, rfl⟩, rfl, rfl⟩ := hok
    obtain ⟨c, _, rfl, hc, _⟩ := hsound.expr (by decide) hexpr
    exact ⟨c ++ [closing], by simp, .postfixed (.primary (.group hkind hc hclosing)) (by simp)⟩
  case ifWord =>
    obtain ⟨c, _, rfl, hc, hstop⟩ := choice_sound hsound hkind hok
    exact ⟨c, rfl, .postfixed (.primary hc) hstop⟩
  case fnWord =>
    obtain ⟨c, rfl, hc⟩ := function_sound hsound hkind hok
    exact ⟨c, rfl, .postfixed (.primary hc) (by simp)⟩
  case leftBracket =>
    simp only [bind_eq_ok, pure_eq_ok] at hok
    obtain ⟨_, _, helements, rfl, rfl⟩ := hok
    obtain ⟨c, rfl, hc⟩ := arguments_sound hreads hsound helements
    exact ⟨c, rfl, .postfixed (.primary (.array hkind hc)) (by simp)⟩
  all_goals simp at hok

theorem Grown.operator {floor : Precedence} {c d : List Token} {left right : Expr Unit}
    {token : Token} {behind : List Token} {op : BinaryOp} {dangling : Bool}
    (h : Grown floor c left (token :: behind)) (hfloor : floor.rank < op.precedence.rank)
    (hop : BinaryOp.ofKind? token.kind = some op)
    (hright : IsExpr op.precedence d right dangling) (hstops : Stops op.precedence dangling rest) :
    Grown floor (c ++ token :: d) (.binary left op right) rest := by
  obtain ⟨layer, hlayer, hrank⟩ := op.exists_layer
  have hof : (Precedence.of token.kind).rank = op.precedence.rank := by
    rw [Precedence.of_eq (Continuation.ofKind?_of_operator hop)]
    rfl
  have hle : op.precedence.rank ≤ Precedence.unary.rank := by cases op <;> decide
  obtain ⟨hreach, _, _⟩ := Precedence.operands?_eq_some hlayer
  have hbelow : floor.rank ≤ layer.rank := by omega
  have hunary : layer.rank ≤ Precedence.unary.rank := by omega
  obtain ⟨dangling', hleft⟩ : ∃ dangling', IsExpr layer c left dangling' := by
    cases h with
    | postfixed he _ => exact ⟨_, (IsExpr.postfixed he).loosen (Nat.le_refl _) hunary⟩
    | @layer outer _ _ houter he hstops =>
        -- What is there has stopped before this operator, so it lies in a tighter layer.
        refine ⟨_, he.loosen houter ?_⟩
        have hnext : outer.reach.rank ≤ outer.rank + 1 := by cases outer <;> decide
        have hof' := (hstops token rfl).1
        omega
  exact .layer hbelow hunary (.chain hleft hop hlayer hright) (hreach ▸ hstops)

/-- Calls and indexes bind too tightly to come behind anything but an operand. -/
theorem Grown.postfixed_of_tight {floor : Precedence} {c : List Token} {left : Expr Unit}
    {token : Token} {behind : List Token} {continuation : Continuation}
    (h : Grown floor c left (token :: behind))
    (hkind : Continuation.ofKind? token.kind = some continuation)
    (htight : Precedence.unary.rank < continuation.precedence.rank) :
    ∃ dangling, IsPostfixed c left dangling := by
  cases h with
  | postfixed he _ => exact ⟨_, he⟩
  | @layer outer _ _ houter _ hstops =>
      have hof : (Precedence.of token.kind).rank = continuation.precedence.rank := by
        rw [Precedence.of_eq hkind]
      have hreach : outer.reach.rank ≤ Precedence.unary.rank := by cases outer <;> decide
      have hle := (hstops token rfl).1
      omega

theorem continued_sound (hreads : inner.Reading) (hsound : inner.Sound) {floor : Precedence}
    {c : List Token} {left e : Expr Unit} {token : Token} {behind : List Token}
    {continuation : Continuation} (h : Grown floor c left (token :: behind))
    (hkind : Continuation.ofKind? token.kind = some continuation)
    (hfloor : floor.rank < continuation.precedence.rank)
    (hok : continued inner left continuation behind = .ok e rest) :
    ∃ d, behind = d ++ rest ∧ Grown floor (c ++ token :: d) e rest := by
  have hbegins := Continuation.begins_of_kind hkind
  cases continuation with
  | operator op =>
      have hle : op.precedence.rank ≤ Precedence.unary.rank := by cases op <;> decide
      simp only [continued, bind_eq_ok, pure_eq_ok] at hok
      obtain ⟨right, _, hexpr, rfl, rfl⟩ := hok
      obtain ⟨d, _, rfl, hright, hstops⟩ := hsound.expr hle hexpr
      exact ⟨d, rfl, h.operator hfloor hbegins hright hstops⟩
  | call =>
      obtain ⟨_, hcallee⟩ := h.postfixed_of_tight hkind (by decide)
      simp only [continued, bind_eq_ok, pure_eq_ok] at hok
      obtain ⟨args, _, hlist, rfl, rfl⟩ := hok
      obtain ⟨d, rfl, hargs⟩ := arguments_sound hreads hsound hlist
      exact ⟨d, rfl, .postfixed (.call hcallee hbegins hargs) (by simp)⟩
  | index =>
      obtain ⟨_, hbase⟩ := h.postfixed_of_tight hkind (by decide)
      simp only [continued, Steps.require, bind_eq_ok, require_eq_ok, pure_eq_ok] at hok
      obtain ⟨position, _, hexpr, closing, _, ⟨hclosing, rfl⟩, rfl, rfl⟩ := hok
      obtain ⟨d, _, rfl, hposition, _⟩ := hsound.expr (by decide) hexpr
      exact ⟨d ++ [closing], by simp,
        .postfixed (.index hbase hbegins hposition hclosing) (by simp)⟩

/-- One more round of the loop over continuations. -/
theorem extend_sound (hreads : inner.Reading) (hsound : inner.Sound) {floor : Precedence}
    {whole : List Token} {e next : Expr Unit}
    (hinv : ∃ c, whole = c ++ tokens ∧ Grown floor c e tokens)
    (hstep : extend inner floor e tokens = .ok (some next) rest) :
    ∃ c, whole = c ++ rest ∧ Grown floor c next rest := by
  obtain ⟨c, rfl, hgrown⟩ := hinv
  obtain ⟨first, others, continuation, rfl, hkind, hrank, hcontinued⟩ :=
    (extend_eq_ok_some inner).mp hstep
  obtain ⟨d, rfl, hnext⟩ := continued_sound hreads hsound hgrown hkind hrank hcontinued
  exact ⟨c ++ first :: d, by simp, hnext⟩

theorem Grown.stop {floor : Precedence} {c : List Token} {e : Expr Unit}
    (h : Grown floor c e rest) (hfloor : floor.rank ≤ Precedence.unary.rank)
    (hend : ∀ token ∈ rest.head?, (Precedence.of token.kind).rank ≤ floor.rank) :
    ∃ dangling, IsExpr floor c e dangling ∧ Stops floor dangling rest := by
  cases h with
  | @postfixed dangling he hstop =>
      exact ⟨dangling, (IsExpr.postfixed he).loosen (Nat.le_refl _) hfloor,
        fun token htoken => ⟨hend token htoken, fun hdangling => hstop hdangling token htoken⟩⟩
  | @layer _ dangling hlayer houter he hstops =>
      exact ⟨dangling, he.loosen houter hlayer,
        fun token htoken => ⟨hend token htoken, (hstops token htoken).2⟩⟩

theorem expr_sound (hreads : inner.Reading) (hsound : inner.Sound) {floor : Precedence}
    (hfloor : floor.rank ≤ Precedence.unary.rank) {e : Expr Unit}
    (hok : expr inner floor tokens = .ok e rest) :
    ∃ c dangling, tokens = c ++ rest ∧ IsExpr floor c e dangling ∧ Stops floor dangling rest := by
  cases tokens with
  | nil => cases hok
  | cons token behind =>
      rw [expr_cons, bind_eq_ok] at hok
      obtain ⟨left, middle, hoperand, hloop⟩ := hok
      obtain ⟨c, hc, hleft⟩ := operand_sound hreads hsound hfloor hoperand
      obtain ⟨last, ⟨c, hc, hgrown⟩, hend⟩ := iterate_invariant (extend_advances hreads floor)
        (fun e rest => ∃ c, token :: behind = c ++ rest ∧ Grown floor c e rest)
        (fun hinv hstep => extend_sound hreads hsound hinv hstep)
        ⟨token :: c, by simp [hc], hleft⟩ hloop
      obtain ⟨rfl, hend⟩ := (extend_eq_ok_none inner).mp hend
      obtain ⟨dangling, he, hstops⟩ := hgrown.stop hfloor hend
      exact ⟨c, dangling, hc, he, hstops⟩

theorem statement_sound (hsound : inner.Sound) {item : Item Unit}
    (hok : statement inner tokens = .ok item rest) :
    ∃ c ending, tokens = c ++ rest ∧ IsStatement c item ending ∧ ending ≠ .semicolon ∧
      ∀ dangling, ending = .expression dangling → Stops .lowest dangling rest := by
  cases tokens with
  | nil => cases hok
  | cons token behind =>
      rw [statement_cons] at hok
      split at hok
      · rename_i hkind
        simp only [bind_eq_ok, require_eq_ok, pure_eq_ok] at hok
        obtain ⟨name, _, ⟨hname, rfl⟩, assign, _, ⟨hassign, rfl⟩, init, _, hexpr, rfl, rfl⟩ := hok
        obtain ⟨c, dangling, rfl, hinit, hstops⟩ := hsound.expr (by decide) hexpr
        exact ⟨_, _, rfl, .bind hkind hname hassign hinit, by simp, by rintro _ ⟨⟩; exact hstops⟩
      · rename_i hkind
        simp only [bind_eq_ok, pure_eq_ok] at hok
        obtain ⟨e, _, hexpr, rfl, rfl⟩ := hok
        obtain ⟨c, dangling, rfl, he, hstops⟩ := hsound.expr (by decide) hexpr
        exact ⟨_, _, rfl, .ret hkind he, by simp, by rintro _ ⟨⟩; exact hstops⟩
      · simp only [bind_eq_ok, pure_eq_ok] at hok
        obtain ⟨items, _, hblock, rfl, rfl⟩ := hok
        obtain ⟨c, hc, hitems⟩ := hsound.block hblock
        exact ⟨c, _, hc, .block hitems, by simp, by simp⟩
      · simp only [bind_eq_ok, pure_eq_ok] at hok
        obtain ⟨e, _, hexpr, rfl, rfl⟩ := hok
        obtain ⟨c, dangling, hc, he, hstops⟩ := hsound.expr (by decide) hexpr
        exact ⟨c, _, hc, .expr he, by simp, by rintro _ ⟨⟩; exact hstops⟩

theorem item_sound (hsound : inner.Sound) {item : Item Unit}
    (hok : Grammar.item inner tokens = .ok item rest) :
    ∃ c ending, tokens = c ++ rest ∧ IsItem c item ending ∧ ending.Stops rest := by
  simp only [Grammar.item, Steps.accept, bind_eq_ok, pure_eq_ok] at hok
  obtain ⟨_, middle, hstatement, semicolon, last, haccept, rfl, rfl⟩ := hok
  obtain ⟨c, ending, rfl, hitem, hending, hstops⟩ := statement_sound hsound hstatement
  cases semicolon with
  | true =>
      obtain ⟨token, htoken, rfl⟩ := accept_eq_ok_true.mp haccept
      exact ⟨c ++ [token], .semicolon, by simp, .terminated hitem htoken, trivial⟩
  | false =>
      obtain ⟨rfl, hnot⟩ := accept_eq_ok_false.mp haccept
      refine ⟨c, ending, rfl, .bare hitem, ?_⟩
      cases ending with
      | semicolon => exact absurd rfl hending
      | block => exact hnot
      | expression dangling => exact ⟨hstops dangling rfl, hnot⟩

/-- The loop over the items of a block adds items at the end, and the items of a phrase come
apart at its front: so this says what may be put behind the items found. -/
def ItemsBefore (whole : List Token) (found : List (Item Unit)) (tokens : List Token) : Prop :=
  ∃ c, whole = c ++ tokens ∧ ∀ d more, IsItems d more →
    (∀ token ∈ d.head?, token ∈ tokens.head?) → IsItems (c ++ d) (found.reverse ++ more)

/-- One more round of the loop over the items of a block. -/
theorem oneMore_sound (hreads : inner.Reading) (hsound : inner.Sound) {whole : List Token}
    {found next : List (Item Unit)} (hinv : ItemsBefore whole found tokens)
    (hstep : oneMore inner found tokens = .ok (some next) rest) : ItemsBefore whole next rest := by
  obtain ⟨c, rfl, hfound⟩ := hinv
  obtain ⟨_, item, hitem, rfl⟩ := (oneMore_eq_ok_some inner).mp hstep
  have hlt := item_length_lt hreads hitem
  obtain ⟨c', ending, rfl, hphrase, hstops⟩ := item_sound hsound hitem
  refine ⟨c ++ c', by simp, fun d more hmore hhead => ?_⟩
  have hcons : IsItems (c' ++ d) (item :: more) := by
    refine .cons hphrase hmore fun dangling hending token htoken => ?_
    rw [hending] at hstops
    have hrank := (hstops.1 token (hhead token htoken)).1
    have hnone : ¬(Continuation.ofKind? token.kind).isSome :=
      fun hsome => Nat.not_lt_of_le hrank ((Precedence.rank_of_pos_iff token.kind).mpr hsome)
    simpa using hnone
  rw [List.append_assoc, List.reverse_cons, List.append_assoc]
  refine hfound (c' ++ d) (item :: more) hcons fun token htoken => ?_
  cases c' with
  | nil => simp at hlt
  | cons first others => simpa using htoken

/-- The items found before the closing brace are all there are. -/
theorem ItemsBefore.isItems {whole : List Token} {found : List (Item Unit)}
    (h : ItemsBefore whole found tokens) :
    ∃ c, whole = c ++ tokens ∧ IsItems c found.reverse := by
  obtain ⟨c, hc, hfound⟩ := h
  exact ⟨c, hc, by simpa using hfound [] [] .nil (by simp)⟩

theorem ItemsBefore.start (whole : List Token) : ItemsBefore whole [] whole :=
  ⟨[], rfl, fun _ _ hmore _ => by simpa using hmore⟩

theorem block_sound (hreads : inner.Reading) (hsound : inner.Sound) {items : Program Unit}
    (hok : block inner tokens = .ok items rest) :
    ∃ c, tokens = c ++ rest ∧ IsBlock c items := by
  simp only [block, Steps.require, bind_eq_ok, require_eq_ok, pure_eq_ok] at hok
  obtain ⟨opening, behind, ⟨hopening, rfl⟩, found, _, hloop, closing, _, ⟨hclosing, rfl⟩, rfl,
    rfl⟩ := hok
  obtain ⟨last, hinv, hend⟩ := iterate_invariant (oneMore_advances hreads) (ItemsBefore behind)
    (oneMore_sound hreads hsound) (.start behind) hloop
  obtain ⟨rfl, _⟩ := (oneMore_eq_ok_none inner).mp hend
  obtain ⟨c, hc, hitems⟩ := hinv.isItems
  exact ⟨opening :: (c ++ [closing]), by simp [hc], .braces hopening hitems hclosing⟩

end Grammar

namespace Nested

theorem within_sound (levels : Nat) : (within levels).Sound := by
  induction levels with
  | zero =>
      constructor
      · intro _ _ _ _ _ hok
        cases hok
      · intro _ _ _ hok
        cases hok
  | succ levels ih =>
      exact ⟨fun hp hok => Grammar.expr_sound (within_reading levels) ih hp hok,
        fun hok => Grammar.block_sound (within_reading levels) ih hok⟩

theorem unlimited_sound : unlimited.Sound where
  expr {_ _ tokens _} hp hok := (within_sound (tokens.length + 1)).expr hp hok
  block {_ tokens _} hok := (within_sound (tokens.length + 1)).block hok

end Nested

end Scriptlet
