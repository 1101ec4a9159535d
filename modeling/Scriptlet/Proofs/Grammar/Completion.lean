import Scriptlet.Proofs.Grammar.Exactness
import Scriptlet.Proofs.Grammar.Extension

/-!
# What has been read before an error

The tokens before the one that a parser blames begin a phrase: at every place where the
grammar fails, something could have come that leads to the end of all constructs that are
open there. With the blamed token behind them they begin no phrase any more, because the
parser looks no further than to this token. Main result: `Item.parser_blames`.
-/

namespace Scriptlet

open Scriptlet.Parser

variable {α β : Type} {tokens rest : List Token}

namespace Parser

/-- A repetition that fails does so in a step at which the invariant still holds. -/
theorem iterate_error_invariant {step : α → Parser (Option α)} (h : Advances step)
    (invariant : α → List Token → Prop) {a : α} {error : ParseError}
    (keep : ∀ {a b tokens rest}, invariant a tokens → step a tokens = .ok (some b) rest →
      invariant b rest)
    (start : invariant a tokens) (hfail : iterate step a tokens = .error error rest) :
    ∃ b last, invariant b last ∧ step b last = .error error rest := by
  have hrounds := repeats_iterate h a tokens
  rw [hfail] at hrounds
  clear hfail
  generalize hresult : EStateM.Result.error error rest = result at hrounds
  induction hrounds with
  | stop => cases hresult
  | fail hround =>
      cases hresult
      exact ⟨_, _, start, hround⟩
  | next hround _ ih => exact ih (keep start hround) hresult

/-- A parser that reads phrases, and that has read the beginning of a phrase, and not yet
all of it, when it fails. -/
structure Completable (p : Parser α) (Phrase : List Token → α → Prop) : Prop where
  phrase : ∃ c a, Phrase c a
  ok {a : α} {tokens rest : List Token} :
    p tokens = .ok a rest → ∃ c, tokens = c ++ rest ∧ Phrase c a
  error {error : ParseError} {tokens rest : List Token} : p tokens = .error error rest →
    ∃ read more a, more ≠ [] ∧ tokens = read ++ error.tokens ∧ Phrase (read ++ more) a

namespace Completable

variable {p : Parser α} {Phrase : List Token → α → Prop} {Whole : List Token → β → Prop}

theorem pure {a : α} (h : Phrase [] a) : Completable (Pure.pure a) Phrase where
  phrase := ⟨[], a, h⟩
  ok hok := by
    obtain ⟨rfl, rfl⟩ := pure_eq_ok.mp hok
    exact ⟨[], rfl, h⟩
  error herror := absurd herror pure_ne_error

theorem mono {Phrase' : List Token → α → Prop} (h : Completable p Phrase)
    (himp : ∀ c a, Phrase c a → Phrase' c a) : Completable p Phrase' where
  phrase := by
    obtain ⟨c, a, hphrase⟩ := h.phrase
    exact ⟨c, a, himp c a hphrase⟩
  ok hok := by
    obtain ⟨c, hc, hphrase⟩ := h.ok hok
    exact ⟨c, hc, himp c _ hphrase⟩
  error herror := by
    obtain ⟨read, more, a, hmore, hread, hphrase⟩ := h.error herror
    exact ⟨read, more, a, hmore, hread, himp _ a hphrase⟩

/-- Where a parser fails at once, any phrase at all could have come. -/
theorem failHere {cause : ParseError.Cause} (h : ∃ c a, c ≠ [] ∧ Phrase c a) :
    Completable (Parser.failHere cause) Phrase := by
  obtain ⟨c, a, hc, hphrase⟩ := h
  refine ⟨⟨c, a, hphrase⟩, fun hok => absurd hok failHere_ne_ok, fun herror => ?_⟩
  cases herror
  exact ⟨[], c, a, hc, rfl, hphrase⟩

/-- Phrases one behind the other. If the first parser fails, its phrase is completed and
another one put behind. -/
theorem bind {f : α → Parser β} (hp : Completable p Phrase)
    (hf : ∀ c a, Phrase c a → Completable (f a) fun d b => Whole (c ++ d) b) :
    Completable (p >>= f) Whole where
  phrase := by
    obtain ⟨c, a, hphrase⟩ := hp.phrase
    obtain ⟨d, b, hwhole⟩ := (hf c a hphrase).phrase
    exact ⟨c ++ d, b, hwhole⟩
  ok hok := by
    obtain ⟨a, middle, ha, hb⟩ := bind_eq_ok.mp hok
    obtain ⟨c, rfl, hphrase⟩ := hp.ok ha
    obtain ⟨d, rfl, hwhole⟩ := (hf c a hphrase).ok hb
    exact ⟨c ++ d, (List.append_assoc ..).symm, hwhole⟩
  error herror := by
    rcases bind_eq_error.mp herror with hfirst | ⟨a, middle, ha, hb⟩
    · obtain ⟨read, more, a, hmore, hread, hphrase⟩ := hp.error hfirst
      obtain ⟨d, b, hwhole⟩ := (hf _ a hphrase).phrase
      exact ⟨read, more ++ d, b, by simp [hmore], hread, by rwa [← List.append_assoc]⟩
    · obtain ⟨c, rfl, hphrase⟩ := hp.ok ha
      obtain ⟨read, more, b, hmore, rfl, hwhole⟩ := (hf c a hphrase).error hb
      exact ⟨c ++ read, more, b, hmore, (List.append_assoc ..).symm, by rwa [List.append_assoc]⟩

theorem require_bind {what : ParseError.Required} {f : Token → Parser β}
    (hf : ∀ token, token.kind = what.kind → Completable (f token) fun d b => Whole (token :: d) b) :
    Completable (require what >>= f) Whole := by
  have hphrase : ∃ c b, c ≠ [] ∧ Whole c b := by
    obtain ⟨d, b, hwhole⟩ := (hf ⟨what.kind, 0, ""⟩ rfl).phrase
    exact ⟨_, b, List.cons_ne_nil _ _, hwhole⟩
  refine ⟨?_, fun hok => ?_, fun herror => ?_⟩
  · obtain ⟨c, b, _, hwhole⟩ := hphrase
    exact ⟨c, b, hwhole⟩
  · obtain ⟨token, _, htoken, hb⟩ := bind_eq_ok.mp hok
    obtain ⟨hkind, rfl⟩ := require_eq_ok.mp htoken
    obtain ⟨d, rfl, hwhole⟩ := (hf token hkind).ok hb
    exact ⟨token :: d, rfl, hwhole⟩
  · rcases bind_eq_error.mp herror with hmissing | ⟨token, _, htoken, hb⟩
    · obtain ⟨_, rfl, _⟩ := require_eq_error.mp hmissing
      obtain ⟨c, b, hc, hwhole⟩ := hphrase
      exact ⟨[], c, b, hc, rfl, hwhole⟩
    · obtain ⟨hkind, rfl⟩ := require_eq_ok.mp htoken
      obtain ⟨read, more, b, hmore, rfl, hwhole⟩ := (hf token hkind).error hb
      exact ⟨token :: read, more, b, hmore, rfl, hwhole⟩

theorem accept_bind {kind : Token.Kind} {f : Bool → Parser β}
    (htrue : ∀ token, token.kind = kind → Completable (f true) fun d b => Whole (token :: d) b)
    (hfalse : Completable (f false) Whole) : Completable (accept kind >>= f) Whole where
  phrase := hfalse.phrase
  ok hok := by
    obtain ⟨accepted, _, haccept, hb⟩ := bind_eq_ok.mp hok
    cases accepted with
    | true =>
        obtain ⟨token, hkind, rfl⟩ := accept_eq_ok_true.mp haccept
        obtain ⟨d, rfl, hwhole⟩ := (htrue token hkind).ok hb
        exact ⟨token :: d, rfl, hwhole⟩
    | false =>
        obtain ⟨rfl, _⟩ := accept_eq_ok_false.mp haccept
        exact hfalse.ok hb
  error herror := by
    rcases bind_eq_error.mp herror with haccept | ⟨accepted, _, haccept, hb⟩
    · exact absurd haccept accept_ne_error
    · cases accepted with
      | true =>
          obtain ⟨token, hkind, rfl⟩ := accept_eq_ok_true.mp haccept
          obtain ⟨read, more, b, hmore, rfl, hwhole⟩ := (htrue token hkind).error hb
          exact ⟨token :: read, more, b, hmore, rfl, hwhole⟩
      | false =>
          obtain ⟨rfl, _⟩ := accept_eq_ok_false.mp haccept
          exact hfalse.error hb

/-- What the tokens of a step that goes on are put behind is kept by a repetition. -/
theorem iterate (Phrase : List Token → α → Prop) {step : α → Parser (Option α)}
    (hadvances : Advances step)
    (hstep : ∀ c a, Phrase c a → Completable (step a) fun d next? =>
      match next? with
      | some b => Phrase (c ++ d) b
      | none => d = [])
    {c : List Token} {a : α} (h : Phrase c a) :
    Completable (iterate step a) fun d b => Phrase (c ++ d) b := by
  have hkeep {whole : List Token} {a b : α} {tokens rest : List Token}
      (hinv : ∃ d, whole = d ++ tokens ∧ Phrase (c ++ d) a)
      (hround : step a tokens = .ok (some b) rest) :
      ∃ d, whole = d ++ rest ∧ Phrase (c ++ d) b := by
    obtain ⟨d, rfl, hphrase⟩ := hinv
    obtain ⟨d', rfl, hnext⟩ := (hstep _ a hphrase).ok hround
    exact ⟨d ++ d', (List.append_assoc ..).symm, by simpa using hnext⟩
  have hstart (whole : List Token) : ∃ d, whole = d ++ whole ∧ Phrase (c ++ d) a :=
    ⟨[], rfl, by simpa using h⟩
  refine ⟨⟨[], a, by simpa using h⟩, fun {b tokens rest} hok => ?_,
    fun {error tokens rest} herror => ?_⟩
  · obtain ⟨last, ⟨d, hd, hphrase⟩, hend⟩ := iterate_invariant hadvances
      (fun b rest => ∃ d, tokens = d ++ rest ∧ Phrase (c ++ d) b) hkeep (hstart tokens) hok
    obtain ⟨_, rfl, rfl⟩ := (hstep _ b hphrase).ok hend
    exact ⟨d, hd, hphrase⟩
  · obtain ⟨b, last, ⟨d, rfl, hphrase⟩, hfail⟩ := iterate_error_invariant hadvances
      (fun b rest => ∃ d, tokens = d ++ rest ∧ Phrase (c ++ d) b) hkeep (hstart tokens) herror
    obtain ⟨read, more, next?, hmore, rfl, hnext⟩ := (hstep _ b hphrase).error hfail
    cases next? with
    | none => exact absurd (List.append_eq_nil_iff.mp hnext).2 hmore
    | some b =>
        exact ⟨d ++ read, more, b, hmore, (List.append_assoc ..).symm, by simpa using hnext⟩

end Completable

end Parser

namespace Grammar

section Lists

variable {element : Parser α} {Element : List Token → α → Prop}

theorem moreElements_completable (hreads : ∀ count, AgreeUpTo count element element)
    (h : Completable element Element) (found : List α) {c : List Token}
    (hfound : Separated Element c found.reverse) :
    Completable (moreElements element found) fun d found =>
      Separated Element (c ++ d) found.reverse := by
  refine .iterate (fun c found => Separated Element c found.reverse)
    (nextElement_advances hreads) (fun c found hfound => ?_) hfound
  refine .accept_bind (fun comma hcomma => ?_) (.pure rfl)
  refine .bind h fun d a ha => .pure ?_
  simpa using hfound.concat hcomma ha

theorem listUpTo_completable (closing : ParseError.Required)
    (hreads : ∀ count, AgreeUpTo count element element) (h : Completable element Element) :
    Completable (listUpTo closing element) (ListBehind closing.kind Element) := by
  refine .accept_bind (fun close hclose => .pure (.empty hclose)) ?_
  have helements : Completable (elements element) (Separated Element) := by
    refine .bind h fun c a ha => ?_
    refine .bind (moreElements_completable hreads h [a] (.last ha)) fun d found hd => ?_
    exact .pure (by simpa using hd)
  refine .bind helements fun c as has => .require_bind fun close hclose => .pure ?_
  exact .filled has hclose

end Lists

theorem parameter_completable : Completable parameter IsParameter :=
  .require_bind fun token hkind => .pure ⟨token, hkind, rfl, rfl⟩

/-- A name is an expression of every layer. -/
theorem exists_isExpr {p : Precedence} (hp : p.rank ≤ Precedence.unary.rank) :
    ∃ c e, c ≠ [] ∧ ∃ dangling, IsExpr p c e dangling :=
  ⟨[⟨.ident, 0, ""⟩], .var "", List.cons_ne_nil _ _, false,
    (IsExpr.postfixed (.primary (.name rfl))).loosen (Nat.le_refl _) hp⟩

theorem exists_isBlock : ∃ c items, c ≠ [] ∧ IsBlock c items :=
  ⟨[⟨.leftBrace, 0, ""⟩, ⟨.rightBrace, 0, ""⟩], [], List.cons_ne_nil _ _,
    .braces (c := []) rfl .nil rfl⟩

end Grammar

/-- Both parsers of a nesting have read the beginnings of phrases when they fail. -/
structure Nested.Completable (inner : Nested) : Prop where
  expr {p : Precedence} (hp : p.rank ≤ Precedence.unary.rank) :
    Parser.Completable (inner.expr p) fun c e => ∃ dangling, Grammar.IsExpr p c e dangling
  block : Parser.Completable inner.block Grammar.IsBlock

namespace Grammar

variable {inner : Nested}

theorem arguments_completable (hreads : inner.Reading) (h : inner.Completable)
    (closing : ParseError.Required) :
    Completable (listUpTo closing (inner.expr .lowest)) (IsArguments closing.kind) := by
  have hlist := listUpTo_completable closing (fun count => (hreads.suffix count).expr .lowest)
    (h.expr (p := .lowest) (by decide))
  exact hlist.mono fun _ _ => IsArguments.of_listBehind

theorem choice_completable (h : inner.Completable) {token : Token} (hkind : token.kind = .ifWord) :
    Completable (choice inner) fun c e => ∃ dangling, IsPrimary (token :: c) e dangling := by
  refine .require_bind fun opening hopening => .bind (h.expr (by decide)) fun c test htest => ?_
  obtain ⟨_, htest⟩ := htest
  refine .require_bind fun closing hclosing => .bind h.block fun d yes hyes => ?_
  refine .accept_bind (fun middle hmiddle => .bind h.block fun d' no hno => .pure ?_) (.pure ?_)
  · exact ⟨false, by
      simpa using .choiceElse hkind hopening htest hclosing hyes hmiddle hno⟩
  · exact ⟨true, by simpa using .choice hkind hopening htest hclosing hyes⟩

theorem function_completable (h : inner.Completable) {token : Token}
    (hkind : token.kind = .fnWord) :
    Completable (function inner) fun c e => ∃ dangling, IsPrimary (token :: c) e dangling := by
  have hparams : Completable (listUpTo .closeParen parameter)
      (ListBehind .rightParen IsParameter) :=
    listUpTo_completable _ (fun count => parameter_related (AgreeUpTo.congruence count))
      parameter_completable
  refine .require_bind fun opening hopening => .bind hparams fun c params hc => ?_
  refine .bind h.block fun d body hbody => .pure ⟨false, ?_⟩
  simpa using .function hkind hopening hc hbody

/-- A token is blamed or begins an operand. -/
theorem operand_completable (hreads : inner.Reading) (h : inner.Completable) (token : Token) :
    (∃ cause, operand inner token = failBehind cause token) ∨
      Completable (operand inner token) fun c e =>
        ∃ dangling, IsExpr .unary (token :: c) e dangling := by
  have hprimary {p : Parser (Expr Unit)}
      (hp : Completable p fun c e => ∃ dangling, IsPrimary (token :: c) e dangling) :
      Completable p fun c e => ∃ dangling, IsExpr .unary (token :: c) e dangling :=
    hp.mono fun _ _ hphrase => hphrase.imp fun _ he => .postfixed (.primary he)
  have hunary {op : UnaryOp} (hop : UnaryOp.ofKind? token.kind = some op) :
      Completable
        (do
          let op ← Steps.unaryOp token
          return .unary op (← inner.expr .unary))
        fun c e => ∃ dangling, IsExpr .unary (token :: c) e dangling := by
    rw [unaryOp_of_kind hop, pure_bind]
    refine .bind (h.expr (Nat.le_refl _)) fun c e hphrase => .pure ?_
    exact hphrase.imp fun _ he => by simpa using .unary hop he
  unfold operand
  cases hkind : token.kind <;> dsimp only
  case ident => exact .inr (hprimary (.pure ⟨false, .name hkind⟩))
  case int =>
    split
    · rename_i n hn
      exact .inr (hprimary (.pure ⟨false, .int hkind hn⟩))
    · exact .inl ⟨_, rfl⟩
  case string => exact .inr (hprimary (.pure ⟨false, .text hkind⟩))
  case trueWord => exact .inr (hprimary (.pure ⟨false, .yes hkind⟩))
  case falseWord => exact .inr (hprimary (.pure ⟨false, .no hkind⟩))
  case bang => exact .inr (hunary (by rw [hkind]; rfl))
  case minus => exact .inr (hunary (by rw [hkind]; rfl))
  case leftParen =>
    refine .inr (hprimary (.bind (h.expr (by decide)) fun c e hphrase => ?_))
    obtain ⟨_, he⟩ := hphrase
    exact .require_bind fun closing hclosing => .pure ⟨false, .group hkind he hclosing⟩
  case ifWord => exact .inr (hprimary (choice_completable h hkind))
  case fnWord => exact .inr (hprimary (function_completable h hkind))
  case leftBracket =>
    refine .inr (hprimary (.bind (arguments_completable hreads h _) fun c es hes => .pure ?_))
    exact ⟨false, by simpa using .array hkind hes⟩
  all_goals exact .inl ⟨_, rfl⟩

/-- What the loop over continuations has read can be continued to an expression as the
parser was about to do. -/
theorem continued_completable (hreads : inner.Reading) (h : inner.Completable)
    {floor : Precedence} {c : List Token} {left : Expr Unit} {token : Token} {behind : List Token}
    {continuation : Continuation} (hleft : Grown floor c left (token :: behind))
    (hkind : Continuation.ofKind? token.kind = some continuation)
    (hfloor : floor.rank < continuation.precedence.rank) :
    Completable (continued inner left continuation) fun d e =>
      Grown floor (c ++ token :: d) e [] := by
  have hbegins := Continuation.begins_of_kind hkind
  cases continuation with
  | operator op =>
      have hle : op.precedence.rank ≤ Precedence.unary.rank := by cases op <;> decide
      refine .bind (h.expr hle) fun d right hphrase => .pure ?_
      obtain ⟨_, hright⟩ := hphrase
      rw [List.append_nil]
      exact hleft.operator hfloor hbegins hright (.nil _ _)
  | call =>
      obtain ⟨_, hcallee⟩ := hleft.postfixed_of_tight hkind (by decide)
      refine .bind (arguments_completable hreads h _) fun d args hargs => .pure ?_
      rw [List.append_nil]
      exact .postfixed (.call hcallee hbegins hargs) (by simp)
  | index =>
      obtain ⟨_, hbase⟩ := hleft.postfixed_of_tight hkind (by decide)
      refine .bind (h.expr (by decide)) fun d position hphrase => ?_
      obtain ⟨_, hposition⟩ := hphrase
      refine .require_bind fun closing hclosing => .pure ?_
      exact .postfixed (.index hbase hbegins hposition hclosing) (by simp)

theorem expr_completable (hreads : inner.Reading) (hsound : inner.Sound) (h : inner.Completable)
    {floor : Precedence} (hfloor : floor.rank ≤ Precedence.unary.rank) :
    Completable (expr inner floor) fun c e => ∃ dangling, IsExpr floor c e dangling where
  phrase := by
    obtain ⟨c, e, _, he⟩ := exists_isExpr hfloor
    exact ⟨c, e, he⟩
  ok hok := by
    obtain ⟨c, dangling, hc, he, _⟩ := expr_sound hreads hsound hfloor hok
    exact ⟨c, hc, dangling, he⟩
  error {error tokens rest} herror := by
    obtain ⟨x, e, hx, he⟩ := exists_isExpr hfloor
    cases tokens with
    | nil =>
        cases herror
        exact ⟨[], x, e, hx, rfl, he⟩
    | cons token behind =>
        rw [expr_cons] at herror
        rcases bind_eq_error.mp herror with hfirst | ⟨left, middle, hoperand, hloop⟩
        · rcases operand_completable hreads h token with ⟨cause, hblames⟩ | hcompletable
          · rw [hblames] at hfirst
            cases hfirst
            exact ⟨[], x, e, hx, rfl, he⟩
          · obtain ⟨read, more, e, hmore, rfl, dangling, he⟩ := hcompletable.error hfirst
            exact ⟨token :: read, more, e, hmore, rfl, dangling, he.loosen (Nat.le_refl _) hfloor⟩
        · obtain ⟨c, hc, hleft⟩ := operand_sound hreads hsound hfloor hoperand
          obtain ⟨e, last, ⟨c, hc, hgrown⟩, hfail⟩ := iterate_error_invariant
            (extend_advances hreads floor)
            (fun e rest => ∃ c, token :: behind = c ++ rest ∧ Grown floor c e rest)
            (fun hinv hstep => extend_sound hreads hsound hinv hstep)
            ⟨token :: c, by simp [hc], hleft⟩ hloop
          obtain ⟨first, others, continuation, rfl, hkind, hrank, hcontinued⟩ :=
            extend_eq_error inner hfail
          obtain ⟨read, more, e, hmore, rfl, hnext⟩ :=
            (continued_completable hreads h hgrown hkind hrank).error hcontinued
          obtain ⟨dangling, he, _⟩ := hnext.stop hfloor (by simp)
          exact ⟨c ++ first :: read, more, e, hmore, by simp [hc], dangling, by simpa using he⟩

theorem statement_completable (hsound : inner.Sound) (h : inner.Completable) :
    Completable (statement inner) fun c item => ∃ ending, IsStatement c item ending where
  phrase := by
    obtain ⟨c, e, _, dangling, he⟩ := exists_isExpr (p := .lowest) (by decide)
    exact ⟨c, .expr e, _, .expr he⟩
  ok hok := by
    obtain ⟨c, ending, hc, hitem, _⟩ := statement_sound hsound hok
    exact ⟨c, hc, ending, hitem⟩
  error {error tokens rest} herror := by
    have hexpr := h.expr (p := .lowest) (by decide)
    cases tokens with
    | nil =>
        cases herror
        obtain ⟨c, e, hc, dangling, he⟩ := exists_isExpr (p := .lowest) (by decide)
        exact ⟨[], c, .expr e, hc, rfl, _, .expr he⟩
    | cons token behind =>
        rw [statement_cons] at herror
        split at herror
        · rename_i hkind
          have hbind : Completable
              (do
                let name ← require .name
                let _ ← require .assign
                return Item.bind name.lexeme (← inner.expr .lowest))
              fun c item => ∃ ending, IsStatement (token :: c) item ending := by
            refine .require_bind fun name hname => .require_bind fun assign hassign => ?_
            refine .bind hexpr fun c init hinit => .pure ?_
            obtain ⟨_, hinit⟩ := hinit
            exact ⟨_, by simpa using .bind hkind hname hassign hinit⟩
          obtain ⟨read, more, item, hmore, rfl, hitem⟩ := hbind.error herror
          exact ⟨token :: read, more, item, hmore, rfl, hitem⟩
        · rename_i hkind
          have hret : Completable (do return Item.ret (← inner.expr .lowest))
              fun c item => ∃ ending, IsStatement (token :: c) item ending := by
            refine .bind hexpr fun c e he => .pure ?_
            obtain ⟨_, he⟩ := he
            exact ⟨_, by simpa using .ret hkind he⟩
          obtain ⟨read, more, item, hmore, rfl, hitem⟩ := hret.error herror
          exact ⟨token :: read, more, item, hmore, rfl, hitem⟩
        · have hblock : Completable (do return Item.block (← inner.block))
              fun c item => ∃ ending, IsStatement c item ending :=
            .bind h.block fun c items hitems => .pure ⟨.block, by simpa using .block hitems⟩
          exact hblock.error herror
        · have hsingle : Completable (do return Item.expr (← inner.expr .lowest))
              fun c item => ∃ ending, IsStatement c item ending := by
            refine .bind hexpr fun c e he => .pure ?_
            obtain ⟨_, he⟩ := he
            exact ⟨_, by simpa using .expr he⟩
          exact hsingle.error herror

theorem item_completable (hsound : inner.Sound) (h : inner.Completable) :
    Completable (Grammar.item inner) fun c item => ∃ ending, IsItem c item ending := by
  refine .bind (statement_completable hsound h) fun c item hitem => ?_
  obtain ⟨ending, hitem⟩ := hitem
  refine .accept_bind (fun token htoken => .pure ⟨.semicolon, .terminated hitem htoken⟩) (.pure ?_)
  exact ⟨ending, by simpa using .bare hitem⟩

theorem block_completable (hreads : inner.Reading) (hsound : inner.Sound) (h : inner.Completable) :
    Completable (block inner) IsBlock where
  phrase := by
    obtain ⟨c, items, _, hblock⟩ := exists_isBlock
    exact ⟨c, items, hblock⟩
  ok hok := block_sound hreads hsound hok
  error {error tokens rest} herror := by
    have hkeep {whole : List Token} {found next : List (Item Unit)} {tokens rest : List Token} :
        ItemsBefore whole found tokens → oneMore inner found tokens = .ok (some next) rest →
          ItemsBefore whole next rest :=
      oneMore_sound hreads hsound
    unfold block at herror
    rcases bind_eq_error.mp herror with hmissing | ⟨opening, behind, hopen, hbehind⟩
    · obtain ⟨_, rfl, _⟩ := require_eq_error.mp hmissing
      obtain ⟨c, items, hc, hblock⟩ := exists_isBlock
      exact ⟨[], c, items, hc, rfl, hblock⟩
    obtain ⟨hopening, rfl⟩ := require_eq_ok.mp hopen
    have hclosing : (⟨.rightBrace, 0, ""⟩ : Token).kind = .rightBrace := rfl
    rcases bind_eq_error.mp hbehind with hloop | ⟨found, last, hloop, hclose⟩
    · obtain ⟨found, last, hinv, hfail⟩ := iterate_error_invariant
        (oneMore_advances hreads) (ItemsBefore behind) hkeep (.start behind) hloop
      obtain ⟨read, more, item, hmore, rfl, ending, hitem⟩ :=
        (item_completable hsound h).error (oneMore_eq_error inner hfail)
      cases read with
      | nil =>
          -- Nothing has been read of the item, so the block could have ended before it.
          obtain ⟨c, rfl, hitems⟩ := hinv.isItems
          exact ⟨opening :: c, _, _, List.cons_ne_nil _ [], rfl,
            .braces hopening hitems hclosing⟩
      | cons first read =>
          obtain ⟨c, rfl, hfound⟩ := hinv
          have hsingle := IsItems.cons hitem .nil (by simp)
          rw [List.append_nil] at hsingle
          have hblock := IsBlock.braces hopening (hfound _ _ hsingle (by simp)) hclosing
          exact ⟨opening :: (c ++ first :: read), more ++ [_], _, by simp, by simp,
            by simpa using hblock⟩
    · obtain ⟨_, hinv, hend⟩ := iterate_invariant (oneMore_advances hreads)
        (ItemsBefore behind) hkeep (.start behind) hloop
      obtain ⟨rfl, _⟩ := (oneMore_eq_ok_none inner).mp hend
      obtain ⟨c, rfl, hitems⟩ := hinv.isItems
      simp only [bind_eq_error, pure_ne_error, and_false, exists_false, or_false] at hclose
      obtain ⟨_, rfl, _⟩ := require_eq_error.mp hclose
      exact ⟨opening :: c, _, _, List.cons_ne_nil _ [], rfl, .braces hopening hitems hclosing⟩

end Grammar

theorem Nested.within_completable (levels : Nat) : (Nested.within levels).Completable := by
  induction levels with
  | zero =>
      refine ⟨fun hp => .failHere ?_, .failHere Grammar.exists_isBlock⟩
      exact Grammar.exists_isExpr hp
  | succ levels ih =>
      have hreads := Nested.within_reading levels
      have hsound := Nested.within_sound levels
      exact ⟨fun hp => Grammar.expr_completable hreads hsound ih hp,
        Grammar.block_completable hreads hsound ih⟩

/-- The parser blames the right token: what stands before it begins an item, and with this
token behind it, whatever follows is blamed in the same words and is no item. -/
theorem Item.parser_blames {error : ParseError}
    (herror : Item.parser tokens = .error error rest) :
    ∃ read, tokens = read ++ error.tokens ∧
      (∃ more item ending, Grammar.IsItem (read ++ more) item ending) ∧
      ∀ token behind, error.tokens = token :: behind → ∀ behind',
        (∃ error' rest', Item.parser (read ++ token :: behind') = .error error' rest' ∧
          error'.message = error.message) ∧
        (error.cause ≠ .tooDeep →
          ∀ item ending, ¬Grammar.IsItem (read ++ token :: behind') item ending) := by
  have hsound := Nested.within_sound maxNesting
  have hcompletable := Grammar.item_completable hsound (Nested.within_completable maxNesting)
  obtain ⟨read, more, item, _, hread, ending, hitem⟩ := hcompletable.error herror
  refine ⟨read, hread, ⟨more, item, ending, hitem⟩, fun token behind hblamed behind' => ?_⟩
  obtain ⟨cause, blamed⟩ := error
  obtain rfl : blamed = token :: behind := hblamed
  obtain rfl : tokens = read ++ token :: behind := hread
  obtain ⟨rest', herror', _⟩ := Item.parser_error_append herror behind'
  refine ⟨⟨_, rest', herror', rfl⟩, fun hcause item ending hitem => ?_⟩
  -- The limit on nesting is not what the error is about, so without a limit it is there too.
  have hcut := Grammar.item_related CutsOff.congruence (Nested.within_cutsOff maxNesting)
  rcases hcut (read ++ token :: behind') with ⟨blamed, rest, hdeep⟩ | hsame
  · cases herror'.symm.trans hdeep
    exact hcause rfl
  · have hread := Grammar.unlimited_item_iff.mpr
      ⟨_, ending, (List.append_nil _).symm, hitem, ending.stops_nil⟩
    cases (herror'.symm.trans hsame).trans hread

/-- In `let 1` the number is blamed: `let` begins an item and `let 1` does not. -/
theorem Item.parser_blames_number :
    ∃ read, [⟨.letWord, 0, "let"⟩, ⟨.int, 0, "1"⟩] = read ++ [(⟨.int, 0, "1"⟩ : Token)] ∧
      (∃ more item ending, Grammar.IsItem (read ++ more) item ending) ∧
      ∀ token behind, [(⟨.int, 0, "1"⟩ : Token)] = token :: behind → ∀ behind',
        (∃ error' rest', Item.parser (read ++ token :: behind') = .error error' rest' ∧
          error'.message = "Parse error at line 1: expected identifier, found 1") ∧
        (ParseError.Cause.missing .name ≠ .tooDeep →
          ∀ item ending, ¬Grammar.IsItem (read ++ token :: behind') item ending) := by
  have herror : Item.parser [⟨.letWord, 0, "let"⟩, ⟨.int, 0, "1"⟩] =
      .error ⟨.missing .name, [⟨.int, 0, "1"⟩]⟩ [⟨.int, 0, "1"⟩] := rfl
  exact Item.parser_blames herror

end Scriptlet
