import Scriptlet.Proofs.Grammar.Soundness

/-!
# What is in the layers is read

Every phrase of the layered grammar is read, without a limit on nesting, wherever
nothing behind it continues it. An expression of a layer is read even with a looser
precedence: the loop over continuations then arrives at the expression and goes on
from there. That is the induction hypothesis under which chains come out grouped to
the left.
-/

namespace Scriptlet

open Scriptlet.Parser

variable {α : Type} {tokens rest : List Token}

namespace Grammar

open Nested (unlimited unlimited_expr unlimited_block unlimited_reading)

/-- The kinds of token that begin an expression. -/
def operandKinds : List Token.Kind :=
  [.ident, .int, .string, .trueWord, .falseWord, .bang, .minus, .leftParen, .ifWord, .fnWord,
    .leftBracket]

mutual

theorem IsExpr.starts {layer : Precedence} {c : List Token} {e : Expr Unit} {dangling : Bool} :
    IsExpr layer c e dangling → ∃ token others, c = token :: others ∧ token.kind ∈ operandKinds
  | .operand _ he => he.starts
  | .chain hleft _ _ _ => by
      obtain ⟨token, others, rfl, hkind⟩ := hleft.starts
      exact ⟨token, _, rfl, hkind⟩
  | @IsExpr.unary token _ _ _ _ hop _ => by
      refine ⟨token, _, rfl, ?_⟩
      revert hop
      cases token.kind <;> simp [UnaryOp.ofKind?, operandKinds]
  | .postfixed he => he.starts

theorem IsPostfixed.starts {c : List Token} {e : Expr Unit} {dangling : Bool} :
    IsPostfixed c e dangling → ∃ token others, c = token :: others ∧ token.kind ∈ operandKinds
  | .primary he => he.starts
  | .call hcallee _ _ => by
      obtain ⟨token, others, rfl, hkind⟩ := hcallee.starts
      exact ⟨token, _, rfl, hkind⟩
  | .index hbase _ _ _ => by
      obtain ⟨token, others, rfl, hkind⟩ := hbase.starts
      exact ⟨token, _, rfl, hkind⟩

theorem IsPrimary.starts {c : List Token} {e : Expr Unit} {dangling : Bool}
    (h : IsPrimary c e dangling) :
    ∃ token others, c = token :: others ∧ token.kind ∈ operandKinds := by
  cases h with
  | name h | int h | text h | yes h | no h | group h | choice h | choiceElse h | function h
  | array h => exact ⟨_, _, rfl, by rw [h]; decide⟩

end

theorem IsElements.starts {c : List Token} {es : List (Expr Unit)} (h : IsElements c es) :
    ∃ token others, c = token :: others ∧ token.kind ∈ operandKinds := by
  cases h with
  | last he => exact he.starts
  | more he _ _ =>
      obtain ⟨token, others, rfl, hkind⟩ := he.starts
      exact ⟨token, _, rfl, hkind⟩

theorem IsStatement.starts {c : List Token} {item : Item Unit} {ending : Ending}
    (h : IsStatement c item ending) :
    ∃ token others, c = token :: others ∧
      token.kind ∈ .letWord :: .returnWord :: .leftBrace :: operandKinds := by
  cases h with
  | bind hstart => exact ⟨_, _, rfl, by simp [hstart]⟩
  | ret hstart => exact ⟨_, _, rfl, by simp [hstart]⟩
  | block hitems =>
      obtain ⟨hopening, _, _⟩ := hitems
      exact ⟨_, _, rfl, by simp [hopening]⟩
  | expr he =>
      obtain ⟨token, others, rfl, hkind⟩ := he.starts
      exact ⟨token, others, rfl, by simp [hkind]⟩

theorem IsItem.starts {c : List Token} {item : Item Unit} {ending : Ending}
    (h : IsItem c item ending) :
    ∃ token others, c = token :: others ∧
      token.kind ∈ .letWord :: .returnWord :: .leftBrace :: operandKinds := by
  cases h with
  | bare hitem => exact hitem.starts
  | terminated hitem _ =>
      obtain ⟨token, others, rfl, hkind⟩ := hitem.starts
      exact ⟨token, _, rfl, hkind⟩

theorem IsBlock.starts {c : List Token} {items : Program Unit} (h : IsBlock c items) :
    ∃ token others, c = token :: others ∧ token.kind = .leftBrace := by
  cases h with
  | braces hopening => exact ⟨_, _, rfl, hopening⟩

/-- An item that does not end in a semicolon is not ended by one either. -/
theorem IsStatement.stops_semicolon {c : List Token} {item : Item Unit} {ending : Ending}
    (h : IsStatement c item ending) (hstops : ending.Stops rest) :
    ∀ token ∈ rest.head?, token.kind ≠ .semicolon := by
  cases h with
  | bind | ret | expr => exact hstops.2
  | block => exact hstops

/-- Where the text or a block ends behind items, what stands before them as one more item
ends before them. -/
theorem IsItems.stops_before {d : List Token} {items : Program Unit} (h : IsItems d items)
    (hrest : ∀ token ∈ rest.head?, token.kind = .rightBrace) {ending : Ending}
    (hjoint : ∀ dangling, ending = .expression dangling →
      ∀ token ∈ d.head?, Continuation.ofKind? token.kind = none) :
    ending.Stops (d ++ rest) := by
  have hhead : ∀ token ∈ (d ++ rest).head?, token.kind ≠ .semicolon ∧
      token.kind ≠ .elseWord ∧
      (∀ dangling, ending = .expression dangling → (Precedence.of token.kind).rank = 0) := by
    cases h with
    | nil =>
        intro token htoken
        rw [hrest token htoken]
        exact ⟨by decide, by decide, fun _ _ => rfl⟩
    | cons hitem hitems _ =>
        obtain ⟨first, others, rfl, hkind⟩ := hitem.starts
        intro token htoken
        cases htoken
        refine ⟨?_, ?_, fun dangling hending => ?_⟩
        · intro heq
          rw [heq] at hkind
          exact absurd hkind (by decide)
        · intro heq
          rw [heq] at hkind
          exact absurd hkind (by decide)
        · have hnone := hjoint dangling hending first rfl
          rw [Precedence.of, hnone]
          rfl
  cases ending with
  | semicolon => exact True.intro
  | block => exact fun token htoken => (hhead token htoken).1
  | expression dangling =>
      refine ⟨fun token htoken => ?_, fun token htoken => (hhead token htoken).1⟩
      obtain ⟨_, helse, hrank⟩ := hhead token htoken
      exact ⟨Nat.le_of_eq (hrank dangling rfl), fun _ => helse⟩

/-- Where nothing continues an expression, the loop over continuations ends. -/
theorem iterate_extend_of_stops {floor : Precedence} {dangling : Bool} {e : Expr Unit}
    (h : Stops floor dangling rest) : iterate (extend unlimited floor) e rest = .ok e rest :=
  iterate_of_none (extend_advances unlimited_reading floor)
    ((extend_eq_ok_none unlimited).mpr ⟨rfl, fun token htoken => (h token htoken).1⟩)

/-- A further round of the loop over continuations. -/
theorem iterate_extend_cons {floor : Precedence} {left e : Expr Unit} {token : Token}
    {continuation : Continuation} (hkind : Continuation.ofKind? token.kind = some continuation)
    (hfloor : floor.rank < continuation.precedence.rank)
    (hok : continued unlimited left continuation tokens = .ok e rest) :
    iterate (extend unlimited floor) left (token :: tokens) =
      iterate (extend unlimited floor) e rest :=
  iterate_of_some (extend_advances unlimited_reading floor)
    ((extend_eq_ok_some unlimited).mpr ⟨token, tokens, continuation, rfl, hkind, hfloor, hok⟩)

theorem moreElements_cons {element : Parser α} (hreads : ∀ count, AgreeUpTo count element element)
    {found : List α} {comma : Token} (hcomma : comma.kind = .comma) {a : α}
    (ha : element tokens = .ok a rest) :
    moreElements element found (comma :: tokens) = moreElements element (a :: found) rest :=
  iterate_of_some (nextElement_advances hreads)
    (nextElement_eq_ok_some.mpr ⟨comma, tokens, a, hcomma, rfl, ha, rfl⟩)

theorem moreElements_of_closing {element : Parser α}
    (hreads : ∀ count, AgreeUpTo count element element) {found : List α}
    (hclosing : ∀ token ∈ rest.head?, token.kind ≠ .comma) :
    moreElements element found rest = .ok found rest :=
  iterate_of_none (nextElement_advances hreads) (nextElement_eq_ok_none.mpr ⟨rfl, hclosing⟩)

/-- A list with elements is read once its first element is and the others are. -/
theorem listUpTo_filled {closing : ParseError.Required} {element : Parser α} {close : Token}
    (hclose : close.kind = closing.kind) (hne : ∀ token ∈ tokens.head?, token.kind ≠ closing.kind)
    {first : α} {found : List α} {middle : List Token} (hfirst : element tokens = .ok first middle)
    (hmore : moreElements element [first] middle = .ok found (close :: rest)) :
    listUpTo closing element tokens = .ok found.reverse rest := by
  have helements : elements element tokens = .ok found.reverse (close :: rest) := by
    unfold elements
    rw [bind_of_ok hfirst, bind_of_ok hmore]
    rfl
  unfold listUpTo
  dsimp only [Steps.accept, Steps.require]
  rw [bind_of_ok (accept_eq_ok_false.mpr ⟨rfl, hne⟩)]
  simp only [Bool.false_eq_true, if_false]
  rw [bind_of_ok helements, bind_of_ok (require_eq_ok.mpr ⟨hclose, rfl⟩)]
  rfl

theorem listUpTo_empty {closing : ParseError.Required} {element : Parser α} {close : Token}
    (hclose : close.kind = closing.kind) :
    listUpTo closing element (close :: rest) = .ok [] rest := by
  rw [listUpTo_cons, if_pos hclose]

section Lists

variable {closing : ParseError.Required} {element : Parser α} {IsElement : List Token → α → Prop}

/-- Elements with commas between them are read up to the closing token, if each of them is
read up to a comma or to the closing token. -/
theorem Separated.complete (hreads : ∀ count, AgreeUpTo count element element)
    (helement : ∀ {c a token rest}, IsElement c a →
      token.kind = .comma ∨ token.kind = closing.kind →
        element (c ++ token :: rest) = .ok a (token :: rest))
    (hcomma : closing.kind ≠ .comma) {close : Token} (hclose : close.kind = closing.kind)
    {c : List Token} {as : List α} (h : Separated IsElement c as) :
    ∃ first middle, element (c ++ close :: rest) = .ok first middle ∧ ∀ found,
      moreElements element (first :: found) middle = .ok (as.reverse ++ found) (close :: rest) := by
  induction h with
  | @last c a ha =>
      have hend : ∀ token ∈ (close :: rest).head?, token.kind ≠ .comma := by
        simpa [hclose] using hcomma
      exact ⟨a, close :: rest, helement ha (.inr hclose),
        fun found => moreElements_of_closing hreads hend⟩
  | @more c a comma d as ha hkind _ ih =>
      obtain ⟨first, middle, hfirst, hmore⟩ := ih
      refine ⟨a, comma :: (d ++ close :: rest), ?_, fun found => ?_⟩
      · rw [List.append_assoc, List.cons_append]
        exact helement ha (.inl hkind)
      · rw [moreElements_cons hreads hkind hfirst, hmore]
        simp

theorem ListBehind.complete (closing : ParseError.Required)
    (hreads : ∀ count, AgreeUpTo count element element)
    (helement : ∀ {c a token rest}, IsElement c a →
      token.kind = .comma ∨ token.kind = closing.kind →
        element (c ++ token :: rest) = .ok a (token :: rest))
    (hstarts : ∀ {c a}, IsElement c a →
      ∃ token others, c = token :: others ∧ token.kind ≠ closing.kind)
    (hcomma : closing.kind ≠ .comma) {c : List Token} {as : List α}
    (h : ListBehind closing.kind IsElement c as) :
    listUpTo closing element (c ++ rest) = .ok as rest := by
  cases h with
  | empty hclose => exact listUpTo_empty hclose
  | @filled c _ close has hclose =>
      obtain ⟨first, middle, hfirst, hmore⟩ := has.complete hreads helement hcomma hclose
      -- No element begins with the closing token, so the list is not taken for empty.
      have hopening : ∃ token others, c = token :: others ∧ token.kind ≠ closing.kind := by
        cases has with
        | last ha => exact hstarts ha
        | more ha =>
            obtain ⟨token, others, rfl, hkind⟩ := hstarts ha
            exact ⟨token, _, rfl, hkind⟩
      obtain ⟨token, others, rfl, hkind⟩ := hopening
      rw [List.append_assoc, ← List.reverse_reverse as]
      exact listUpTo_filled hclose (by simpa using hkind) hfirst (by simpa using hmore [])

end Lists

theorem parameters_complete {c : List Token} {params : List String}
    (h : ListBehind .rightParen IsParameter c params) :
    listUpTo (m := Parser) .closeParen parameter (c ++ rest) = .ok params rest := by
  refine ListBehind.complete .closeParen
    (fun count => parameter_related (AgreeUpTo.congruence count)) ?_ ?_ (by decide) h
  · intro c name next rest hname _
    obtain ⟨token, hkind, rfl, rfl⟩ := hname
    unfold parameter
    dsimp only [Steps.require]
    rw [List.singleton_append, bind_of_ok (require_eq_ok.mpr ⟨hkind, rfl⟩)]
    rfl
  · intro c name hname
    obtain ⟨token, hkind, rfl, rfl⟩ := hname
    exact ⟨token, [], rfl, by simp [hkind, ParseError.Required.kind]⟩

theorem Stops.of_token {floor : Precedence} {dangling : Bool} {token : Token}
    (hrank : (Precedence.of token.kind).rank ≤ floor.rank) (hkind : token.kind ≠ .elseWord) :
    Stops floor dangling (token :: rest) := by
  intro next hnext
  cases hnext
  exact ⟨hrank, fun _ => hkind⟩

theorem Stops.of_closing {dangling : Bool} {token : Token}
    (h : token.kind ∈ [Token.Kind.rightParen, .rightBracket, .rightBrace, .comma, .semicolon]) :
    Stops .lowest dangling (token :: rest) := by
  refine .of_token ?_ ?_
  all_goals
    revert h
    cases token.kind <;> decide

/-- What the loop over continuations yields is the expression, if it stops there. -/
theorem expr_of_loop {layer : Precedence} {c : List Token} {e : Expr Unit} {dangling : Bool}
    (hloop : ∀ floor : Precedence, floor.rank ≤ layer.rank →
      expr unlimited floor (c ++ rest) = iterate (extend unlimited floor) e rest)
    (hstops : Stops layer dangling rest) : unlimited.expr layer (c ++ rest) = .ok e rest := by
  rw [unlimited_expr, hloop layer (Nat.le_refl _)]
  exact iterate_extend_of_stops hstops

theorem rank_le_reach (layer : Precedence) (h : layer.rank ≤ Precedence.unary.rank) :
    layer.rank ≤ layer.reach.rank := by
  revert h
  cases layer <;> decide

theorem IsExpr.rank_le {layer : Precedence} {c : List Token} {e : Expr Unit} {dangling : Bool}
    (h : IsExpr layer c e dangling) : layer.rank ≤ Precedence.unary.rank := by
  cases h with
  | operand hnext | chain _ _ hnext =>
      obtain ⟨_, hlt, hle⟩ := Precedence.operands?_eq_some hnext
      exact Nat.le_trans (Nat.le_of_lt hlt) hle
  | unary | postfixed => exact Nat.le_refl _

section Parts

variable {inner : Nested} {token : Token} {e left : Expr Unit}

theorem continued_operator {op : BinaryOp} (h : inner.expr op.precedence tokens = .ok e rest) :
    continued inner left (.operator op) tokens = .ok (.binary left op e) rest := by
  simp only [continued]
  rw [bind_of_ok h]
  rfl

theorem continued_call {args : List (Expr Unit)}
    (h : listUpTo .closeParen (inner.expr .lowest) tokens = .ok args rest) :
    continued inner left .call tokens = .ok (.call left args) rest := by
  simp only [continued]
  rw [bind_of_ok h]
  rfl

theorem continued_index (h : inner.expr .lowest tokens = .ok e (token :: rest))
    (htoken : token.kind = .rightBracket) :
    continued inner left .index tokens = .ok (.index left e) rest := by
  simp only [continued, Steps.require]
  rw [bind_of_ok h, bind_of_ok (require_eq_ok.mpr ⟨htoken, rfl⟩)]
  rfl

theorem operand_unary {op : UnaryOp} (hop : UnaryOp.ofKind? token.kind = some op)
    (h : inner.expr .unary tokens = .ok e rest) :
    operand inner token tokens = .ok (.unary op e) rest := by
  rw [operand_apply]
  revert hop
  cases token.kind <;> simp only [UnaryOp.ofKind?, reduceCtorEq, Option.some.injEq, false_implies]
  all_goals
    rintro rfl
    rw [bind_of_ok h]
    rfl

theorem operand_group (htoken : token.kind = .leftParen) {closing : Token}
    (h : inner.expr .lowest tokens = .ok e (closing :: rest))
    (hclosing : closing.kind = .rightParen) : operand inner token tokens = .ok e rest := by
  simp only [operand_apply, htoken]
  rw [bind_of_ok h, bind_of_ok (require_eq_ok.mpr ⟨hclosing, rfl⟩)]
  rfl

/-- The part of a choice up to its first block, and what then comes of the rest. -/
theorem operand_choice (htoken : token.kind = .ifWord) {opening closing : Token}
    (hopening : opening.kind = .leftParen)
    (htest : inner.expr .lowest tokens = .ok e (closing :: rest))
    (hclosing : closing.kind = .rightParen) {yes : Program Unit} {behind : List Token}
    (hyes : inner.block rest = .ok yes behind) :
    operand inner token (opening :: tokens) =
      (do
        if ← accept .elseWord then
          return .cond e yes (some (← inner.block))
        else return .cond e yes none : Parser (Expr Unit)) behind := by
  simp only [operand_apply, htoken, choice, Steps.require, Steps.accept]
  rw [bind_of_ok (require_eq_ok.mpr ⟨hopening, rfl⟩), bind_of_ok htest,
    bind_of_ok (require_eq_ok.mpr ⟨hclosing, rfl⟩), bind_of_ok hyes]

theorem operand_function (htoken : token.kind = .fnWord) {opening : Token}
    (hopening : opening.kind = .leftParen) {params : List String} {body : Program Unit}
    {behind : List Token}
    (hparams : listUpTo (m := Parser) .closeParen parameter tokens = .ok params behind)
    (hbody : inner.block behind = .ok body rest) :
    operand inner token (opening :: tokens) = .ok (.fn () params body) rest := by
  simp only [operand_apply, htoken, function, Steps.require]
  rw [bind_of_ok (require_eq_ok.mpr ⟨hopening, rfl⟩), bind_of_ok hparams, bind_of_ok hbody]
  rfl

theorem operand_array (htoken : token.kind = .leftBracket) {es : List (Expr Unit)}
    (h : listUpTo .closeBracket (inner.expr .lowest) tokens = .ok es rest) :
    operand inner token tokens = .ok (.array es) rest := by
  simp only [operand_apply, htoken]
  rw [bind_of_ok h]
  rfl

theorem statement_bind {start name assign : Token} (hstart : start.kind = .letWord)
    (hname : name.kind = .ident) (hassign : assign.kind = .assign)
    (h : inner.expr .lowest tokens = .ok e rest) :
    statement inner (start :: name :: assign :: tokens) = .ok (.bind name.lexeme e) rest := by
  simp only [statement_cons, hstart]
  rw [bind_of_ok (require_eq_ok.mpr ⟨hname, rfl⟩), bind_of_ok (require_eq_ok.mpr ⟨hassign, rfl⟩),
    bind_of_ok h]
  rfl

theorem statement_ret (htoken : token.kind = .returnWord)
    (h : inner.expr .lowest tokens = .ok e rest) :
    statement inner (token :: tokens) = .ok (.ret e) rest := by
  simp only [statement_cons, htoken]
  rw [bind_of_ok h]
  rfl

theorem statement_block (htoken : token.kind = .leftBrace) {items : Program Unit}
    (h : inner.block (token :: tokens) = .ok items rest) :
    statement inner (token :: tokens) = .ok (.block items) rest := by
  simp only [statement_cons, htoken]
  rw [bind_of_ok h]
  rfl

theorem statement_expr (htoken : token.kind ∈ operandKinds)
    (h : inner.expr .lowest (token :: tokens) = .ok e rest) :
    statement inner (token :: tokens) = .ok (.expr e) rest := by
  have hexpr : statement inner (token :: tokens) =
      (do return .expr (← inner.expr .lowest) : Parser (Item Unit)) (token :: tokens) := by
    rw [statement_cons]
    revert htoken
    cases token.kind <;> simp [operandKinds]
  rw [hexpr, bind_of_ok h]
  rfl

end Parts

mutual

theorem IsExpr.complete {layer : Precedence} {c : List Token} {e : Expr Unit} {dangling : Bool} :
    IsExpr layer c e dangling → ∀ {rest : List Token}, Stops layer.reach dangling rest →
      ∀ {floor : Precedence}, floor.rank ≤ layer.rank →
        expr unlimited floor (c ++ rest) = iterate (extend unlimited floor) e rest
  | .operand hnext he, rest, hstops, floor, hfloor => by
      obtain ⟨hreach, hlt, hle⟩ := Precedence.operands?_eq_some hnext
      rw [hreach] at hstops
      exact he.complete (hstops.mono (rank_le_reach _ hle))
        (Nat.le_trans hfloor (Nat.le_of_lt hlt))
  | @IsExpr.chain _ c left _ token op d right _ hleft hop hlayer hright, rest, hstops, floor,
      hfloor => by
      have hkind := Continuation.ofKind?_of_operator hop
      have hne : token.kind ≠ .elseWord := by
        intro helse
        rw [helse] at hop
        cases hop
      obtain ⟨hreach, hlt, hle⟩ := Precedence.operands?_eq_some hlayer
      -- The left part stops before the operator, whose right part the loop then reads.
      have hof : (Precedence.of token.kind).rank ≤ layer.reach.rank := by
        rw [Precedence.of_eq hkind, hreach]
        exact Nat.le_refl _
      rw [hreach] at hstops
      have hoperand : unlimited.expr op.precedence (d ++ rest) = .ok right rest :=
        expr_of_loop (fun _ => hright.complete (hstops.mono (rank_le_reach _ hle))) hstops
      rw [List.append_assoc, List.cons_append, hleft.complete (.of_token hof hne) hfloor]
      exact iterate_extend_cons hkind (Nat.lt_of_le_of_lt hfloor hlt) (continued_operator hoperand)
  | .unary hop he, rest, hstops, floor, hfloor => by
      have hoperand := expr_of_loop (fun _ => he.complete hstops) hstops
      rw [List.cons_append, expr_cons, bind_of_ok (operand_unary hop hoperand)]
  | .postfixed he, rest, hstops, floor, hfloor =>
      he.complete (fun hdangling next hnext => (hstops next hnext).2 hdangling) hfloor

theorem IsPostfixed.complete {c : List Token} {e : Expr Unit} {dangling : Bool} :
    IsPostfixed c e dangling → ∀ {rest : List Token},
      (dangling = true → ∀ next ∈ rest.head?, next.kind ≠ .elseWord) →
      ∀ {floor : Precedence}, floor.rank ≤ Precedence.unary.rank →
        expr unlimited floor (c ++ rest) = iterate (extend unlimited floor) e rest
  | .primary he, rest, hstop, floor, _ => by
      obtain ⟨token, others, rfl, hoperand⟩ := he.complete hstop
      rw [List.cons_append, expr_cons, bind_of_ok hoperand]
  | @IsPostfixed.call c callee _ opening d args hcallee hopening hargs, rest, _, floor, hfloor => by
      have hkind : Continuation.ofKind? opening.kind = some .call := by rw [hopening]; rfl
      have hlist : listUpTo .closeParen (unlimited.expr .lowest) (d ++ rest) = .ok args rest :=
        hargs.complete rfl (by decide)
      rw [List.append_assoc, List.cons_append, hcallee.complete (by simp [hopening]) hfloor]
      exact iterate_extend_cons hkind (Nat.lt_succ_of_le hfloor) (continued_call hlist)
  | @IsPostfixed.index c base _ opening d position dangling' closing hbase hopening hposition
      hclosing, rest, _, floor, hfloor => by
      have hkind : Continuation.ofKind? opening.kind = some .index := by rw [hopening]; rfl
      have hstops : Stops .lowest dangling' (closing :: rest) := .of_closing (by simp [hclosing])
      have hexpr := expr_of_loop (fun _ => hposition.complete (hstops.mono (by decide))) hstops
      rw [List.append_assoc, List.cons_append, List.append_assoc, List.singleton_append,
        hbase.complete (by simp [hopening]) hfloor]
      exact iterate_extend_cons hkind (Nat.lt_succ_of_lt (Nat.lt_succ_of_le hfloor))
        (continued_index hexpr hclosing)

theorem IsPrimary.complete {c : List Token} {e : Expr Unit} {dangling : Bool} :
    IsPrimary c e dangling → ∀ {rest : List Token},
      (dangling = true → ∀ next ∈ rest.head?, next.kind ≠ .elseWord) →
        ∃ token others, c = token :: others ∧
          operand unlimited token (others ++ rest) = .ok e rest
  | .name h, rest, _ => ⟨_, [], rfl, by rw [operand_apply, h]; rfl⟩
  | .int h hn, rest, _ => ⟨_, [], rfl, by simp only [operand_apply, h, hn]; rfl⟩
  | .text h, rest, _ => ⟨_, [], rfl, by rw [operand_apply, h]; rfl⟩
  | .yes h, rest, _ => ⟨_, [], rfl, by rw [operand_apply, h]; rfl⟩
  | .no h, rest, _ => ⟨_, [], rfl, by rw [operand_apply, h]; rfl⟩
  | @IsPrimary.group opening c _ dangling' closing hopening he hclosing, rest, _ => by
      have hstops : Stops .lowest dangling' (closing :: rest) := .of_closing (by simp [hclosing])
      have hexpr := expr_of_loop (fun _ => he.complete (hstops.mono (by decide))) hstops
      refine ⟨opening, c ++ [closing], rfl, ?_⟩
      rw [List.append_assoc]
      exact operand_group hopening hexpr hclosing
  | @IsPrimary.choice start opening c test dangling' closing d yes hstart hopening htest hclosing
      hyes, rest, hstop => by
      have hstops : Stops .lowest dangling' (closing :: (d ++ rest)) :=
        .of_closing (by simp [hclosing])
      have hexpr := expr_of_loop (fun _ => htest.complete (hstops.mono (by decide))) hstops
      refine ⟨start, opening :: (c ++ closing :: d), rfl, ?_⟩
      rw [List.cons_append, List.append_assoc, List.cons_append,
        operand_choice hstart hopening hexpr hclosing hyes.complete,
        bind_of_ok (accept_eq_ok_false.mpr ⟨rfl, hstop rfl⟩)]
      rfl
  | @IsPrimary.choiceElse start opening c test dangling' closing d yes middle d' no hstart hopening
      htest hclosing hyes hmiddle hno, rest, _ => by
      have hstops : Stops .lowest dangling' (closing :: (d ++ middle :: (d' ++ rest))) :=
        .of_closing (by simp [hclosing])
      have hexpr := expr_of_loop (fun _ => htest.complete (hstops.mono (by decide))) hstops
      refine ⟨start, opening :: (c ++ closing :: (d ++ middle :: d')), rfl, ?_⟩
      rw [List.cons_append, List.append_assoc, List.cons_append, List.append_assoc,
        List.cons_append, operand_choice hstart hopening hexpr hclosing hyes.complete,
        bind_of_ok (accept_eq_ok_true.mpr ⟨middle, hmiddle, rfl⟩)]
      simp only [if_true]
      rw [bind_of_ok hno.complete]
      rfl
  | @IsPrimary.function start opening c params d body hstart hopening hparams hbody, rest, _ => by
      refine ⟨start, opening :: (c ++ d), rfl, ?_⟩
      rw [List.cons_append, List.append_assoc]
      exact operand_function hstart hopening (parameters_complete hparams) hbody.complete
  | @IsPrimary.array opening c elements hopening helements, rest, _ =>
      ⟨opening, c, rfl, operand_array hopening (helements.complete rfl (by decide))⟩

theorem IsArguments.complete {kind : Token.Kind} {c : List Token} {args : List (Expr Unit)} :
    IsArguments kind c args → ∀ {rest : List Token} {closing : ParseError.Required},
      closing.kind = kind → closing.kind ∈ [Token.Kind.rightParen, .rightBracket] →
        listUpTo closing (unlimited.expr .lowest) (c ++ rest) = .ok args rest
  | .empty hclose, rest, closing, hclosing, _ => listUpTo_empty (hclose.trans hclosing.symm)
  | @IsArguments.filled _ c args close hes hclose, rest, closing, hclosing, hkinds => by
      have hrest : ∀ token ∈ (close :: rest).head?,
          token.kind ≠ .comma ∧ ∀ dangling, Stops .lowest dangling (close :: rest) := by
        intro token htoken
        cases htoken
        rw [hclosing, ← hclose] at hkinds
        constructor
        · intro hcomma
          rw [hcomma] at hkinds
          simp at hkinds
        · intro dangling
          refine .of_closing ?_
          revert hkinds
          simp only [List.mem_cons]
          grind
      obtain ⟨first, middle, hfirst, hmore⟩ := hes.complete
        (fun token htoken => (hrest token htoken).1) (hrest close rfl).2
      -- No expression begins with a closing bracket, so the list is not taken for empty.
      have hopening : ∀ token ∈ (c ++ close :: rest).head?, token.kind ≠ closing.kind := by
        obtain ⟨token, others, rfl, hkind⟩ := hes.starts
        intro next hnext heq
        cases hnext
        rw [heq] at hkind
        revert hkind hkinds
        cases closing <;> decide
      rw [List.append_assoc, ← List.reverse_reverse args]
      exact listUpTo_filled (hclose.trans hclosing.symm) hopening hfirst (by simpa using hmore [])

theorem IsElements.complete {c : List Token} {es : List (Expr Unit)} :
    IsElements c es → ∀ {rest : List Token}, (∀ token ∈ rest.head?, token.kind ≠ .comma) →
      (∀ dangling, Stops .lowest dangling rest) →
        ∃ first middle, unlimited.expr .lowest (c ++ rest) = .ok first middle ∧ ∀ found,
          moreElements (unlimited.expr .lowest) (first :: found) middle =
            .ok (es.reverse ++ found) rest
  | @IsElements.last c e dangling he, rest, hrest, hstops => by
      have hexpr := expr_of_loop (fun _ => he.complete ((hstops dangling).mono (by decide)))
        (hstops dangling)
      refine ⟨e, rest, hexpr, fun found => ?_⟩
      exact moreElements_of_closing (fun count => (unlimited_reading.suffix count).expr .lowest)
        hrest
  | @IsElements.more c e dangling comma d es he hcomma hes, rest, hrest, hstops => by
      have hstop : Stops .lowest dangling (comma :: (d ++ rest)) := .of_closing (by simp [hcomma])
      have hexpr := expr_of_loop (fun _ => he.complete (hstop.mono (by decide))) hstop
      obtain ⟨first, middle, hfirst, hmore⟩ := hes.complete hrest hstops
      refine ⟨e, comma :: (d ++ rest), ?_, fun found => ?_⟩
      · rw [List.append_assoc, List.cons_append]
        exact hexpr
      · rw [moreElements_cons (fun count => (unlimited_reading.suffix count).expr .lowest) hcomma
          hfirst, hmore]
        simp

theorem IsBlock.complete {c : List Token} {items : Program Unit} :
    IsBlock c items → ∀ {rest : List Token}, unlimited.block (c ++ rest) = .ok items rest
  | @IsBlock.braces opening c items closing hopening hitems hclosing, rest => by
      have hend : iterate (oneMore unlimited) [] (c ++ closing :: rest) =
          .ok (items.reverse ++ []) (closing :: rest) :=
        hitems.complete hclosing []
      rw [unlimited_block, List.cons_append, List.append_assoc, List.singleton_append]
      unfold block
      dsimp only [Steps.require, Steps.iterate]
      rw [bind_of_ok (require_eq_ok.mpr ⟨hopening, rfl⟩), bind_of_ok hend,
        bind_of_ok (require_eq_ok.mpr ⟨hclosing, rfl⟩)]
      simp only [List.append_nil, List.reverse_reverse]
      rfl

theorem IsItems.complete {c : List Token} {items : Program Unit} :
    IsItems c items → ∀ {close : Token} {rest : List Token}, close.kind = .rightBrace → ∀ found,
      iterate (oneMore unlimited) found (c ++ close :: rest) =
        .ok (items.reverse ++ found) (close :: rest)
  | .nil, close, rest, hclose, found =>
      iterate_of_none (oneMore_advances unlimited_reading)
        ((oneMore_eq_ok_none unlimited).mpr ⟨rfl, by simp [hclose]⟩)
  | @IsItems.cons c item ending d items hitem hitems hjoint, close, rest, hclose, found => by
      -- Neither the items behind it nor the closing brace belong to the item.
      have hstops : ending.Stops (d ++ close :: rest) :=
        hitems.stops_before (by simp [hclose]) hjoint
      have hone := hitem.complete hstops
      have hstart : ∃ token ∈ (c ++ (d ++ close :: rest)).head?, token.kind ≠ .rightBrace := by
        obtain ⟨token, others, rfl, hkind⟩ := hitem.starts
        refine ⟨token, rfl, fun heq => ?_⟩
        rw [heq] at hkind
        exact absurd hkind (by decide)
      have hround : oneMore unlimited found (c ++ (d ++ close :: rest)) =
          .ok (some (item :: found)) (d ++ close :: rest) :=
        (oneMore_eq_ok_some unlimited).mpr ⟨hstart, item, hone, rfl⟩
      rw [List.append_assoc, iterate_of_some (oneMore_advances unlimited_reading) hround,
        hitems.complete hclose]
      simp

theorem IsItem.complete {c : List Token} {item : Item Unit} {ending : Ending} :
    IsItem c item ending → ∀ {rest : List Token}, ending.Stops rest →
      Grammar.item unlimited (c ++ rest) = .ok item rest
  | .bare hitem, rest, hstops => by
      have hstatement := hitem.complete (fun dangling heq => (heq ▸ hstops).1)
      have hnone : accept .semicolon rest = .ok false rest :=
        accept_eq_ok_false.mpr ⟨rfl, hitem.stops_semicolon hstops⟩
      unfold Grammar.item
      dsimp only [Steps.accept]
      rw [bind_of_ok hstatement, bind_of_ok hnone]
      rfl
  | @IsItem.terminated c item ending token hitem htoken, rest, _ => by
      have hstatement : statement unlimited (c ++ token :: rest) = .ok item (token :: rest) :=
        hitem.complete (fun dangling _ => .of_closing (by simp [htoken]))
      have hsome : accept .semicolon (token :: rest) = .ok true rest :=
        accept_eq_ok_true.mpr ⟨token, htoken, rfl⟩
      unfold Grammar.item
      dsimp only [Steps.accept]
      rw [List.append_assoc, List.singleton_append, bind_of_ok hstatement, bind_of_ok hsome]
      rfl

theorem IsStatement.complete {c : List Token} {item : Item Unit} {ending : Ending} :
    IsStatement c item ending → ∀ {rest : List Token},
      (∀ dangling, ending = .expression dangling → Stops .lowest dangling rest) →
        statement unlimited (c ++ rest) = .ok item rest
  | .bind hstart hname hassign hinit, rest, hstops => by
      have hstop := hstops _ rfl
      exact statement_bind hstart hname hassign
        (expr_of_loop (fun _ => hinit.complete (hstop.mono (by decide))) hstop)
  | .ret hstart he, rest, hstops => by
      have hstop := hstops _ rfl
      exact statement_ret hstart
        (expr_of_loop (fun _ => he.complete (hstop.mono (by decide))) hstop)
  | @IsStatement.block c items hitems, rest, _ => by
      have hblock : unlimited.block (c ++ rest) = .ok items rest := hitems.complete
      obtain ⟨token, others, hc, hkind⟩ := hitems.starts
      rw [hc] at hblock ⊢
      exact statement_block hkind hblock
  | .expr he, rest, hstops => by
      have hstop := hstops _ rfl
      have hexpr := expr_of_loop (fun _ => he.complete (hstop.mono (by decide))) hstop
      obtain ⟨token, others, hc, hkind⟩ := he.starts
      rw [hc] at hexpr ⊢
      exact statement_expr hkind hexpr

end

end Grammar

end Scriptlet
