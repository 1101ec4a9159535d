import Scriptlet.Proofs.Parser.Outcome
import Scriptlet.Program.Grammar

/-!
# The grammar by its first token

What each parser of the grammar does is decided by the first token that it finds.
The steps of its repetitions are taken apart further, into when they go on and when
they end.
-/

namespace Scriptlet

theorem Precedence.of_eq {kind : Token.Kind} {continuation : Continuation}
    (h : Continuation.ofKind? kind = some continuation) :
    Precedence.of kind = continuation.precedence := by
  simp [Precedence.of, h]

theorem Precedence.of_eq_lowest {kind : Token.Kind} (h : Continuation.ofKind? kind = none) :
    Precedence.of kind = .lowest := by
  simp [Precedence.of, h]

theorem Continuation.ofKind?_of_operator {kind : Token.Kind} {op : BinaryOp}
    (h : BinaryOp.ofKind? kind = some op) : ofKind? kind = some (.operator op) := by
  revert h
  cases kind <;> simp [ofKind?, BinaryOp.ofKind?]

/-- The token that begins a continuation. -/
def Continuation.Begins (kind : Token.Kind) : Continuation → Prop
  | .operator op => BinaryOp.ofKind? kind = some op
  | .call => kind = .leftParen
  | .index => kind = .leftBracket

theorem Continuation.begins_of_kind {kind : Token.Kind} {continuation : Continuation}
    (h : ofKind? kind = some continuation) : continuation.Begins kind := by
  revert h
  cases kind <;> simp only [ofKind?, BinaryOp.ofKind?, Option.map_some, Option.map_none,
    Option.some.injEq, reduceCtorEq, false_implies]
  all_goals
    rintro rfl
    rfl

namespace Grammar

open Scriptlet.Parser

variable {α : Type} {tokens rest : List Token} (inner : Nested)

theorem nextElement_cons (element : Parser α) (found : List α) (token : Token)
    (behind : List Token) :
    nextElement element found (token :: behind) =
      if token.kind = .comma then
        (do return some ((← element) :: found) : Parser (Option (List α))) behind
      else .ok none (token :: behind) := by
  unfold nextElement
  dsimp only [Steps.accept]
  by_cases h : token.kind = .comma
  · rw [bind_of_ok (accept_eq_ok_true.mpr ⟨token, h, rfl⟩), if_pos h]
    rfl
  · rw [bind_of_ok (accept_eq_ok_false.mpr ⟨rfl, by simpa using h⟩), if_neg h]
    rfl

theorem nextElement_eq_ok_some {element : Parser α} {found next : List α} :
    nextElement element found tokens = .ok (some next) rest ↔
      ∃ comma behind a, comma.kind = .comma ∧ tokens = comma :: behind ∧
        element behind = .ok a rest ∧ next = a :: found := by
  cases tokens with
  | nil => simp [nextElement, Steps.accept, accept, bind_eq_ok, pure_eq_ok]
  | cons comma behind =>
      rw [nextElement_cons]
      split
      · rename_i hcomma
        simp only [bind_eq_ok, pure_eq_ok, Option.some.injEq, List.cons.injEq]
        constructor
        · intro hok
          obtain ⟨a, _, helement, rfl, rfl⟩ := hok
          exact ⟨comma, behind, a, hcomma, ⟨rfl, rfl⟩, helement, rfl⟩
        · intro hok
          obtain ⟨_, _, a, _, ⟨rfl, rfl⟩, helement, rfl⟩ := hok
          exact ⟨a, rest, helement, rfl, rfl⟩
      · rename_i hcomma
        simp only [EStateM.Result.ok.injEq, reduceCtorEq, false_and, false_iff, List.cons.injEq]
        intro hok
        obtain ⟨_, _, _, hkind, ⟨rfl, _⟩, _⟩ := hok
        exact hcomma hkind

theorem nextElement_eq_ok_none {element : Parser α} {found : List α} :
    nextElement element found tokens = .ok none rest ↔
      tokens = rest ∧ ∀ token ∈ rest.head?, token.kind ≠ .comma := by
  cases tokens with
  | nil => exact ok_eq_ok_iff_head none (by simp)
  | cons comma behind =>
      rw [nextElement_cons]
      by_cases hcomma : comma.kind = .comma
      · simp only [hcomma, if_true, bind_eq_ok, pure_eq_ok, reduceCtorEq, false_and, and_false,
          exists_false, false_iff]
        intro hrest
        obtain ⟨rfl, hnot⟩ := hrest
        exact hnot comma rfl hcomma
      · rw [if_neg hcomma]
        exact ok_eq_ok_iff_head none (by simpa using hcomma)

theorem listUpTo_cons (closing : ParseError.Required) (element : Parser α) (token : Token)
    (behind : List Token) :
    listUpTo closing element (token :: behind) =
      if token.kind = closing.kind then .ok [] behind
      else
        (do
          let found ← elements element
          let _ ← require closing
          return found : Parser (List α)) (token :: behind) := by
  unfold listUpTo
  dsimp only [Steps.accept]
  by_cases h : token.kind = closing.kind
  · rw [bind_of_ok (accept_eq_ok_true.mpr ⟨token, h, rfl⟩), if_pos h]
    rfl
  · rw [bind_of_ok (accept_eq_ok_false.mpr ⟨rfl, by simpa using h⟩), if_neg h]
    rfl

theorem operand_apply (token : Token) (behind : List Token) :
    operand inner token behind =
      match token.kind with
      | .ident => .ok (.var token.lexeme) behind
      | .int =>
          match Integer.read? token.lexeme.toList with
          | some n => .ok (.lit (.int n)) behind
          | none => failBehind .integerOutOfRange token behind
      | .string => .ok (.lit (.text token.lexeme)) behind
      | .trueWord => .ok (.lit (.bool true)) behind
      | .falseWord => .ok (.lit (.bool false)) behind
      | .bang => (do return .unary .not (← inner.expr .unary) : Parser (Expr Unit)) behind
      | .minus => (do return .unary .negate (← inner.expr .unary) : Parser (Expr Unit)) behind
      | .leftParen =>
          (do
            let e ← inner.expr .lowest
            let _ ← require .closeParen
            return e : Parser (Expr Unit)) behind
      | .ifWord => choice inner behind
      | .fnWord => function inner behind
      | .leftBracket =>
          (do return .array (← listUpTo .closeBracket (inner.expr .lowest)) :
            Parser (Expr Unit)) behind
      | _ => failBehind .noExpression token behind := by
  obtain ⟨kind, line, lexeme⟩ := token
  cases kind with
  | int =>
      simp only [operand]
      cases Integer.read? lexeme.toList <;> rfl
  | _ => rfl

theorem extend_cons (floor : Precedence) (left : Expr Unit) (token : Token)
    (behind : List Token) :
    extend inner floor left (token :: behind) =
      match Continuation.ofKind? token.kind with
      | none => .ok none (token :: behind)
      | some continuation =>
          if continuation.precedence.rank ≤ floor.rank then .ok none (token :: behind)
          else (do return some (← continued inner left continuation) :
            Parser (Option (Expr Unit))) behind := by
  unfold extend
  dsimp only [Steps.peek?]
  rw [bind_of_ok (peek?_eq_ok.mpr ⟨rfl, rfl⟩)]
  change (pure (Continuation.ofKind? token.kind) >>= _ : Parser _) (token :: behind) = _
  rw [pure_bind]
  cases Continuation.ofKind? token.kind with
  | none => rfl
  | some continuation =>
      by_cases h : continuation.precedence.rank ≤ floor.rank
      · simp only [if_pos h]
        rfl
      · simp only [if_neg h]
        rfl

theorem extend_eq_ok_some {floor : Precedence} {left e : Expr Unit} :
    extend inner floor left tokens = .ok (some e) rest ↔
      ∃ token behind continuation, tokens = token :: behind ∧
        Continuation.ofKind? token.kind = some continuation ∧
        floor.rank < continuation.precedence.rank ∧
        continued inner left continuation behind = .ok e rest := by
  cases tokens with
  | nil => simp [extend, Steps.peek?, bind_eq_ok, pure_eq_ok]
  | cons token behind =>
      rw [extend_cons]
      cases hkind : Continuation.ofKind? token.kind with
      | none => simp [hkind]
      | some continuation =>
          by_cases hrank : continuation.precedence.rank ≤ floor.rank
          · simp [hkind, hrank, Nat.not_lt_of_le hrank]
          · simp only [hrank, if_false, bind_eq_ok, pure_eq_ok, Option.some.injEq]
            constructor
            · intro hok
              obtain ⟨_, _, hcontinued, rfl, rfl⟩ := hok
              exact ⟨token, behind, continuation, rfl, hkind, Nat.lt_of_not_le hrank, hcontinued⟩
            · intro hok
              obtain ⟨_, _, _, ⟨⟩, hkind', _, hcontinued⟩ := hok
              cases hkind.symm.trans hkind'
              exact ⟨e, rest, hcontinued, rfl, rfl⟩

theorem extend_eq_ok_none {floor : Precedence} {left : Expr Unit} :
    extend inner floor left tokens = .ok none rest ↔
      tokens = rest ∧ ∀ token ∈ rest.head?, (Precedence.of token.kind).rank ≤ floor.rank := by
  cases tokens with
  | nil => exact ok_eq_ok_iff_head none (by simp)
  | cons token behind =>
      rw [extend_cons]
      cases hkind : Continuation.ofKind? token.kind with
      | none =>
          have hof := Precedence.of_eq_lowest hkind
          exact ok_eq_ok_iff_head none (by simp [hof, Precedence.rank])
      | some continuation =>
          have hof := Precedence.of_eq hkind
          by_cases hrank : continuation.precedence.rank ≤ floor.rank
          · simp only [hrank, if_true]
            exact ok_eq_ok_iff_head none (by simpa [hof] using hrank)
          · simp only [hrank, if_false, bind_eq_ok, pure_eq_ok, reduceCtorEq, false_and,
              and_false, exists_false, false_iff]
            intro hrest
            obtain ⟨rfl, hstop⟩ := hrest
            have hle := hstop token rfl
            rw [hof] at hle
            exact hrank hle

/-- Only what a continuation goes on with can fail. -/
theorem extend_eq_error {floor : Precedence} {left : Expr Unit} {error : ParseError}
    (h : extend inner floor left tokens = .error error rest) :
    ∃ token behind continuation, tokens = token :: behind ∧
      Continuation.ofKind? token.kind = some continuation ∧
      floor.rank < continuation.precedence.rank ∧
      continued inner left continuation behind = .error error rest := by
  cases tokens with
  | nil => cases h
  | cons token behind =>
      rw [extend_cons] at h
      split at h
      · cases h
      · rename_i continuation hkind
        split at h
        · cases h
        · rename_i hrank
          simp only [bind_eq_error, pure_ne_error, and_false, exists_false, or_false] at h
          exact ⟨token, behind, continuation, rfl, hkind, Nat.lt_of_not_le hrank, h⟩

theorem expr_cons (floor : Precedence) (token : Token) (behind : List Token) :
    expr inner floor (token :: behind) =
      (operand inner token >>= iterate (extend inner floor)) behind :=
  rfl

theorem statement_cons (token : Token) (behind : List Token) :
    statement inner (token :: behind) =
      match token.kind with
      | .letWord =>
          (do
            let name ← require .name
            let _ ← require .assign
            return .bind name.lexeme (← inner.expr .lowest) : Parser (Item Unit)) behind
      | .returnWord => (do return .ret (← inner.expr .lowest) : Parser (Item Unit)) behind
      | .leftBrace =>
          (do return .block (← inner.block) : Parser (Item Unit)) (token :: behind)
      | _ => (do return .expr (← inner.expr .lowest) : Parser (Item Unit)) (token :: behind) := by
  obtain ⟨kind, line, lexeme⟩ := token
  cases kind <;> rfl

theorem oneMore_cons (found : List (Item Unit)) (token : Token) (behind : List Token) :
    oneMore inner found (token :: behind) =
      if token.kind = .rightBrace then .ok none (token :: behind)
      else (do return some ((← item inner) :: found) : Parser (Option (List (Item Unit))))
        (token :: behind) := by
  obtain ⟨kind, line, lexeme⟩ := token
  cases kind <;> rfl

theorem oneMore_eq_ok_some {found next : List (Item Unit)} :
    oneMore inner found tokens = .ok (some next) rest ↔
      (∃ token ∈ tokens.head?, token.kind ≠ .rightBrace) ∧
        ∃ item, Grammar.item inner tokens = .ok item rest ∧ next = item :: found := by
  cases tokens with
  | nil => simp [oneMore, Steps.peek?, bind_eq_ok, pure_eq_ok]
  | cons token behind =>
      rw [oneMore_cons]
      by_cases hkind : token.kind = .rightBrace
      · simp [hkind]
      · simp only [hkind, if_false, bind_eq_ok, pure_eq_ok, Option.some.injEq]
        constructor
        · intro hok
          obtain ⟨item, _, hitem, rfl, rfl⟩ := hok
          exact ⟨⟨token, rfl, hkind⟩, item, hitem, rfl⟩
        · intro hok
          obtain ⟨_, item, hitem, rfl⟩ := hok
          exact ⟨item, rest, hitem, rfl, rfl⟩

theorem oneMore_eq_ok_none {found : List (Item Unit)} :
    oneMore inner found tokens = .ok none rest ↔
      tokens = rest ∧ ∀ token ∈ rest.head?, token.kind = .rightBrace := by
  cases tokens with
  | nil => exact ok_eq_ok_iff_head none (by simp)
  | cons token behind =>
      rw [oneMore_cons]
      by_cases hkind : token.kind = .rightBrace
      · rw [if_pos hkind]
        exact ok_eq_ok_iff_head none (by simpa using hkind)
      · simp only [hkind, if_false, bind_eq_ok, pure_eq_ok, reduceCtorEq, false_and, and_false,
          exists_false, false_iff]
        intro hrest
        obtain ⟨rfl, hend⟩ := hrest
        exact hkind (hend token rfl)

/-- Only reading an item can fail. -/
theorem oneMore_eq_error {found : List (Item Unit)} {error : ParseError}
    (h : oneMore inner found tokens = .error error rest) :
    Grammar.item inner tokens = .error error rest := by
  cases tokens with
  | nil => cases h
  | cons token behind =>
      rw [oneMore_cons] at h
      split at h
      · cases h
      · simpa only [bind_eq_error, pure_ne_error, and_false, exists_false, or_false] using h

end Grammar

end Scriptlet
