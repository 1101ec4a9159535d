import Scriptlet.Parser
import Scriptlet.Precedence

/-!
# The grammar of programs

An expression is an operand, continued by operators, calls and indexes for as
long as they bind more tightly than what stands before it. Every expression and
every block opens a level of nesting; within the innermost level allowed, to
open another one is an error. An item may end in a semicolon, and after an error
reading goes on with the next item.

The grammar is written over readers of any kind that can take a few steps and
that know the parts that open a level of nesting. Parsers are such readers.
-/

namespace Scriptlet

open ParseError (Cause Required)

/-- The number of levels of nesting that a program may open. -/
def maxNesting : Nat := 1024

/-- What readers of some kind do with the tokens to come. -/
class Steps (m : Type → Type) where
  /-- The next token, which stays unread. -/
  peek? : m (Option Token)
  /-- The next token, which is read. -/
  next? : m (Option Token)
  /-- Fails and blames the next token. -/
  failHere {α : Type} : Cause → m α
  /-- Fails and blames the token read last. -/
  failBehind {α : Type} : Cause → Token → m α
  /-- Reads the next token if it is of this kind, and says whether it was. -/
  accept : Token.Kind → m Bool
  /-- Reads the token that must come next. -/
  require : Required → m Token
  /-- Repeats a step until it has nothing to add. -/
  iterate {α : Type} : (α → m (Option α)) → α → m α
  /-- The operator that a token just read puts before an operand. -/
  unaryOp : Token → m UnaryOp
  /-- How a token goes on with an expression, if it does. -/
  continuation? : Token → m (Option Continuation)

/-- A token that is no operator begins no expression. -/
instance : Steps Parser where
  peek? := Parser.peek?
  next? := Parser.next?
  failHere := Parser.failHere
  failBehind := Parser.failBehind
  accept := Parser.accept
  require := Parser.require
  iterate := Parser.iterate
  unaryOp token :=
    match UnaryOp.ofKind? token.kind with
    | some op => return op
    | none => Parser.failBehind .noExpression token
  continuation? token := return Continuation.ofKind? token.kind

theorem Parser.unaryOp_of_kind {token : Token} {op : UnaryOp}
    (h : UnaryOp.ofKind? token.kind = some op) :
    (Steps.unaryOp token : Parser UnaryOp) = pure op := by
  simp only [Steps.unaryOp, h]

/-- The readers of the parts that open one more level of nesting. -/
structure Parts (m : Type → Type) where
  /-- An expression whose operators bind more tightly than the precedence. -/
  expr : Precedence → m (Expr Unit)
  block : m (Program Unit)

/-- The parsers that open one more level of nesting. -/
abbrev Nested := Parts Parser

namespace Grammar

open Steps

variable {m : Type → Type} [Monad m] [Steps m] {α : Type}

/-- Reads a further element of a list to those `found`, if a comma comes next. -/
def nextElement (element : m α) (found : List α) : m (Option (List α)) := do
  if ← accept .comma then
    return some ((← element) :: found)
  else return none

/-- Reads further elements of a list, each behind a comma, to those `found`, the
last of which comes first. -/
def moreElements (element : m α) (found : List α) : m (List α) :=
  iterate (nextElement element) found

/-- One or more elements, separated by commas. -/
def elements (element : m α) : m (List α) := do
  let first ← element
  return (← moreElements element [first]).reverse

/-- The list behind an opening bracket, up to the closing one. -/
def listUpTo (closing : Required) (element : m α) : m (List α) := do
  if ← accept closing.kind then
    return []
  else
    let found ← elements element
    let _ ← require closing
    return found

/-- A parameter of a function. -/
def parameter : m String := do
  return (← require .name).lexeme

variable (inner : Parts m)

/-- The rest of a choice, behind its keyword. -/
def choice : m (Expr Unit) := do
  let _ ← require .openParen
  let test ← inner.expr .lowest
  let _ ← require .closeParen
  let yes ← inner.block
  if ← accept .elseWord then
    return .cond test yes (some (← inner.block))
  else return .cond test yes none

/-- The rest of a function literal, behind its keyword. -/
def function : m (Expr Unit) := do
  let _ ← require .openParen
  let params ← listUpTo .closeParen parameter
  return .fn () params (← inner.block)

/-- The operand that begins with a token just read. -/
def operand (token : Token) : m (Expr Unit) :=
  match token.kind with
  | .ident => return .var token.lexeme
  | .int =>
      match Integer.read? token.lexeme.toList with
      | some n => return .lit (.int n)
      | none => failBehind .integerOutOfRange token
  | .string => return .lit (.text token.lexeme)
  | .trueWord => return .lit (.bool true)
  | .falseWord => return .lit (.bool false)
  | .bang | .minus => do
      let op ← unaryOp token
      return .unary op (← inner.expr .unary)
  | .leftParen => do
      let e ← inner.expr .lowest
      let _ ← require .closeParen
      return e
  | .ifWord => choice inner
  | .fnWord => function inner
  | .leftBracket => return .array (← listUpTo .closeBracket (inner.expr .lowest))
  | _ => failBehind .noExpression token

/-- The rest of an expression whose left part ends before a token just read. -/
def continued (left : Expr Unit) : Continuation → m (Expr Unit)
  | .operator op => return .binary left op (← inner.expr op.precedence)
  | .call => return .call left (← listUpTo .closeParen (inner.expr .lowest))
  | .index => do
      let position ← inner.expr .lowest
      let _ ← require .closeBracket
      return .index left position

/-- Continues an expression by one step, if the next token binds more tightly
than `floor`. -/
def extend (floor : Precedence) (left : Expr Unit) : m (Option (Expr Unit)) := do
  match ← peek? with
  | none => return none
  | some token =>
      match ← continuation? token with
      | none => return none
      | some continuation =>
          if continuation.precedence.rank ≤ floor.rank then return none
          else
            let _ ← next?
            return some (← continued inner left continuation)

/-- An expression whose operators bind more tightly than `floor`. Operators of
one precedence group to the left. -/
def expr (floor : Precedence) : m (Expr Unit) := do
  match ← next? with
  | none => failHere .noExpression
  | some token =>
      let left ← operand inner token
      iterate (extend inner floor) left

/-- An item without the semicolon behind it. -/
def statement : m (Item Unit) := do
  match (← peek?).map Token.kind with
  | none => failHere .noExpression
  | some .letWord => do
      let _ ← next?
      let name ← require .name
      let _ ← require .assign
      return .bind name.lexeme (← inner.expr .lowest)
  | some .returnWord => do
      let _ ← next?
      return .ret (← inner.expr .lowest)
  | some .leftBrace => return .block (← inner.block)
  | some _ => return .expr (← inner.expr .lowest)

/-- An item, with the semicolon behind it if there is one. -/
def item : m (Item Unit) := do
  let item ← statement inner
  let _ ← accept .semicolon
  return item

/-- Reads a further item of a block, unless the block or the text ends here. -/
def oneMore (found : List (Item Unit)) : m (Option (List (Item Unit))) := do
  match (← peek?).map Token.kind with
  | none => return none
  | some .rightBrace => return none
  | some _ => return some ((← item inner) :: found)

/-- A block of items in braces. -/
def block : m (Program Unit) := do
  let _ ← require .openBrace
  let found ← iterate (oneMore inner) []
  let _ ← require .closeBrace
  return found.reverse

end Grammar

/-- The parsers that may open the given number of levels, one in another. -/
def Nested.within : Nat → Nested
  | 0 => ⟨fun _ => Parser.failHere .tooDeep, Parser.failHere .tooDeep⟩
  | levels + 1 => ⟨Grammar.expr (within levels), Grammar.block (within levels)⟩

/-- An expression whose operators bind more tightly than the precedence. -/
def Expr.parser : Precedence → Parser (Expr Unit) :=
  (Nested.within maxNesting).expr

/-- An item of a program. -/
def Item.parser : Parser (Item Unit) :=
  Grammar.item (Nested.within maxNesting)

/-- Skips to where the next item may begin: behind a semicolon, or before a word
that only begins items. -/
def skipItem : List Token → List Token
  | [] => []
  | token :: rest =>
      if token.kind = .letWord ∨ token.kind = .returnWord then token :: rest
      else if token.kind = .semicolon then rest
      else skipItem rest

/-- What could be read of a program, and the errors found in it. -/
structure Parsed where
  program : Program Unit
  errors : List ParseError

namespace Parsed

/-- Adds item after item to what was read before, which is in reverse. Every
round reads a token, so the tokens at hand bound their number. -/
def collect : List Token → Parsed → List Token → Parsed
  | _ :: more, found, token :: rest =>
      match Item.parser (token :: rest) with
      | .ok item rest => collect more { found with program := item :: found.program } rest
      | .error error rest =>
          collect more { found with errors := error :: found.errors } (skipItem rest)
  | _, found, _ => ⟨found.program.reverse, found.errors.reverse⟩

/-- Reads a whole program. -/
def ofTokens (tokens : List Token) : Parsed :=
  collect tokens ⟨[], []⟩ tokens

end Parsed

end Scriptlet
