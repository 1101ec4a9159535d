import Scriptlet.Precedence

/-!
# The layered grammar

The grammar of programs without a parser. Expressions come in layers, from the
chains of the loosest operators down to operands; what a layer chains together
are expressions of the next one. Each relation says that a list of tokens, all of
it, is a phrase of the language and which one.

Two things about the end of a phrase decide what may stand behind it: a choice
without a second branch would take an `else`, and an expression would take
whatever continues it.
-/

namespace Scriptlet

/-- The layer of the operands that a layer chains together. -/
def Precedence.operands? : Precedence → Option Precedence
  | .lowest => some .equality
  | .equality => some .order
  | .order => some .sum
  | .sum => some .product
  | .product => some .unary
  | .unary | .call | .index => none

namespace Grammar

variable {α : Type}

/-- Elements with commas between them, and none behind the last. -/
inductive Separated (element : List Token → α → Prop) : List Token → List α → Prop where
  | last {c a} (ha : element c a) : Separated element c [a]
  | more {c a comma d as} (ha : element c a) (hcomma : comma.kind = .comma)
      (has : Separated element d as) : Separated element (c ++ comma :: d) (a :: as)

/-- A list of elements behind its opening bracket. -/
inductive ListBehind (closing : Token.Kind) (element : List Token → α → Prop) :
    List Token → List α → Prop where
  | empty {close} (hclose : close.kind = closing) : ListBehind closing element [close] []
  | filled {c as close} (has : Separated element c as) (hclose : close.kind = closing) :
      ListBehind closing element (c ++ [close]) as

/-- A parameter of a function. -/
def IsParameter (tokens : List Token) (name : String) : Prop :=
  ∃ token, token.kind = .ident ∧ tokens = [token] ∧ name = token.lexeme

/-- How an item ends: in a semicolon, as a block, or in an expression, which may
be left dangling. -/
inductive Ending where
  | semicolon
  | block
  | expression (dangling : Bool)

mutual

/-- An expression of a layer. It is dangling when it ends in a choice without a
second branch. -/
inductive IsExpr : Precedence → List Token → Expr Unit → Bool → Prop where
  | operand {layer next c e dangling} (hnext : layer.operands? = some next)
      (he : IsExpr next c e dangling) : IsExpr layer c e dangling
  | chain {layer c left dangling token op d right dangling'}
      (hleft : IsExpr layer c left dangling) (hop : BinaryOp.ofKind? token.kind = some op)
      (hlayer : layer.operands? = some op.precedence)
      (hright : IsExpr op.precedence d right dangling') :
      IsExpr layer (c ++ token :: d) (.binary left op right) dangling'
  | unary {token op c e dangling} (hop : UnaryOp.ofKind? token.kind = some op)
      (he : IsExpr .unary c e dangling) : IsExpr .unary (token :: c) (.unary op e) dangling
  | postfixed {c e dangling} (he : IsPostfixed c e dangling) : IsExpr .unary c e dangling

/-- An operand with any number of calls and indexes behind it. -/
inductive IsPostfixed : List Token → Expr Unit → Bool → Prop where
  | primary {c e dangling} (he : IsPrimary c e dangling) : IsPostfixed c e dangling
  | call {c callee dangling opening d args} (hcallee : IsPostfixed c callee dangling)
      (hopening : opening.kind = .leftParen) (hargs : IsArguments .rightParen d args) :
      IsPostfixed (c ++ opening :: d) (.call callee args) false
  | index {c base dangling opening d position dangling' closing}
      (hbase : IsPostfixed c base dangling) (hopening : opening.kind = .leftBracket)
      (hposition : IsExpr .lowest d position dangling') (hclosing : closing.kind = .rightBracket) :
      IsPostfixed (c ++ opening :: (d ++ [closing])) (.index base position) false

/-- An operand. -/
inductive IsPrimary : List Token → Expr Unit → Bool → Prop where
  | name {token} (h : token.kind = .ident) : IsPrimary [token] (.var token.lexeme) false
  | int {token n} (h : token.kind = .int) (hn : Integer.read? token.lexeme.toList = some n) :
      IsPrimary [token] (.lit (.int n)) false
  | text {token} (h : token.kind = .string) :
      IsPrimary [token] (.lit (.text token.lexeme)) false
  | yes {token} (h : token.kind = .trueWord) : IsPrimary [token] (.lit (.bool true)) false
  | no {token} (h : token.kind = .falseWord) : IsPrimary [token] (.lit (.bool false)) false
  | group {opening c e dangling closing} (hopening : opening.kind = .leftParen)
      (he : IsExpr .lowest c e dangling) (hclosing : closing.kind = .rightParen) :
      IsPrimary (opening :: (c ++ [closing])) e false
  | choice {start opening c test dangling closing d yes} (hstart : start.kind = .ifWord)
      (hopening : opening.kind = .leftParen) (htest : IsExpr .lowest c test dangling)
      (hclosing : closing.kind = .rightParen) (hyes : IsBlock d yes) :
      IsPrimary (start :: opening :: (c ++ closing :: d)) (.cond test yes none) true
  | choiceElse {start opening c test dangling closing d yes middle d' no}
      (hstart : start.kind = .ifWord) (hopening : opening.kind = .leftParen)
      (htest : IsExpr .lowest c test dangling) (hclosing : closing.kind = .rightParen)
      (hyes : IsBlock d yes) (hmiddle : middle.kind = .elseWord) (hno : IsBlock d' no) :
      IsPrimary (start :: opening :: (c ++ closing :: (d ++ middle :: d')))
        (.cond test yes (some no)) false
  | function {start opening c params d body} (hstart : start.kind = .fnWord)
      (hopening : opening.kind = .leftParen)
      (hparams : ListBehind .rightParen IsParameter c params) (hbody : IsBlock d body) :
      IsPrimary (start :: opening :: (c ++ d)) (.fn () params body) false
  | array {opening c elements} (hopening : opening.kind = .leftBracket)
      (helements : IsArguments .rightBracket c elements) :
      IsPrimary (opening :: c) (.array elements) false

/-- A list of expressions behind its opening bracket. -/
inductive IsArguments : Token.Kind → List Token → List (Expr Unit) → Prop where
  | empty {closing close} (hclose : close.kind = closing) : IsArguments closing [close] []
  | filled {closing c es close} (hes : IsElements c es) (hclose : close.kind = closing) :
      IsArguments closing (c ++ [close]) es

/-- Expressions with commas between them, and none behind the last. -/
inductive IsElements : List Token → List (Expr Unit) → Prop where
  | last {c e dangling} (he : IsExpr .lowest c e dangling) : IsElements c [e]
  | more {c e dangling comma d es} (he : IsExpr .lowest c e dangling)
      (hcomma : comma.kind = .comma) (hes : IsElements d es) :
      IsElements (c ++ comma :: d) (e :: es)

/-- Items in braces. -/
inductive IsBlock : List Token → Program Unit → Prop where
  | braces {opening c items closing} (hopening : opening.kind = .leftBrace)
      (hitems : IsItems c items) (hclosing : closing.kind = .rightBrace) :
      IsBlock (opening :: (c ++ [closing])) items

/-- Items one after the other. One that ends in an expression is not followed by
anything that would continue the expression. -/
inductive IsItems : List Token → Program Unit → Prop where
  | nil : IsItems [] []
  | cons {c item ending d items} (hitem : IsItem c item ending) (hitems : IsItems d items)
      (hjoint : ∀ dangling, ending = .expression dangling →
        ∀ token ∈ d.head?, Continuation.ofKind? token.kind = none) :
      IsItems (c ++ d) (item :: items)

/-- An item, with the semicolon behind it if there is one. -/
inductive IsItem : List Token → Item Unit → Ending → Prop where
  | bare {c item ending} (hitem : IsStatement c item ending) : IsItem c item ending
  | terminated {c item ending token} (hitem : IsStatement c item ending)
      (htoken : token.kind = .semicolon) : IsItem (c ++ [token]) item .semicolon

/-- An item without the semicolon behind it. -/
inductive IsStatement : List Token → Item Unit → Ending → Prop where
  | bind {start name assign c init dangling} (hstart : start.kind = .letWord)
      (hname : name.kind = .ident) (hassign : assign.kind = .assign)
      (hinit : IsExpr .lowest c init dangling) :
      IsStatement (start :: name :: assign :: c) (.bind name.lexeme init) (.expression dangling)
  | ret {start c e dangling} (hstart : start.kind = .returnWord)
      (he : IsExpr .lowest c e dangling) :
      IsStatement (start :: c) (.ret e) (.expression dangling)
  | block {c items} (hitems : IsBlock c items) : IsStatement c (.block items) .block
  | expr {c e dangling} (he : IsExpr .lowest c e dangling) :
      IsStatement c (.expr e) (.expression dangling)

end

/-- No token comes next that continues an expression more tightly than `floor`, nor
one that a dangling expression would take. -/
def Stops (floor : Precedence) (dangling : Bool) (rest : List Token) : Prop :=
  ∀ token ∈ rest.head?, (Precedence.of token.kind).rank ≤ floor.rank ∧
    (dangling = true → token.kind ≠ .elseWord)

/-- No token comes next that an item with this ending would take. -/
def Ending.Stops : Ending → List Token → Prop
  | .semicolon, _ => True
  | .block, rest => ∀ token ∈ rest.head?, token.kind ≠ .semicolon
  | .expression dangling, rest =>
      Grammar.Stops .lowest dangling rest ∧ ∀ token ∈ rest.head?, token.kind ≠ .semicolon

end Grammar

end Scriptlet
