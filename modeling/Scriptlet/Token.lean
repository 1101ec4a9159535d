/-!
# Tokens

A program text is a sequence of tokens. Each carries its kind, its text and the
number of the line it starts on, counted from zero. A word is one of seven
keywords or an identifier; sixteen characters are tokens by themselves.
-/

namespace Scriptlet

namespace Token

/-- What a token is. -/
inductive Kind where
  | leftParen | rightParen | leftBrace | rightBrace | leftBracket | rightBracket
  | comma | semicolon
  | assign | bang | minus | plus | slash | star
  | equal | notEqual | less | greater
  | ident | int | string
  | letWord | fnWord | trueWord | falseWord | ifWord | elseWord | returnWord
  | endOfFile | illegal
  deriving DecidableEq

/-- The kind of a character that is a token by itself. -/
def Kind.ofChar? : Char → Option Kind
  | '(' => some .leftParen
  | ')' => some .rightParen
  | '{' => some .leftBrace
  | '}' => some .rightBrace
  | '[' => some .leftBracket
  | ']' => some .rightBracket
  | ',' => some .comma
  | ';' => some .semicolon
  | '=' => some .assign
  | '!' => some .bang
  | '-' => some .minus
  | '+' => some .plus
  | '/' => some .slash
  | '*' => some .star
  | '<' => some .less
  | '>' => some .greater
  | _ => none

/-- The keywords, each with its kind. -/
def keywords : List (String × Kind) :=
  [("let", .letWord), ("fn", .fnWord), ("true", .trueWord), ("false", .falseWord),
    ("if", .ifWord), ("else", .elseWord), ("return", .returnWord)]

/-- The kind of a keyword. -/
def Kind.ofKeyword? (word : String) : Option Kind :=
  keywords.lookup word

end Token

/-- A token of a program text. For a string literal `lexeme` is the text it
denotes; for every other token it is the token as written. -/
structure Token where
  kind : Token.Kind
  /-- The number of line breaks before the token. -/
  line : Nat
  lexeme : String
  deriving DecidableEq

end Scriptlet
