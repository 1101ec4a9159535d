import Scriptlet.Text.Decimal
import Scriptlet.Token

/-!
# Parsers over token lists

A parser reads from the front of a token list and gives back what it leaves,
also when it fails. An error says where in the list it was found, so that the
token to blame is known; there is none when the list ended too early.
-/

namespace Scriptlet

namespace ParseError

/-- The tokens that the grammar insists on at some place. -/
inductive Required where
  | name | assign | openParen | closeParen | openBrace | closeBrace | closeBracket
  deriving DecidableEq

def Required.kind : Required → Token.Kind
  | .name => .ident
  | .assign => .assign
  | .openParen => .leftParen
  | .closeParen => .rightParen
  | .openBrace => .leftBrace
  | .closeBrace => .rightBrace
  | .closeBracket => .rightBracket

def Required.text : Required → String
  | .name => "identifier"
  | .assign => "`=`"
  | .openParen => "`(`"
  | .closeParen => "`)`"
  | .openBrace => "`\x7b`"
  | .closeBrace => "`\x7d`"
  | .closeBracket => "`]`"

/-- Why a text is no program. -/
inductive Cause where
  /-- No expression begins like this. -/
  | noExpression
  | missing (what : Required)
  | integerOutOfRange
  | tooDeep
  deriving DecidableEq

def Cause.text : Cause → String
  | .noExpression => "no prefix parse rule for"
  | .missing what => "expected " ++ what.text ++ ", found"
  | .integerOutOfRange => "integer literal out of range"
  | .tooDeep => "too deeply nested at"

end ParseError

/-- An error of syntax. -/
structure ParseError where
  cause : ParseError.Cause
  /-- The tokens from the one to blame on. -/
  tokens : List Token
  deriving DecidableEq

/-- The wording of an error, with the numbers that lines have. -/
def ParseError.wording (error : ParseError) (number : Nat → Int) : String :=
  match error.tokens with
  | token :: _ =>
      "Parse error at line " ++ Text.Decimal.write (number token.line) ++ ": " ++
        error.cause.text ++ " " ++ token.lexeme
  | [] => "Parse error: " ++ error.cause.text ++ " end of stream"

/-- The wording of an error. Lines are counted from one here. -/
def ParseError.message (error : ParseError) : String :=
  error.wording fun line => line + 1

/-- The wording of an error where numbers are words of 64 bits. Behind the last
of these comes zero again. -/
def ParseError.printed (error : ParseError) : String :=
  error.wording fun line => ((line + 1) % UInt64.size : Nat)

/-- The number of the line to blame, if there is one, is a word of 64 bits. -/
def ParseError.Numbered (error : ParseError) : Prop :=
  ∀ token ∈ error.tokens.head?, token.line + 1 < UInt64.size

instance (error : ParseError) : Decidable error.Numbered :=
  inferInstanceAs (Decidable (∀ token ∈ error.tokens.head?, token.line + 1 < UInt64.size))

theorem ParseError.printed_eq {error : ParseError} (h : error.Numbered) :
    error.printed = error.message := by
  unfold printed message wording
  cases htokens : error.tokens with
  | nil => rfl
  | cons token rest =>
      have hline : token.line + 1 < UInt64.size := h token (by rw [htokens]; rfl)
      simp only [Nat.mod_eq_of_lt hline, Int.natCast_succ]

/-- Repeats `step` for as long as it goes on, once for each element of a list
at most. -/
def iterateWithin {m : Type → Type} [Monad m] {α : Type} (step : α → m (Option α)) :
    List Token → α → m α
  | [], a => pure a
  | _ :: more, a => do
      match ← step a with
      | some b => iterateWithin step more b
      | none => return a

/-- A parser over token lists. -/
abbrev Parser (α : Type) := EStateM ParseError (List Token) α

namespace Parser

variable {α : Type}

/-- The next token, which stays unread. -/
def peek? : Parser (Option Token) :=
  fun tokens => .ok tokens.head? tokens

/-- The next token, which is read. -/
def next? : Parser (Option Token)
  | [] => .ok none []
  | token :: rest => .ok (some token) rest

/-- Fails and blames the next token, which stays unread. -/
def failHere (cause : ParseError.Cause) : Parser α :=
  fun tokens => .error ⟨cause, tokens⟩ tokens

/-- Fails and blames the token read last. -/
def failBehind (cause : ParseError.Cause) (token : Token) : Parser α :=
  fun tokens => .error ⟨cause, token :: tokens⟩ tokens

/-- Reads the next token if it is of this kind, and says whether it was. -/
def accept (kind : Token.Kind) : Parser Bool
  | [] => .ok false []
  | token :: rest => if token.kind = kind then .ok true rest else .ok false (token :: rest)

/-- Reads the token that must come next. -/
def require (what : ParseError.Required) : Parser Token
  | [] => failHere (.missing what) []
  | token :: rest =>
      if token.kind = what.kind then .ok token rest
      else failHere (.missing what) (token :: rest)

/-- Repeats `step` from `a` on until it has nothing to add. A step that goes on
reads a token, so the tokens at hand bound the number of rounds. -/
def iterate (step : α → Parser (Option α)) (a : α) : Parser α :=
  fun tokens => iterateWithin step tokens a tokens

/-- One round of a repetition, if there is one left. -/
theorem iterateWithin_cons (step : α → Parser (Option α)) (round : Token) (more : List Token)
    (a : α) (tokens : List Token) :
    iterateWithin step (round :: more) a tokens =
      match step a tokens with
      | .ok (some b) rest => iterateWithin step more b rest
      | .ok none rest => .ok a rest
      | .error error rest => .error error rest := by
  change EStateM.bind _ _ tokens = _
  unfold EStateM.bind
  cases step a tokens with
  | ok b? rest => cases b? <;> rfl
  | error error rest => rfl

/-- A step goes on only by reading a token, and not at the end of the text. -/
structure Advances (step : α → Parser (Option α)) : Prop where
  nil (a : α) : step a [] = .ok none []
  length_lt {a b : α} {tokens rest : List Token} :
    step a tokens = .ok (some b) rest → rest.length < tokens.length

/-- The number of rounds does not matter if there is one for each token. -/
theorem iterateWithin_eq_iterate {step : α → Parser (Option α)} (h : Advances step)
    (more : List Token) (a : α) (tokens : List Token) (hmore : tokens.length ≤ more.length) :
    iterateWithin step more a tokens = iterate step a tokens := by
  suffices ∀ (rounds more : List Token) (a : α) (tokens : List Token),
      tokens.length ≤ more.length → tokens.length ≤ rounds.length →
      iterateWithin step more a tokens = iterateWithin step rounds a tokens from
    this tokens more a tokens hmore (Nat.le_refl _)
  clear hmore more a tokens
  intro rounds
  induction rounds with
  | nil =>
      intro more a tokens _ htokens
      obtain rfl : tokens = [] := List.eq_nil_of_length_eq_zero (by simpa using htokens)
      cases more with
      | nil => rfl
      | cons _ more =>
          rw [iterateWithin_cons, h.nil]
          rfl
  | cons _ rounds ih =>
      intro more a tokens hmore hrounds
      cases more with
      | nil =>
          obtain rfl : tokens = [] := List.eq_nil_of_length_eq_zero (by simpa using hmore)
          rw [iterateWithin_cons, h.nil]
          rfl
      | cons _ more =>
          simp only [List.length_cons] at hmore hrounds
          rw [iterateWithin_cons, iterateWithin_cons]
          split
          · rename_i hstep
            have := h.length_lt hstep
            exact ih more _ _ (by omega) (by omega)
          · rfl
          · rfl

/-- One round of a repetition. -/
theorem iterate_eq {step : α → Parser (Option α)} (h : Advances step) (a : α)
    (tokens : List Token) :
    iterate step a tokens =
      match step a tokens with
      | .ok (some b) rest => iterate step b rest
      | .ok none rest => .ok a rest
      | .error error rest => .error error rest := by
  cases tokens with
  | nil =>
      rw [h.nil]
      rfl
  | cons token tokens =>
      rw [iterate, iterateWithin_cons]
      split
      · rename_i hstep
        have := h.length_lt hstep
        simp only [List.length_cons] at this
        exact iterateWithin_eq_iterate h _ _ _ (by omega)
      · rfl
      · rfl

end Parser

end Scriptlet
