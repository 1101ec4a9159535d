import Scriptlet.Text.Unprintable

/-!
# Quoted texts

A quoted text stands between double quotes on one line. A double quote and a
backslash are marked by a backslash, four control characters have a letter, and
every other character without a glyph of its own is written by number. Both
renderings of a program use this form for its string literals.
-/

namespace Scriptlet.Text

/-- The number of `c` in lowercase hexadecimal, as `\u{...}`. -/
def escapeByNumber (c : Char) : List Char :=
  '\\' :: 'u' :: '{' :: (Nat.toDigits 16 c.toNat ++ ['}'])

/-- How a quoted text shows one character. -/
def escape (c : Char) : List Char :=
  if c = '"' then ['\\', '"']
  else if c = '\\' then ['\\', '\\']
  else if c = '\t' then ['\\', 't']
  else if c = '\n' then ['\\', 'n']
  else if c = '\r' then ['\\', 'r']
  else if c = Char.ofNat 0 then ['\\', '0']
  else if isUnprintable c then escapeByNumber c
  else [c]

/-- The quoted form of a text. -/
def quote (s : String) : String :=
  String.ofList ('"' :: (s.toList.flatMap escape ++ ['"']))

@[simp]
theorem toList_quote (s : String) :
    (quote s).toList = '"' :: (s.toList.flatMap escape ++ ['"']) := by
  simp [quote]

end Scriptlet.Text
