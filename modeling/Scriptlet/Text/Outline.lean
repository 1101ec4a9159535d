import Scriptlet.Text.Quoted

/-!
# Outlines of structured data

The one-line notation in which a tree of data is laid open: a constructor with
its arguments in parentheses, a record with named fields in braces, a list in
brackets.
-/

namespace Scriptlet.Text.Outline

/-- A list. -/
def list (elements : List String) : String :=
  "[" ++ ", ".intercalate elements ++ "]"

/-- A constructor applied to one argument. -/
def apply (name argument : String) : String :=
  name ++ "(" ++ argument ++ ")"

/-- Named fields, each with its value, in pieces. -/
def fields (entries : List (String × String)) : List String :=
  ((entries.map fun entry => [entry.1, ": ", entry.2]).intersperse [", "]).flatten

/-- A record with all its fields. -/
def record (name : String) (entries : List (String × String)) : String :=
  String.join ([name, " \x7b "] ++ fields entries ++ [" \x7d"])

/-- A record of which only these fields are shown. -/
def openRecord (name : String) (entries : List (String × String)) : String :=
  String.join ([name, " \x7b "] ++ fields entries ++ [", .. \x7d"])

/-- A list of quoted texts. -/
def texts (ss : List String) : String :=
  list (ss.map quote)

end Scriptlet.Text.Outline
