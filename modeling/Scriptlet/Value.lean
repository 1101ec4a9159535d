import Scriptlet.Program

/-!
# Values

What expressions evaluate to. Functions keep the scope they were made in and the
number of the literal they come from; arrays keep the number of their making.
These numbers decide identity, and scripts see them through comparison only.
-/

namespace Scriptlet

/-- The place of a scope in a store. -/
abbrev ScopeId := Nat

/-- The bodies of the native functions. -/
inductive Routine where
  | len | first | last | rest | push | puts
  deriving DecidableEq

/-- The name under which a native body is usually found. -/
def Routine.name : Routine → String
  | .len => "len"
  | .first => "first"
  | .last => "last"
  | .rest => "rest"
  | .push => "push"
  | .puts => "puts"

/-- A native function: a body under a name. -/
structure Native where
  name : String
  routine : Routine
  deriving DecidableEq

/-- A script function: a function literal and the scope it was evaluated in. -/
structure Closure where
  /-- The number of the literal. -/
  literal : Nat
  params : List String
  body : Program Nat
  scope : ScopeId

inductive Value where
  | int (n : Integer)
  | text (s : String)
  | bool (b : Bool)
  | null
  /-- An array; `birth` tells apart arrays that were made separately. -/
  | array (birth : Nat) (elements : List Value)
  | function (f : Closure)
  | native (f : Native)
  /-- A failure handed out as a value. -/
  | error (message : String)

namespace Value

/-- The types that scripts and messages tell apart. -/
inductive Kind where
  | integer | string | boolean | null | array | function | builtin | error
  deriving DecidableEq

def Kind.name : Kind → String
  | .integer => "INTEGER"
  | .string => "STRING"
  | .boolean => "BOOLEAN"
  | .null => "NULL"
  | .array => "ARRAY"
  | .function => "FUNCTION"
  | .builtin => "BUILTIN"
  | .error => "ERROR"

def kind : Value → Kind
  | .int _ => .integer
  | .text _ => .string
  | .bool _ => .boolean
  | .null => .null
  | .array _ _ => .array
  | .function _ => .function
  | .native _ => .builtin
  | .error _ => .error

/-- The value of a constant. -/
def ofLiteral : Literal → Value
  | .int n => .int n
  | .text s => .text s
  | .bool b => .bool b

/-- Everything counts as true in a test except false and null. -/
def truthy : Value → Bool
  | .null => false
  | .bool b => b
  | _ => true

end Value

end Scriptlet
