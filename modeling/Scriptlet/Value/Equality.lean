import Scriptlet.Value

/-!
# Two equalities of values

Two values are alike when they cannot be told apart by their contents: arrays
are compared element by element. They are identical when they are the same
value to a script: separately made arrays are not, and a failure is identical to
nothing. A function is determined by its literal and its scope in both.
-/

namespace Scriptlet

/-- Whether two functions come from the same literal in the same scope. -/
def Closure.same (f g : Closure) : Bool :=
  f.literal == g.literal && f.scope == g.scope

namespace Value

mutual

/-- Equality by contents. -/
def alike : Value → Value → Bool
  | .int m, .int n => m == n
  | .text s, .text t => s == t
  | .bool b, .bool c => b == c
  | .null, .null => true
  | .array _ xs, .array _ ys => allAlike xs ys
  | .function f, .function g => f.same g
  | .native f, .native g => f.name == g.name
  | .error m, .error n => m == n
  | _, _ => false

def allAlike : List Value → List Value → Bool
  | [], [] => true
  | x :: xs, y :: ys => alike x y && allAlike xs ys
  | _, _ => false

end

/-- Equality as scripts see it. -/
def identical : Value → Value → Bool
  | .int m, .int n => m == n
  | .text s, .text t => s == t
  | .bool b, .bool c => b == c
  | .null, .null => true
  | .array birth _, .array birth' _ => birth == birth'
  | .function f, .function g => f.same g
  | .native f, .native g => f.name == g.name
  | _, _ => false

end Value

end Scriptlet
