import Scriptlet.Program.Outline
import Scriptlet.Value

/-!
# The texts of values

The rendering is what scripts print: texts stand in it without quotes. The
outline tells apart values of different types that print alike.
-/

namespace Scriptlet

open Text.Outline

/-- The rendering of a function: its parameters and the items of its body. -/
def Closure.render (f : Closure) : String :=
  "fn(" ++ commaSeparated f.params ++ ") \x7b" ++
    String.join (f.body.map fun item => " " ++ item.render) ++ " \x7d"

def Closure.outline (f : Closure) : String :=
  openRecord "Func" [("args", texts f.params), ("body", f.body.outline)]

def Native.render (f : Native) : String :=
  "native fn " ++ f.name

def Native.outline (f : Native) : String :=
  record "NativeFunc" [("name", Text.quote f.name)]

namespace Value

mutual

/-- The text that printing a value gives. -/
def render : Value → String
  | .int n => n.text
  | .text s => s
  | .bool b => boolText b
  | .null => "null"
  | .array _ elements => "[" ++ commaSeparated (renderEach elements) ++ "]"
  | .function f => f.render
  | .native f => f.render
  | .error message => "ERROR: " ++ message

def renderEach : List Value → List String
  | [] => []
  | value :: values => render value :: renderEach values

end

mutual

/-- The outline of a value. -/
def outline : Value → String
  | .int n => apply "Integer" n.text
  | .text s => apply "Str" (Text.quote s)
  | .bool b => apply "Boolean" (boolText b)
  | .null => "Null"
  | .array _ elements => apply "Array" (list (outlineEach elements))
  | .function f => apply "Func" f.outline
  | .native f => apply "NativeFunc" f.outline
  | .error message => apply "Error" (Text.quote message)

def outlineEach : List Value → List String
  | [] => []
  | value :: values => outline value :: outlineEach values

end

@[simp]
theorem renderEach_eq_map (values : List Value) : renderEach values = values.map render := by
  induction values with
  | nil => simp [renderEach]
  | cons value values ih => simp [renderEach, ih]

@[simp]
theorem outlineEach_eq_map (values : List Value) : outlineEach values = values.map outline := by
  induction values with
  | nil => simp [outlineEach]
  | cons value values ih => simp [outlineEach, ih]

end Value

end Scriptlet
