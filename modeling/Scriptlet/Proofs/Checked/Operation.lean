import Scriptlet.Proofs.Checked.Agreement
import Scriptlet.Session.Evaluation

/-!
# Operators and native bodies with their partial operations

Arithmetic on 64-bit words is partial: the word has to be the exact integer, and the
divisor must not be zero. The bodies of native functions take their arguments by position
and parts of arrays by their ends, which have to exist.

Each of these operations stands behind a test, so operators and bodies do what they do
without hazards, whatever their operands or arguments.
-/

namespace Scriptlet.Checked

/-- An evaluation with the hazards of its partial operations. -/
abbrev CheckedEval (α : Type) := Checked Unwind Session α

/-- Ends an evaluation with a fault. -/
def fail {α : Type} (fault : Fault) : CheckedEval α :=
  raise (.fault fault)

/-- The word that an operation has computed, if it is the exact integer. -/
def exactly? (word : Integer) (n : Int) : Option Integer :=
  if word.toInt = n then some word else none

/-- The quotient of two words, truncated toward zero. -/
def quotient (m n : Integer) : CheckedEval Integer :=
  if n = 0 then throw (.inl .zeroDivisor)
  else expect .overflow (exactly? (m / n) (m.toInt.tdiv n.toInt))

/-- Computes a word behind the test that the exact integer is in range. -/
def ranged (fault : Fault) (n : Int) (word : CheckedEval Integer) : CheckedEval Value := do
  if (Integer.ofInt? n).isSome then return .int (← word) else fail fault

/-- A binary operator on words. -/
def applyInt (m : Integer) (op : BinaryOp) (n : Integer) : CheckedEval Value :=
  match op with
  | .add =>
      ranged (.binaryOverflow m op n) (m.toInt + n.toInt)
        (expect .overflow (exactly? (m + n) (m.toInt + n.toInt)))
  | .subtract =>
      ranged (.binaryOverflow m op n) (m.toInt - n.toInt)
        (expect .overflow (exactly? (m - n) (m.toInt - n.toInt)))
  | .multiply =>
      ranged (.binaryOverflow m op n) (m.toInt * n.toInt)
        (expect .overflow (exactly? (m * n) (m.toInt * n.toInt)))
  | .divide =>
      if n = 0 then fail (.divisionByZero m n)
      else ranged (.binaryOverflow m op n) (m.toInt.tdiv n.toInt) (quotient m n)
  | .greater => return .bool (n.toInt < m.toInt)
  | .less => return .bool (m.toInt < n.toInt)
  | .notEqual => return .bool (m != n)
  | .equal => return .bool (m == n)

/-- A binary operator on two values. -/
def applyBinary (left : Value) (op : BinaryOp) (right : Value) : CheckedEval Value :=
  match left, right with
  | .int m, .int n => applyInt m op n
  | left, right => plain (Eval.ofExcept (op.apply left right))

/-- A unary operator on a value. -/
def applyUnary (op : UnaryOp) (value : Value) : CheckedEval Value :=
  match op, value with
  | .negate, .int n =>
      ranged (.unaryOverflow .negate n) (-n.toInt) (expect .overflow (exactly? (-n) (-n.toInt)))
  | op, value => plain (Eval.ofExcept (op.apply value))

/-- The part of a list from a place on. -/
def from? {α : Type} (start : Nat) (as : List α) : Option (List α) :=
  if start ≤ as.length then some (as.drop start) else none

/-- The argument at a position. -/
def argument (args : List Value) (position : Nat) : CheckedEval Value :=
  expect .position args[position]?

def checkArity (args : List Value) (want : Nat) : CheckedEval Unit :=
  if args.length = want then return () else fail (.wrongArity args.length want)

/-- Calls the body of a native function. -/
def runNative (routine : Routine) (args : List Value) : CheckedEval Value :=
  match routine with
  | .len => do
      checkArity args 1
      match ← argument args 0 with
      | .text s => return .int (.ofNat s.length)
      | .array _ elements => return .int (.ofNat elements.length)
      | arg => fail (.unsupportedArgument .len arg.kind)
  | .first => do
      checkArity args 1
      match ← argument args 0 with
      | .array _ elements => return elements.head?.getD .null
      | arg => fail (.unsupportedArgument .first arg.kind)
  | .last => do
      checkArity args 1
      match ← argument args 0 with
      | .array _ elements => return elements.getLast?.getD .null
      | arg => fail (.unsupportedArgument .last arg.kind)
  | .rest => do
      checkArity args 1
      match ← argument args 0 with
      | .array _ elements =>
          if elements.isEmpty then return .null
          else plain (Eval.makeArray (← expect .slice (from? 1 elements)))
      | arg => fail (.unsupportedArgument .rest arg.kind)
  | .push => do
      checkArity args 2
      match ← argument args 0 with
      | .array _ elements => plain (Eval.makeArray (elements ++ [← argument args 1]))
      | arg => fail (.unsupportedArgument .push arg.kind)
  | .puts => plain (Routine.puts.run args)

section Arithmetic

variable {fault : Fault} {n : Int}

/-- Where the test of the range lets it through, a word that is the integer up to wrapping
is the integer. -/
theorem exactly?_of_fits {word k : Integer} (hfits : Integer.ofInt? n = some k)
    (hword : word.toInt = n.bmod Int64.size) : exactly? word n = some k := by
  have hk : k.toInt = n := Integer.ofInt?_eq_some_iff.mp hfits
  have hmin := Int64.minValue_le_toInt k
  have hmax := Int64.toInt_le k
  have hlow : Int64.minValue.toInt = -9223372036854775808 := by decide
  have hhigh : Int64.maxValue.toInt = 9223372036854775807 := by decide
  have hsize : Int64.size = 18446744073709551616 := rfl
  have hexact : word.toInt = n := by
    rw [hword]
    apply Int.bmod_eq_of_le <;> omega
  have hsame : word = k := Int64.toInt_inj.mp (hexact.trans hk.symm)
  rw [exactly?, if_pos hexact, hsame]

/-- The greatest integer has no successor. -/
example : exactly? (Int64.maxValue + 1) (Int64.maxValue.toInt + 1) = none := by
  decide

theorem ranged_eq_plain {word : CheckedEval Integer}
    (hword : ∀ k, Integer.ofInt? n = some k → word = pure k) :
    ranged fault n word = plain (Eval.ofExcept (Integer.orFault fault n)) := by
  unfold ranged Integer.orFault
  cases hfits : Integer.ofInt? n with
  | some k =>
      rw [hword k hfits]
      rfl
  | none => rfl

/-- An operation that is exact up to wrapping, behind the test of the range. -/
theorem ranged_exactly? {word : Integer} (hword : word.toInt = n.bmod Int64.size) :
    ranged fault n (expect .overflow (exactly? word n)) =
      plain (Eval.ofExcept (Integer.orFault fault n)) :=
  ranged_eq_plain fun k hfits => by rw [exactly?_of_fits hfits hword, expect_some]

/-- No operation on words leaves the range, and none divides by zero. -/
theorem applyInt_eq_plain (m : Integer) (op : BinaryOp) (n : Integer) :
    applyInt m op n = plain (Eval.ofExcept (op.applyInt m n)) := by
  cases op with
  | add => exact ranged_exactly? (Int64.toInt_add m n)
  | subtract => exact ranged_exactly? (Int64.toInt_sub m n)
  | multiply => exact ranged_exactly? (Int64.toInt_mul m n)
  | divide =>
      unfold applyInt BinaryOp.applyInt
      by_cases hzero : n = 0
      · simp only [hzero, if_true]
        rfl
      · simp only [hzero, if_false]
        -- The least integer divided by minus one is out of range, so the test stops it.
        refine ranged_eq_plain fun k hfits => ?_
        rw [quotient, if_neg hzero, exactly?_of_fits hfits (Int64.toInt_div m n), expect_some]
  | greater | less | notEqual | equal => rfl

theorem applyBinary_eq_plain (left : Value) (op : BinaryOp) (right : Value) :
    applyBinary left op right = plain (Eval.ofExcept (op.apply left right)) := by
  unfold applyBinary
  split
  · exact applyInt_eq_plain _ op _
  · rfl

theorem applyUnary_eq_plain (op : UnaryOp) (value : Value) :
    applyUnary op value = plain (Eval.ofExcept (op.apply value)) := by
  unfold applyUnary
  split
  · exact ranged_exactly? (Int64.toInt_neg _)
  · rfl

end Arithmetic

section Natives

variable {routine : Routine} {args : List Value}

theorem checkArity_of_ne {α : Type} {want : Nat} (h : args.length ≠ want)
    (body : Unit → CheckedEval α) :
    checkArity args want >>= body = fail (.wrongArity args.length want) := by
  rw [checkArity, if_neg h]
  rfl

/-- A body with the test of its arity answers what it should, if it does so to arguments of
the right number. -/
theorem run_eq_plain {want : Nat} {body : CheckedEval Value} (harity : routine.arity? = some want)
    (hbody : args.length = want → body = plain (routine.answer args)) :
    (checkArity args want >>= fun _ => body) = plain (routine.run args) := by
  unfold Routine.run
  rw [harity]
  dsimp only
  by_cases hlength : args.length = want
  · rw [checkArity, if_pos hlength, if_pos hlength, pure_bind, hbody hlength]
  · rw [checkArity_of_ne hlength, if_neg hlength]
    rfl

/-- Bodies find the arguments that they ask for, and an array that is not empty has a rest,
whatever the arguments are. -/
theorem runNative_eq_plain (routine : Routine) (args : List Value) :
    runNative routine args = plain (routine.run args) := by
  cases routine with
  | puts => rfl
  | push =>
      refine run_eq_plain rfl fun hlength => ?_
      match args, hlength with
      | [array, value], _ => cases array <;> rfl
  | rest =>
      refine run_eq_plain rfl fun hlength => ?_
      obtain ⟨arg, rfl⟩ := List.length_eq_one_iff.mp hlength
      cases arg with
      | array birth elements => cases elements <;> rfl
      | int | text | bool | null | function | native | error => rfl
  | len | first | last =>
      refine run_eq_plain rfl fun hlength => ?_
      obtain ⟨arg, rfl⟩ := List.length_eq_one_iff.mp hlength
      cases arg <;> rfl

end Natives

end Scriptlet.Checked
