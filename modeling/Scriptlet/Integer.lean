import Scriptlet.Text.Decimal

/-!
# Integers of the language

Integers are signed and 64 bits wide. Nothing wraps: an operation computes the
exact integer and then asks whether it is in range.
-/

namespace Scriptlet

/-- An integer of the language. -/
abbrev Integer := Int64

namespace Integer

/-- The integer equal to `n`, when `n` is in range. -/
def ofInt? (n : Int) : Option Integer :=
  if h : Int64.minValue.toInt ≤ n ∧ n ≤ Int64.maxValue.toInt then
    some (Int64.ofIntLE n h.1 h.2)
  else none

theorem ofInt?_eq_some_iff {n : Int} {k : Integer} : ofInt? n = some k ↔ k.toInt = n := by
  unfold ofInt?
  split
  · rename_i h
    rw [Option.some_inj]
    constructor
    · rintro rfl
      exact Int64.toInt_ofIntLE
    · rintro rfl
      rw [← Int64.toInt_inj]
      exact Int64.toInt_ofIntLE
  · rename_i h
    simp only [reduceCtorEq, false_iff]
    rintro rfl
    exact h ⟨Int64.minValue_le_toInt k, Int64.toInt_le k⟩

theorem ofInt?_eq_none_iff {n : Int} :
    ofInt? n = none ↔ n < -9223372036854775808 ∨ 9223372036854775807 < n := by
  unfold ofInt?
  have hmin : Int64.minValue.toInt = -9223372036854775808 := by decide
  have hmax : Int64.maxValue.toInt = 9223372036854775807 := by decide
  split <;> simp <;> omega

@[simp]
theorem ofInt?_toInt (k : Integer) : ofInt? k.toInt = some k :=
  ofInt?_eq_some_iff.mpr rfl

/-- An integer in decimal. -/
def text (n : Integer) : String :=
  Text.Decimal.write n.toInt

/-- The integer that a text spells, when it is in range. -/
def read? (cs : List Char) : Option Integer :=
  (Text.Decimal.read? cs).bind ofInt?

/-- Reading undoes writing. -/
theorem read?_text (n : Integer) : read? n.text.toList = some n := by
  simp [read?, text, Text.Decimal.read?_write]

end Integer

end Scriptlet
