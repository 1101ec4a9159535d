/-!
# Decimal numbers

Writing an integer in decimal and reading one back. Reading allows one sign of
either kind in front and leading zeros; writing uses neither a plus sign nor
leading zeros, and is undone by reading.
-/

namespace Scriptlet.Text.Decimal

/-- An integer in decimal digits, behind a minus sign when it is negative. -/
def write : Int → String
  | .ofNat n => String.ofList (Nat.toDigits 10 n)
  | .negSucc n => String.ofList ('-' :: Nat.toDigits 10 (n + 1))

/-- The value of a nonempty run of ASCII digits. -/
def readDigits? (cs : List Char) : Option Nat :=
  if !cs.isEmpty && cs.all Char.isDigit then some (Nat.ofDigitChars 10 cs 0) else none

/-- The integer that a text spells: at most one sign, then digits and nothing
else. -/
def read? : List Char → Option Int
  | '+' :: cs => (readDigits? cs).map Int.ofNat
  | '-' :: cs => (readDigits? cs).map fun n => -(n : Int)
  | cs => (readDigits? cs).map Int.ofNat

theorem readDigits?_toDigits (n : Nat) : readDigits? (Nat.toDigits 10 n) = some n := by
  have hall : (Nat.toDigits 10 n).all Char.isDigit = true := by
    rw [List.all_eq_true]
    exact fun c hc => Nat.isDigit_of_mem_toDigits (by decide) (by decide) hc
  have hnil : (Nat.toDigits 10 n).isEmpty = false := by
    simp [Nat.toDigits_ne_nil]
  simp [readDigits?, hall, hnil, Nat.ofDigitChars_toDigits]

/-- Reading undoes writing. -/
theorem read?_write (n : Int) : read? (write n).toList = some n := by
  cases n with
  | ofNat n =>
      have hdigits := readDigits?_toDigits n
      have hsign : ∀ c ∈ Nat.toDigits 10 n, c.isDigit = true :=
        fun c hc => Nat.isDigit_of_mem_toDigits (by decide) (by decide) hc
      rw [write, String.toList_ofList]
      generalize Nat.toDigits 10 n = cs at hdigits hsign
      unfold read?
      split
      · exact absurd (hsign '+' (by simp)) (by decide)
      · exact absurd (hsign '-' (by simp)) (by decide)
      · simp [hdigits]
  | negSucc n =>
      rw [write, String.toList_ofList, read?, readDigits?_toDigits]
      rfl

end Scriptlet.Text.Decimal
