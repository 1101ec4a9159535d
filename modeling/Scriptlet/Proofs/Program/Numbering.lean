import Mathlib.Data.List.Pairwise
import Scriptlet.Program.Numbering
import Scriptlet.Proofs.Program.Nesting

/-!
# The numbers of function literals

Numbering gives the function literals of a program the numbers from the first free one on,
each once, in the order in which they stand in the program. It changes nothing else, so
the program nests as before.
-/

namespace Scriptlet

variable {Mark : Type}

/-- The mark of a function literal. -/
def Expr.mark? : Expr Mark → Option Mark
  | .fn mark _ _ => some mark
  | _ => none

/-- The marks of the function literals among parts of programs. -/
def literalMarks (parts : List (Nat × Expr Mark)) : List Mark :=
  parts.filterMap fun part => part.2.mark?

@[simp]
theorem literalMarks_append (parts more : List (Nat × Expr Mark)) :
    literalMarks (parts ++ more) = literalMarks parts ++ literalMarks more :=
  List.filterMap_append

/-- The marks are the numbers from `first` up to `next`. -/
structure Numbered (first next : Nat) (marks : List Nat) : Prop where
  le : first ≤ next
  eq : marks = List.range' first (next - first)

namespace Numbered

theorem nil (n : Nat) : Numbered n n [] :=
  ⟨Nat.le_refl n, by simp⟩

theorem append {first middle next : Nat} {marks more : List Nat}
    (h : Numbered first middle marks) (h' : Numbered middle next more) :
    Numbered first next (marks ++ more) := by
  have hle := h.le
  have hle' := h'.le
  refine ⟨Nat.le_trans hle hle', ?_⟩
  have hmiddle : middle = first + (middle - first) := by omega
  have hlength : next - first = middle - first + (next - middle) := by omega
  rw [h.eq, h'.eq, hlength, ← List.range'_append_1, ← hmiddle]

/-- A literal takes the next number, before what stands in it. -/
theorem cons {first next : Nat} {marks : List Nat} (h : Numbered (first + 1) next marks) :
    Numbered first next (first :: marks) :=
  have hfirst : Numbered first (first + 1) [first] := ⟨Nat.le_succ first, by simp⟩
  hfirst.append h

end Numbered

mutual

theorem Expr.numbered_number : ∀ (e : Expr Mark) (n depth : Nat),
    Numbered n (e.number.run n).2 (literalMarks ((e.number.run n).1.parts depth))
  | .var _, n, _ => .nil n
  | .lit _, n, _ => .nil n
  | .unary _ operand, n, depth => operand.numbered_number n depth
  | .binary left _ right, n, depth => by
      have hright := right.numbered_number (left.number.run n).2 depth
      have happend := (left.numbered_number n depth).append hright
      rw [← literalMarks_append] at happend
      exact happend
  | .cond test yes no, n, depth => by
      have hyes := Item.numbered_numberEach yes (test.number.run n).2 depth
      have hno := Item.numbered_numberElse no
        ((Item.numberEach yes).run (test.number.run n).2).2 depth
      have happend := (test.numbered_number n depth).append (hyes.append hno)
      rw [← literalMarks_append, ← literalMarks_append] at happend
      exact happend
  | .fn _ _ body, n, depth => (Item.numbered_numberEach body (n + 1) (depth + 1)).cons
  | .call callee args, n, depth => by
      have hargs := Expr.numbered_numberEach args (callee.number.run n).2 depth
      have happend := (callee.numbered_number n depth).append hargs
      rw [← literalMarks_append] at happend
      exact happend
  | .array elements, n, depth => Expr.numbered_numberEach elements n depth
  | .index base position, n, depth => by
      have hposition := position.numbered_number (base.number.run n).2 depth
      have happend := (base.numbered_number n depth).append hposition
      rw [← literalMarks_append] at happend
      exact happend

theorem Item.numbered_number : ∀ (item : Item Mark) (n depth : Nat),
    Numbered n (item.number.run n).2 (literalMarks ((item.number.run n).1.parts depth))
  | .expr e, n, depth => e.numbered_number n depth
  | .bind _ init, n, depth => init.numbered_number n depth
  | .ret e, n, depth => e.numbered_number n depth
  | .block items, n, depth => Item.numbered_numberEach items n depth

theorem Expr.numbered_numberEach : ∀ (es : List (Expr Mark)) (n depth : Nat),
    Numbered n ((Expr.numberEach es).run n).2
      (literalMarks (Expr.partsAll depth ((Expr.numberEach es).run n).1))
  | [], n, _ => .nil n
  | e :: es, n, depth => by
      have hes := Expr.numbered_numberEach es (e.number.run n).2 depth
      have happend := (e.numbered_number n depth).append hes
      rw [← literalMarks_append] at happend
      exact happend

theorem Item.numbered_numberEach : ∀ (items : List (Item Mark)) (n depth : Nat),
    Numbered n ((Item.numberEach items).run n).2
      (literalMarks (Item.partsAll depth ((Item.numberEach items).run n).1))
  | [], n, _ => .nil n
  | item :: items, n, depth => by
      have hitems := Item.numbered_numberEach items (item.number.run n).2 depth
      have happend := (item.numbered_number n depth).append hitems
      rw [← literalMarks_append] at happend
      exact happend

theorem Item.numbered_numberElse : ∀ (no : Option (List (Item Mark))) (n depth : Nat),
    Numbered n ((Item.numberElse no).run n).2
      (literalMarks (Item.partsElse depth ((Item.numberElse no).run n).1))
  | none, n, _ => .nil n
  | some items, n, depth => Item.numbered_numberEach items n depth

end

mutual

/-- Numbering leaves the nesting as it is. -/
theorem Expr.nesting_number : ∀ (e : Expr Mark) (n : Nat),
    (e.number.run n).1.nesting = e.nesting
  | .var _, _ | .lit _, _ => rfl
  | .unary _ operand, n => congrArg (· + 1) (operand.nesting_number n)
  | .binary left _ right, n =>
      congrArg₂ (fun a b => max a (b + 1)) (left.nesting_number n) (right.nesting_number _)
  | .cond test yes no, n =>
      congrArg₂ (fun a b => max a b + 1) (test.nesting_number n)
        (congrArg₂ (fun a b => max (a + 1) b) (Item.nestingAll_numberEach yes _)
          (Item.nestingElse_numberElse no _))
  | .fn _ _ body, n => congrArg (· + 2) (Item.nestingAll_numberEach body (n + 1))
  | .call callee args, n =>
      congrArg₂ (fun a b => max a (b + 1)) (callee.nesting_number n)
        (Expr.nestingAll_numberEach args _)
  | .array elements, n => congrArg (· + 1) (Expr.nestingAll_numberEach elements n)
  | .index base position, n =>
      congrArg₂ (fun a b => max a (b + 1)) (base.nesting_number n) (position.nesting_number _)

theorem Item.nesting_number : ∀ (item : Item Mark) (n : Nat),
    (item.number.run n).1.nesting = item.nesting
  | .expr e, n => e.nesting_number n
  | .bind _ init, n => init.nesting_number n
  | .ret e, n => e.nesting_number n
  | .block items, n => congrArg (· + 1) (Item.nestingAll_numberEach items n)

theorem Expr.nestingAll_numberEach : ∀ (es : List (Expr Mark)) (n : Nat),
    Expr.nestingAll ((Expr.numberEach es).run n).1 = Expr.nestingAll es
  | [], _ => rfl
  | e :: es, n => congrArg₂ max (e.nesting_number n) (Expr.nestingAll_numberEach es _)

theorem Item.nestingAll_numberEach : ∀ (items : List (Item Mark)) (n : Nat),
    Item.nestingAll ((Item.numberEach items).run n).1 = Item.nestingAll items
  | [], _ => rfl
  | item :: items, n =>
      congrArg₂ max (item.nesting_number n) (Item.nestingAll_numberEach items _)

theorem Item.nestingElse_numberElse : ∀ (no : Option (List (Item Mark))) (n : Nat),
    Item.nestingElse ((Item.numberElse no).run n).1 = Item.nestingElse no
  | none, _ => rfl
  | some items, n => congrArg (· + 1) (Item.nestingAll_numberEach items n)

end

section Keys

variable {α β : Type} {key? : α → Option β} {as : List α}

/-- Where no key is given twice, a key has one place in the list. -/
theorem index_eq_of_key_eq (h : (as.filterMap key?).Nodup) {i j : Nat} {a b : α}
    (hi : as[i]? = some a) (hj : as[j]? = some b) {key : β} (ha : key? a = some key)
    (hb : key? b = some key) : i = j := by
  have hpairs : as.Pairwise fun a b =>
      ∀ key, key? a = some key → ∀ key', key? b = some key' → key ≠ key' :=
    List.pairwise_filterMap.mp h
  have hdistinct := List.pairwise_iff_getElem.mp hpairs
  obtain ⟨hlt, rfl⟩ := List.getElem?_eq_some_iff.mp hi
  obtain ⟨hlt', rfl⟩ := List.getElem?_eq_some_iff.mp hj
  rcases Nat.lt_trichotomy i j with h | heq | h
  · exact absurd rfl (hdistinct i j hlt hlt' h key ha key hb)
  · exact heq
  · exact absurd rfl (hdistinct j i hlt' hlt h key hb key ha)

theorem eq_of_key_eq (h : (as.filterMap key?).Nodup) {a b : α} (ha : a ∈ as) (hb : b ∈ as)
    {key : β} (hkey : key? a = some key) (hkey' : key? b = some key) : a = b := by
  obtain ⟨i, hi⟩ := List.mem_iff_getElem?.mp ha
  obtain ⟨j, hj⟩ := List.mem_iff_getElem?.mp hb
  cases index_eq_of_key_eq h hi hj hkey hkey'
  exact Option.some.inj (hi.symm.trans hj)

end Keys

/-- Where no number is given twice, a number has one place. -/
theorem eq_of_mark?_eq {parts : List (Nat × Expr Mark)} (h : (literalMarks parts).Nodup)
    {part other : Nat × Expr Mark} (hpart : part ∈ parts) (hother : other ∈ parts) {mark : Mark}
    (hmark : part.2.mark? = some mark) (hmark' : other.2.mark? = some mark) : part = other :=
  eq_of_key_eq h hpart hother hmark hmark'

end Scriptlet
