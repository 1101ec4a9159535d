import Scriptlet.Program

/-!
# Nesting of programs

How many levels of nesting an expression opens, and which expressions stand in a
program inside how many function literals. Each function literal takes two levels, one
for the literal and one for its body, so nesting bounds the number of literals around
anything in a program.
-/

namespace Scriptlet

variable {Mark : Type}

mutual

/-- The levels of nesting that an expression opens, its own among them. What stands to
the left of an operator, a call or an index opens no level of its own. -/
def Expr.nesting : Expr Mark → Nat
  | .var _ => 1
  | .lit _ => 1
  | .unary _ operand => operand.nesting + 1
  | .binary left _ right => max left.nesting (right.nesting + 1)
  | .cond test yes no =>
      max test.nesting (max (Item.nestingAll yes + 1) (Item.nestingElse no)) + 1
  | .fn _ _ body => Item.nestingAll body + 2
  | .call callee args => max callee.nesting (Expr.nestingAll args + 1)
  | .array elements => Expr.nestingAll elements + 1
  | .index base position => max base.nesting (position.nesting + 1)

def Item.nesting : Item Mark → Nat
  | .expr e => e.nesting
  | .bind _ init => init.nesting
  | .ret e => e.nesting
  | .block items => Item.nestingAll items + 1

def Expr.nestingAll : List (Expr Mark) → Nat
  | [] => 0
  | e :: es => max e.nesting (Expr.nestingAll es)

def Item.nestingAll : List (Item Mark) → Nat
  | [] => 0
  | item :: items => max item.nesting (Item.nestingAll items)

def Item.nestingElse : Option (List (Item Mark)) → Nat
  | none => 0
  | some items => Item.nestingAll items + 1

end

theorem Expr.nestingAll_le {es : List (Expr Mark)} {levels : Nat} :
    Expr.nestingAll es ≤ levels ↔ ∀ e ∈ es, e.nesting ≤ levels := by
  induction es with
  | nil => simp [Expr.nestingAll]
  | cons e es ih => simp only [Expr.nestingAll, Nat.max_le, List.forall_mem_cons, ih]

theorem Item.nestingAll_le {items : List (Item Mark)} {levels : Nat} :
    Item.nestingAll items ≤ levels ↔ ∀ item ∈ items, item.nesting ≤ levels := by
  induction items with
  | nil => simp [Item.nestingAll]
  | cons item items ih => simp only [Item.nestingAll, Nat.max_le, List.forall_mem_cons, ih]

mutual

/-- The expressions that stand in an expression, itself among them, each with the number
of function literals around it when there are `depth` around the whole. -/
def Expr.parts (depth : Nat) : Expr Mark → List (Nat × Expr Mark)
  | .var name => [(depth, .var name)]
  | .lit literal => [(depth, .lit literal)]
  | .unary op operand => (depth, .unary op operand) :: operand.parts depth
  | .binary left op right =>
      (depth, .binary left op right) :: (left.parts depth ++ right.parts depth)
  | .cond test yes no =>
      (depth, .cond test yes no) ::
        (test.parts depth ++ (Item.partsAll depth yes ++ Item.partsElse depth no))
  | .fn mark params body => (depth, .fn mark params body) :: Item.partsAll (depth + 1) body
  | .call callee args =>
      (depth, .call callee args) :: (callee.parts depth ++ Expr.partsAll depth args)
  | .array elements => (depth, .array elements) :: Expr.partsAll depth elements
  | .index base position =>
      (depth, .index base position) :: (base.parts depth ++ position.parts depth)

def Item.parts (depth : Nat) : Item Mark → List (Nat × Expr Mark)
  | .expr e => e.parts depth
  | .bind _ init => init.parts depth
  | .ret e => e.parts depth
  | .block items => Item.partsAll depth items

def Expr.partsAll (depth : Nat) : List (Expr Mark) → List (Nat × Expr Mark)
  | [] => []
  | e :: es => e.parts depth ++ Expr.partsAll depth es

def Item.partsAll (depth : Nat) : List (Item Mark) → List (Nat × Expr Mark)
  | [] => []
  | item :: items => item.parts depth ++ Item.partsAll depth items

def Item.partsElse (depth : Nat) : Option (List (Item Mark)) → List (Nat × Expr Mark)
  | none => []
  | some items => Item.partsAll depth items

end

mutual

/-- Each function literal around a part takes two of the levels of the whole. -/
theorem Expr.nesting_of_mem_parts {part : Nat × Expr Mark} :
    ∀ {e : Expr Mark} {depth : Nat}, part ∈ e.parts depth →
      2 * part.1 + part.2.nesting ≤ 2 * depth + e.nesting
  | .var _, depth, h | .lit _, depth, h => by
      cases List.mem_singleton.mp h
      exact Nat.le_refl _
  | .unary _ operand, depth, h => by
      rcases List.mem_cons.mp h with rfl | h
      · exact Nat.le_refl _
      · have hoperand := Expr.nesting_of_mem_parts h
        simp only [Expr.nesting]
        omega
  | .binary left _ right, depth, h => by
      rcases List.mem_cons.mp h with rfl | h
      · exact Nat.le_refl _
      · simp only [Expr.nesting]
        rcases List.mem_append.mp h with h | h
        · have hleft := Expr.nesting_of_mem_parts h
          omega
        · have hright := Expr.nesting_of_mem_parts h
          omega
  | .cond test yes no, depth, h => by
      rcases List.mem_cons.mp h with rfl | h
      · exact Nat.le_refl _
      · simp only [Expr.nesting]
        rcases List.mem_append.mp h with h | h
        · have htest := Expr.nesting_of_mem_parts h
          omega
        · rcases List.mem_append.mp h with h | h
          · have hyes := Item.nesting_of_mem_partsAll h
            omega
          · have hno := Item.nesting_of_mem_partsElse h
            omega
  | .fn _ _ body, depth, h => by
      rcases List.mem_cons.mp h with rfl | h
      · exact Nat.le_refl _
      · have hbody := Item.nesting_of_mem_partsAll h
        simp only [Expr.nesting]
        omega
  | .call callee args, depth, h => by
      rcases List.mem_cons.mp h with rfl | h
      · exact Nat.le_refl _
      · simp only [Expr.nesting]
        rcases List.mem_append.mp h with h | h
        · have hcallee := Expr.nesting_of_mem_parts h
          omega
        · have hargs := Expr.nesting_of_mem_partsAll h
          omega
  | .array elements, depth, h => by
      rcases List.mem_cons.mp h with rfl | h
      · exact Nat.le_refl _
      · have helements := Expr.nesting_of_mem_partsAll h
        simp only [Expr.nesting]
        omega
  | .index base position, depth, h => by
      rcases List.mem_cons.mp h with rfl | h
      · exact Nat.le_refl _
      · simp only [Expr.nesting]
        rcases List.mem_append.mp h with h | h
        · have hbase := Expr.nesting_of_mem_parts h
          omega
        · have hposition := Expr.nesting_of_mem_parts h
          omega

theorem Item.nesting_of_mem_parts {part : Nat × Expr Mark} :
    ∀ {item : Item Mark} {depth : Nat}, part ∈ item.parts depth →
      2 * part.1 + part.2.nesting ≤ 2 * depth + item.nesting
  | .expr _, _, h | .bind _ _, _, h | .ret _, _, h => Expr.nesting_of_mem_parts h
  | .block _, _, h => Nat.le_succ_of_le (Item.nesting_of_mem_partsAll h)

theorem Expr.nesting_of_mem_partsAll {part : Nat × Expr Mark} :
    ∀ {es : List (Expr Mark)} {depth : Nat}, part ∈ Expr.partsAll depth es →
      2 * part.1 + part.2.nesting ≤ 2 * depth + Expr.nestingAll es
  | e :: es, depth, h => by
      simp only [Expr.nestingAll]
      rcases List.mem_append.mp h with h | h
      · have he := Expr.nesting_of_mem_parts h
        omega
      · have hes := Expr.nesting_of_mem_partsAll h
        omega

theorem Item.nesting_of_mem_partsAll {part : Nat × Expr Mark} :
    ∀ {items : List (Item Mark)} {depth : Nat}, part ∈ Item.partsAll depth items →
      2 * part.1 + part.2.nesting ≤ 2 * depth + Item.nestingAll items
  | item :: items, depth, h => by
      simp only [Item.nestingAll]
      rcases List.mem_append.mp h with h | h
      · have hitem := Item.nesting_of_mem_parts h
        omega
      · have hitems := Item.nesting_of_mem_partsAll h
        omega

theorem Item.nesting_of_mem_partsElse {part : Nat × Expr Mark} :
    ∀ {no : Option (List (Item Mark))} {depth : Nat}, part ∈ Item.partsElse depth no →
      2 * part.1 + part.2.nesting ≤ 2 * depth + Item.nestingElse no
  | some _, _, h => Nat.le_succ_of_le (Item.nesting_of_mem_partsAll h)

end

end Scriptlet
