import Scriptlet.Proofs.Grammar.Joining
import Scriptlet.Proofs.Grammar.Rendering
import Scriptlet.Session.Run

/-!
# Reading undoes rendering

The canonical text of a legible program is read as the program itself, without errors,
unless it opens too many levels of nesting. What the tokens of the text are, they are
whatever the limit is; and a phrase of the grammar is read to its end as long as the limit
is not felt. Main result: `Parsed.ofText_render`.
-/

namespace Scriptlet

open Grammar Token

/-- The first error that was found is the limit on nesting. -/
def Parsed.IsTooDeep (parsed : Parsed) : Prop :=
  ∃ error ∈ parsed.errors.head?, error.cause = .tooDeep

/-- An item of the grammar is read where it ends, or the limit on nesting is reached. -/
theorem Item.parser_of_isItem {c rest : List Token} {item : Item Unit} {ending : Ending}
    (h : IsItem c item ending) (hstops : ending.Stops rest) :
    (∃ blamed behind, Item.parser (c ++ rest) = .error ⟨.tooDeep, blamed⟩ behind) ∨
      Item.parser (c ++ rest) = .ok item rest := by
  have hcut := item_related Parser.CutsOff.congruence (Nested.within_cutsOff maxNesting) (c ++ rest)
  rw [h.complete hstops] at hcut
  exact hcut

/-- Items of the grammar are all that is read of their tokens, or the limit on nesting is
reached in the first of them that is not read. -/
theorem Parsed.Reads.items {c : List Token} {items found : Program Unit} {parsed : Parsed}
    (h : Reads ⟨found, []⟩ c parsed) (hitems : IsItems c items) :
    parsed = ⟨found.reverse ++ items, []⟩ ∨ parsed.IsTooDeep := by
  induction items generalizing c found with
  | nil =>
      cases hitems
      cases h
      simp
  | cons item items ih =>
      cases hitems with
      | @cons c _ ending d _ hitem hitems hjoint =>
          have hstops : ending.Stops (d ++ []) := hitems.stops_before (by simp) hjoint
          rw [List.append_nil] at hstops
          -- Reading agrees with the grammar on the first item, or feels the limit in it.
          have hone := Item.parser_of_isItem hitem hstops
          obtain ⟨first, others, rfl, _⟩ := hitem.starts
          cases h with
          | item hread hrest =>
              rcases hone with ⟨_, _, herror⟩ | hok
              · cases herror.symm.trans hread
              · cases hok.symm.trans hread
                simpa using ih hrest hitems
          | error hread hrest =>
              rcases hone with ⟨blamed, _, herror⟩ | hok
              · cases herror.symm.trans hread
                obtain ⟨errors, heq⟩ := hrest.errors_append
                exact .inr ⟨⟨.tooDeep, blamed⟩, by rw [heq]; rfl, rfl⟩
              · cases hok.symm.trans hread

/-- The tokens of the canonical text of a legible program are its items. -/
theorem Token.isItems_ofText_render {program : Program Unit}
    (h : Item.allLegible program = true) : IsItems (Token.ofText program.render) program := by
  have hitems := spelled_items (Item.isSpelled_of_mem program h) h Separate.nil
  rw [List.append_nil] at hitems
  exact (Spelled.ofText hitems).phrase

/-- Reading undoes rendering: the canonical text of a legible program has no errors and is
read as the program, unless the limit on nesting is reached. -/
theorem Parsed.ofText_render {program : Program Unit} (h : Item.allLegible program = true) :
    Parsed.ofText program.render = ⟨program, []⟩ ∨ (Parsed.ofText program.render).IsTooDeep := by
  have hread := Parsed.reads_ofTokens (Token.ofText program.render)
  exact hread.items (Token.isItems_ofText_render h)

/-- Every form of item and of expression, within the limit. -/
theorem Parsed.ofText_render_sample :
    let program : Program Unit :=
      [.bind "f" (.fn () ["x", "y"]
        [.bind "z" (.binary (.var "x") .add (.unary .negate (.lit (.int 1)))),
          .ret (.index (.var "y") (.var "z"))]),
        .expr (.cond (.unary .not (.var "f")) []
          (some [.expr (.lit (.bool true)), .expr (.lit (.text "a\"\\\t\n"))])),
        .block [.expr (.call (.var "f") [.lit (.int 2), .array [.var "f", .var "f"]])],
        .expr (.cond (.binary (.var "f") .equal (.var "f")) [.expr (.var "f")] none)]
    Item.allLegible program = true ∧ Parsed.ofText program.render = ⟨program, []⟩ := by
  intro program
  have hlegible : Item.allLegible program = true := by decide +kernel
  have hnone : (Parsed.ofText program.render).errors.isEmpty = true := by decide +kernel
  refine ⟨hlegible, (Parsed.ofText_render hlegible).resolve_right ?_⟩
  rw [Parsed.IsTooDeep, List.isEmpty_iff.mp hnone]
  simp

end Scriptlet
