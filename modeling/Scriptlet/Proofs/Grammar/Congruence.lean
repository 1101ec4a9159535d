import Scriptlet.Program.Grammar

/-!
# Relations that the grammar respects

The grammar is made of a few steps, of the parts that open a level of nesting, and of
nothing else. What two kinds of readers have in common shows in a relation between them.
If it holds of the steps and of the parts, it holds of all that the grammar builds from
these. Readers of both kinds may be parsers: then a relation that every way of combining
parsers respects holds of the grammar over parts of which it holds.
-/

namespace Scriptlet

open ParseError (Cause Required)

/-- A relation that holds of what is put together repeats with a step of which it holds. -/
theorem iterateWithin_related {m n : Type → Type} [Monad m] [Monad n] {α : Type}
    (Rel : ∀ {α : Type}, m α → n α → Prop)
    (hpure : ∀ a : α, Rel (pure a : m α) (pure a))
    (hbind : ∀ {p : m (Option α)} {q : n (Option α)} {f : Option α → m α} {g : Option α → n α},
      Rel p q → (∀ a?, Rel (f a?) (g a?)) → Rel (p >>= f) (q >>= g))
    {step : α → m (Option α)} {step' : α → n (Option α)} (h : ∀ a, Rel (step a) (step' a))
    (rounds : List Token) (a : α) :
    Rel (iterateWithin step rounds a) (iterateWithin step' rounds a) := by
  induction rounds generalizing a with
  | nil => exact hpure a
  | cons _ rounds ih =>
      refine hbind (h a) fun next? => ?_
      cases next? with
      | some b => exact ih b
      | none => exact hpure a

/-- A relation between readers of two kinds that holds of their steps, and of what is put
together from readers of which it holds. -/
structure Steps.Related {m n : Type → Type} [Monad m] [Steps m] [Monad n] [Steps n]
    (Rel : ∀ {α : Type}, m α → n α → Prop) : Prop where
  pure {α : Type} (a : α) : Rel (pure a) (pure a)
  bind {α β : Type} {p : m α} {q : n α} {f : α → m β} {g : α → n β} :
    Rel p q → (∀ a, Rel (f a) (g a)) → Rel (p >>= f) (q >>= g)
  peek? : Rel (Steps.peek? : m _) Steps.peek?
  next? : Rel (Steps.next? : m _) Steps.next?
  failHere {α : Type} (cause : Cause) : Rel (Steps.failHere cause : m α) (Steps.failHere cause)
  failBehind {α : Type} (cause : Cause) (token : Token) :
    Rel (Steps.failBehind cause token : m α) (Steps.failBehind cause token)
  accept (kind : Token.Kind) : Rel (Steps.accept kind : m _) (Steps.accept kind)
  require (what : Required) : Rel (Steps.require what : m _) (Steps.require what)
  iterate {α : Type} {step : α → m (Option α)} {step' : α → n (Option α)} (a : α) :
    (∀ a, Rel (step a) (step' a)) → Rel (Steps.iterate step a) (Steps.iterate step' a)
  unaryOp {token : Token} {op : UnaryOp} : UnaryOp.ofKind? token.kind = some op →
    Rel (Steps.unaryOp token : m _) (Steps.unaryOp token)
  continuation? (token : Token) :
    Rel (Steps.continuation? token : m _) (Steps.continuation? token)

/-- The readers of the parts are related. -/
structure Parts.Related {m n : Type → Type} (Rel : ∀ {α : Type}, m α → n α → Prop)
    (parts : Parts m) (parts' : Parts n) : Prop where
  expr (floor : Precedence) : Rel (parts.expr floor) (parts'.expr floor)
  block : Rel parts.block parts'.block

namespace Grammar

variable {m n : Type → Type} [Monad m] [Steps m] [Monad n] [Steps n]
variable {Rel : ∀ {α : Type}, m α → n α → Prop}
variable {inner : Parts m} {inner' : Parts n} {α : Type}
variable (h : Steps.Related (m := m) (n := n) Rel)

include h

theorem moreElements_related {element : m α} {element' : n α} (helement : Rel element element')
    (found : List α) : Rel (moreElements element found) (moreElements element' found) := by
  refine h.iterate found fun found => ?_
  refine h.bind (h.accept .comma) fun more => ?_
  split
  · exact h.bind helement fun _ => h.pure _
  · exact h.pure none

theorem listUpTo_related (closing : Required) {element : m α} {element' : n α}
    (helement : Rel element element') :
    Rel (listUpTo closing element) (listUpTo closing element') := by
  refine h.bind (h.accept _) fun closed => ?_
  split
  · exact h.pure []
  · refine h.bind ?_ fun _ => h.bind (h.require _) fun _ => h.pure _
    exact h.bind helement fun _ => h.bind (moreElements_related h helement _) fun _ => h.pure _

theorem parameter_related : Rel (parameter : m _) parameter :=
  h.bind (h.require .name) fun _ => h.pure _

variable (hinner : Parts.Related Rel inner inner')

include hinner

theorem choice_related : Rel (choice inner) (choice inner') := by
  refine h.bind (h.require _) fun _ => h.bind (hinner.expr _) fun _ => ?_
  refine h.bind (h.require _) fun _ => h.bind hinner.block fun _ => ?_
  refine h.bind (h.accept _) fun more => ?_
  split
  · exact h.bind hinner.block fun _ => h.pure _
  · exact h.pure _

theorem function_related : Rel (function inner) (function inner') := by
  refine h.bind (h.require _) fun _ => ?_
  exact h.bind (listUpTo_related h _ (parameter_related h)) fun _ =>
    h.bind hinner.block fun _ => h.pure _

theorem operand_related (token : Token) :
    Rel (operand inner token) (operand inner' token) := by
  unfold operand
  split
  · exact h.pure _
  · split
    · exact h.pure _
    · exact h.failBehind _ _
  · exact h.pure _
  · exact h.pure _
  · exact h.pure _
  · rename_i hkind
    have hop : UnaryOp.ofKind? token.kind = some .not := by rw [hkind]; rfl
    exact h.bind (h.unaryOp hop) fun _ => h.bind (hinner.expr _) fun _ => h.pure _
  · rename_i hkind
    have hop : UnaryOp.ofKind? token.kind = some .negate := by rw [hkind]; rfl
    exact h.bind (h.unaryOp hop) fun _ => h.bind (hinner.expr _) fun _ => h.pure _
  · exact h.bind (hinner.expr _) fun _ => h.bind (h.require _) fun _ => h.pure _
  · exact choice_related h hinner
  · exact function_related h hinner
  · exact h.bind (listUpTo_related h _ (hinner.expr _)) fun _ => h.pure _
  · exact h.failBehind _ _

theorem continued_related (left : Expr Unit) (continuation : Continuation) :
    Rel (continued inner left continuation) (continued inner' left continuation) := by
  cases continuation with
  | operator op => exact h.bind (hinner.expr _) fun _ => h.pure _
  | call => exact h.bind (listUpTo_related h _ (hinner.expr _)) fun _ => h.pure _
  | index => exact h.bind (hinner.expr _) fun _ => h.bind (h.require _) fun _ => h.pure _

theorem extend_related (floor : Precedence) (left : Expr Unit) :
    Rel (extend inner floor left) (extend inner' floor left) := by
  refine h.bind h.peek? fun token? => ?_
  split
  · exact h.pure none
  · refine h.bind (h.continuation? _) fun continuation? => ?_
    split
    · exact h.pure none
    · split
      · exact h.pure none
      · refine h.bind h.next? fun _ => ?_
        exact h.bind (continued_related h hinner _ _) fun _ => h.pure _

theorem expr_related (floor : Precedence) : Rel (expr inner floor) (expr inner' floor) := by
  refine h.bind h.next? fun token? => ?_
  split
  · exact h.failHere _
  · refine h.bind (operand_related h hinner _) fun left => ?_
    exact h.iterate left fun left => extend_related h hinner floor left

theorem statement_related : Rel (statement inner) (statement inner') := by
  refine h.bind h.peek? fun token? => ?_
  split
  · exact h.failHere _
  · refine h.bind h.next? fun _ => h.bind (h.require _) fun _ => ?_
    exact h.bind (h.require _) fun _ => h.bind (hinner.expr _) fun _ => h.pure _
  · exact h.bind h.next? fun _ => h.bind (hinner.expr _) fun _ => h.pure _
  · exact h.bind hinner.block fun _ => h.pure _
  · exact h.bind (hinner.expr _) fun _ => h.pure _

theorem item_related : Rel (item inner) (item inner') :=
  h.bind (statement_related h hinner) fun _ => h.bind (h.accept _) fun _ => h.pure _

theorem oneMore_related (found : List (Item Unit)) :
    Rel (oneMore inner found) (oneMore inner' found) := by
  refine h.bind h.peek? fun token? => ?_
  split
  · exact h.pure none
  · exact h.pure none
  · exact h.bind (item_related h hinner) fun _ => h.pure _

theorem block_related : Rel (block inner) (block inner') := by
  refine h.bind (h.require _) fun _ => ?_
  refine h.bind (h.iterate [] fun found => oneMore_related h hinner found) fun _ => ?_
  exact h.bind (h.require _) fun _ => h.pure _

end Grammar

/-- A relation between parsers that every way of combining parsers respects. -/
abbrev Parser.Congruence (Rel : ∀ {α : Type}, Parser α → Parser α → Prop) : Prop :=
  Steps.Related (m := Parser) (n := Parser) Rel

end Scriptlet
