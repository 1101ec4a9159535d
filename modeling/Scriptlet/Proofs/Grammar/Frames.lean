import Scriptlet.Proofs.Grammar.Congruence
import Scriptlet.Proofs.Grammar.Unlimited

/-!
# Levels of nesting as they open

A watched reader reads as the grammar does without a limit, and notes every level of
nesting that it opens: how many are open then, and which tokens are still to come. The
notes say where a limit would be felt. As long as no level beyond it opens, a parser with
the limit does the same; otherwise it gives up where the first such level would open.
-/

namespace Scriptlet

/-- A level of nesting as it opens. -/
structure Watched.Frame where
  /-- The number of levels that are open then, this one among them. -/
  depth : Nat
  /-- The tokens to come. -/
  tokens : List Token
  deriving DecidableEq

/-- What a watched reader leaves. -/
structure Watched.Run (α : Type) where
  /-- The levels that it opened, in order. -/
  frames : List Watched.Frame
  result : EStateM.Result ParseError (List Token) α

/-- A reader that notes the levels that it opens, given how many are open. -/
def Watched (α : Type) : Type :=
  Nat → List Token → Watched.Run α

namespace Watched

variable {α β : Type}

instance : Monad Watched where
  pure a := fun _ tokens => ⟨[], .ok a tokens⟩
  bind p f := fun depth tokens =>
    match p depth tokens with
    | ⟨frames, .ok a rest⟩ =>
        match f a depth rest with
        | ⟨more, result⟩ => ⟨frames ++ more, result⟩
    | ⟨frames, .error error rest⟩ => ⟨frames, .error error rest⟩

/-- Does what a parser does, and notes nothing. -/
def unwatched (p : Parser α) : Watched α := fun _ tokens =>
  ⟨[], p tokens⟩

/-- Opens a level for a part. -/
def nested (p : Watched α) : Watched α := fun depth tokens =>
  match p (depth + 1) tokens with
  | ⟨frames, result⟩ => ⟨⟨depth + 1, tokens⟩ :: frames, result⟩

/-- The steps open no levels of their own. -/
instance : Steps Watched where
  peek? := unwatched Parser.peek?
  next? := unwatched Parser.next?
  failHere cause := unwatched (Parser.failHere cause)
  failBehind cause token := unwatched (Parser.failBehind cause token)
  accept kind := unwatched (Parser.accept kind)
  require what := unwatched (Parser.require what)
  iterate step a := fun depth tokens => iterateWithin step tokens a depth tokens
  unaryOp token := unwatched (Steps.unaryOp token)
  continuation? token := unwatched (Steps.continuation? token)

/-- The parts that may open any number of levels, one in another. So many of these are
watched; what is inside of the last of them is read all the same. -/
def parts : Nat → Parts Watched
  | 0 => ⟨fun floor => unwatched (Nested.unlimited.expr floor), unwatched Nested.unlimited.block⟩
  | levels + 1 =>
      ⟨fun floor => nested (Grammar.expr (parts levels) floor),
        nested (Grammar.block (parts levels))⟩

/-- An expression, watched for so many levels. -/
def expr (levels : Nat) : Precedence → Watched (Expr Unit) :=
  (parts levels).expr

/-- An item, watched for so many levels. -/
def item (levels : Nat) : Watched (Item Unit) :=
  Grammar.item (parts levels)

variable {p : Watched α} {f : α → Watched β} {depth : Nat} {tokens rest : List Token}
variable {frames : List Frame}

/-- A reader that has succeeded hands over to what follows it, which notes on. -/
theorem bind_of_ok {a : α} (h : p depth tokens = ⟨frames, .ok a rest⟩) :
    (p >>= f) depth tokens =
      ⟨frames ++ (f a depth rest).frames, (f a depth rest).result⟩ := by
  simp only [Bind.bind, h]

theorem bind_of_error {error : ParseError} (h : p depth tokens = ⟨frames, .error error rest⟩) :
    (p >>= f) depth tokens = ⟨frames, .error error rest⟩ := by
  simp only [Bind.bind, h]

theorem nested_apply (p : Watched α) (depth : Nat) (tokens : List Token) :
    nested p depth tokens =
      ⟨⟨depth + 1, tokens⟩ :: (p (depth + 1) tokens).frames, (p (depth + 1) tokens).result⟩ :=
  rfl

/-! ## Watching changes nothing -/

/-- The reader does what the parser does, at any depth. -/
def Erases (p : Watched α) (q : Parser α) : Prop :=
  ∀ depth tokens, (p depth tokens).result = q tokens

namespace Erases

theorem bind {q : Parser α} {g : α → Parser β} (h : Erases p q) (hf : ∀ a, Erases (f a) (g a)) :
    Erases (p >>= f) (q >>= g) := by
  intro depth tokens
  have hresult := h depth tokens
  rcases hrun : p depth tokens with ⟨frames, result⟩
  rw [hrun] at hresult
  cases result with
  | ok a rest =>
      rw [bind_of_ok hrun, Parser.bind_of_ok hresult.symm]
      exact hf a depth rest
  | error error rest => rw [bind_of_error hrun, Parser.bind_of_error hresult.symm]

theorem pure (a : α) : Erases (Pure.pure a) (Pure.pure a) :=
  fun _ _ => rfl

theorem steps : Steps.Related (m := Watched) Erases where
  pure := pure
  bind := bind
  peek? := fun _ _ => rfl
  next? := fun _ _ => rfl
  failHere _ := fun _ _ => rfl
  failBehind _ _ := fun _ _ => rfl
  accept _ := fun _ _ => rfl
  require _ := fun _ _ => rfl
  iterate a h := by
    intro depth tokens
    exact iterateWithin_related (m := Watched) Erases pure bind h tokens a depth tokens
  unaryOp _ := fun _ _ => rfl
  continuation? _ := fun _ _ => rfl

theorem parts (levels : Nat) : Parts.Related Erases (parts levels) Nested.unlimited := by
  induction levels with
  | zero => exact ⟨fun _ _ _ => rfl, fun _ _ => rfl⟩
  | succ levels ih =>
      constructor
      · intro floor depth tokens
        change _ = Nested.unlimited.expr floor tokens
        rw [Nested.unlimited_expr]
        exact Grammar.expr_related steps ih floor (depth + 1) tokens
      · intro depth tokens
        change _ = Nested.unlimited.block tokens
        rw [Nested.unlimited_block]
        exact Grammar.block_related steps ih (depth + 1) tokens

end Erases

/-- However far it is watched, an expression is read as without a limit. -/
theorem expr_result (levels : Nat) (floor : Precedence) (depth : Nat) (tokens : List Token) :
    (expr levels floor depth tokens).result = Nested.unlimited.expr floor tokens :=
  (Erases.parts levels).expr floor depth tokens

/-- However far it is watched, an item is read as without a limit. -/
theorem item_result (levels depth : Nat) (tokens : List Token) :
    (item levels depth tokens).result = Grammar.item Nested.unlimited tokens :=
  Grammar.item_related Erases.steps (Erases.parts levels) depth tokens

/-! ## Where a limit is felt -/

/-- What a limit on the open levels makes of a run. -/
inductive Run.Cut (limit : Nat) (run : Run α) :
    EStateM.Result ParseError (List Token) α → Prop where
  /-- No level beyond the limit opens. -/
  | whole (h : ∀ frame ∈ run.frames, frame.depth ≤ limit) : Cut limit run run.result
  /-- The run ends where the first level beyond the limit would open. -/
  | short (before : List Frame) (frame : Frame) (after : List Frame)
      (hframes : run.frames = before ++ frame :: after)
      (hbefore : ∀ earlier ∈ before, earlier.depth ≤ limit) (hframe : frame.depth = limit + 1) :
      Cut limit run (.error ⟨.tooDeep, frame.tokens⟩ frame.tokens)

/-- With so many levels left beside those that are open, the parser does what the limit makes
of the run. -/
def Cuts (depth levels : Nat) (p : Watched α) (q : Parser α) : Prop :=
  ∀ tokens, (p depth tokens).Cut (depth + levels) (q tokens)

namespace Cuts

variable {levels : Nat}

theorem unwatched (q : Parser α) : Cuts depth levels (unwatched q) q :=
  fun _ => .whole (List.forall_mem_nil _)

theorem bind {q : Parser α} {g : α → Parser β} (h : Cuts depth levels p q)
    (hf : ∀ a, Cuts depth levels (f a) (g a)) : Cuts depth levels (p >>= f) (q >>= g) := by
  intro tokens
  have hcut := h tokens
  rcases hrun : p depth tokens with ⟨frames, result⟩
  rw [hrun] at hcut
  generalize hparsed : q tokens = parsed at hcut
  cases hcut with
  | whole hframes =>
      cases result with
      | ok a rest =>
          rw [bind_of_ok hrun, Parser.bind_of_ok hparsed]
          have hcut := hf a rest
          generalize g a rest = parsed at hcut
          cases hcut with
          | whole hmore => exact .whole (List.forall_mem_append.mpr ⟨hframes, hmore⟩)
          | short before frame after hmore hbefore hframe =>
              refine .short (frames ++ before) frame after ?_
                (List.forall_mem_append.mpr ⟨hframes, hbefore⟩) hframe
              rw [hmore, List.append_assoc]
      | error error rest =>
          rw [bind_of_error hrun, Parser.bind_of_error hparsed]
          exact .whole hframes
  | short before frame after hframes hbefore hframe =>
      rw [Parser.bind_of_error hparsed]
      change frames = _ at hframes
      cases result with
      | ok a rest =>
          rw [bind_of_ok hrun]
          refine .short before frame (after ++ (f a depth rest).frames) ?_ hbefore hframe
          rw [hframes, List.append_assoc, List.cons_append]
      | error error rest =>
          rw [bind_of_error hrun]
          exact .short before frame after hframes hbefore hframe

theorem steps (depth levels : Nat) : Steps.Related (m := Watched) (Cuts depth levels) where
  pure a := unwatched (pure a)
  bind := bind
  peek? := unwatched _
  next? := unwatched _
  failHere _ := unwatched _
  failBehind _ _ := unwatched _
  accept _ := unwatched _
  require _ := unwatched _
  iterate a h := by
    intro tokens
    exact iterateWithin_related (m := Watched) (Cuts depth levels) (fun a => unwatched (pure a))
      bind h tokens a tokens
  unaryOp _ := unwatched _
  continuation? _ := unwatched _

/-- A part that opens a level has one level less left inside. -/
theorem nested {q : Parser α} (h : Cuts (depth + 1) levels p q) :
    Cuts depth (levels + 1) (nested p) q := by
  intro tokens
  have hcut := h tokens
  have hlimit : depth + 1 + levels = depth + (levels + 1) := by omega
  rw [hlimit] at hcut
  have hfirst : depth + 1 ≤ depth + (levels + 1) := by omega
  rw [nested_apply]
  generalize q tokens = parsed at hcut
  cases hcut with
  | whole hframes => exact .whole (List.forall_mem_cons.mpr ⟨hfirst, hframes⟩)
  | short before frame after hframes hbefore hframe =>
      refine .short (⟨depth + 1, tokens⟩ :: before) frame after ?_
        (List.forall_mem_cons.mpr ⟨hfirst, hbefore⟩) hframe
      rw [hframes, List.cons_append]

/-- Without a level left no part opens. -/
theorem nested_tooDeep (p : Watched α) :
    Cuts depth 0 (Watched.nested p) (Parser.failHere .tooDeep) :=
  fun tokens => .short [] ⟨depth + 1, tokens⟩ _ rfl (List.forall_mem_nil _) rfl

/-- The parts that are watched beyond the levels left are cut by the limit. -/
theorem parts {watched : Nat} (h : levels < watched) (depth : Nat) :
    Parts.Related (Cuts depth levels) (parts watched) (Nested.within levels) := by
  induction levels generalizing watched depth with
  | zero =>
      obtain ⟨watched, rfl⟩ := Nat.exists_eq_succ_of_ne_zero (Nat.ne_of_gt h)
      exact ⟨fun floor => nested_tooDeep (Grammar.expr (Watched.parts watched) floor),
        nested_tooDeep (Grammar.block (Watched.parts watched))⟩
  | succ levels ih =>
      obtain ⟨watched, rfl⟩ := Nat.exists_eq_succ_of_ne_zero (Nat.ne_zero_of_lt h)
      have hinner := ih (Nat.lt_of_succ_lt_succ h) (depth + 1)
      have hsteps := steps (depth + 1) levels
      exact ⟨fun floor => (Grammar.expr_related hsteps hinner floor).nested,
        (Grammar.block_related hsteps hinner).nested⟩

end Cuts

end Watched

end Scriptlet
