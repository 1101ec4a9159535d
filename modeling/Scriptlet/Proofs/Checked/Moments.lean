import Scriptlet.Proofs.Checked.Reader

/-!
# The counter of levels at every moment

A reader that counts the open levels of nesting keeps a record of its moments: whenever it
reads on or counts, how it is then, and which parts are being read. A part is being read
from where its level opens to where the level closes, whatever happens inside of it. So the
record shows whether the counter is right along the way, and not only at the end.

The counter is right at every moment and never above the limit, and what is read is what the
parser reads.
-/

namespace Scriptlet

open Checked (Reader attempt conclude decrement? expect outcome)

/-- A part that opens a level of nesting. -/
inductive Recorded.Part where
  | expr (floor : Precedence)
  | block

/-- A reader at some moment. -/
structure Recorded.Moment where
  /-- The parts that are being read, the innermost first. -/
  parts : List Part
  reader : Reader

/-- A reader with a record of its moments, the latest first. -/
structure Recorder extends Reader where
  moments : List Recorded.Moment

namespace Recorder

/-- A reader of these tokens, before anything is read. -/
def new (tokens : List Token) : Recorder :=
  ⟨⟨tokens, 0⟩, [⟨[], ⟨tokens, 0⟩⟩]⟩

/-- The reader as it is next, while these parts are being read. -/
def become (recorder : Recorder) (parts : List Recorded.Part) (depth : Nat)
    (tokens : List Token) : Recorder :=
  ⟨⟨tokens, depth⟩, ⟨parts, ⟨tokens, depth⟩⟩ :: recorder.moments⟩

end Recorder

/-- What a reader with a record does, while some parts are being read. -/
abbrev Recorded (α : Type) := ReaderT (List Recorded.Part) (Checked ParseError Recorder) α

namespace Recorded

variable {α β : Type}

/-- What a parser does with the tokens to come. -/
def tokens (p : Parser α) : Recorded α := fun parts recorder =>
  outcome (recorder.become parts recorder.depth) (p recorder.tokens)

/-- Sets the counter. -/
def count (depth : Nat) : Recorded PUnit := fun parts =>
  modify fun recorder => recorder.become parts depth recorder.tokens

/-- Opens a level for a part, if there is one left, and closes it behind the part. -/
def nested (part : Part) (p : Recorded α) : Recorded α := fun parts => do
  if maxNesting ≤ (← get).depth then tokens (Parser.failHere .tooDeep) parts
  else
    count ((← get).depth + 1) (part :: parts)
    -- Only what is inside of the part is read with the part on the list.
    let result ← attempt (p (part :: parts))
    count (← expect .counter (decrement? (← get).depth)) parts
    conclude result

/-- The steps open no levels of their own. -/
instance : Steps Recorded where
  peek? := tokens Parser.peek?
  next? := tokens Parser.next?
  failHere cause := tokens (Parser.failHere cause)
  failBehind cause token := tokens (Parser.failBehind cause token)
  accept kind := tokens (Parser.accept kind)
  require what := tokens (Parser.require what)
  iterate step a := do iterateWithin step (← get).tokens a
  unaryOp token := tokens (Steps.unaryOp token)
  continuation? token := tokens (Steps.continuation? token)

/-- The readers of the parts, one in another for so many rounds. -/
def parts : Nat → Parts Recorded
  | 0 => ⟨fun _ => throw (.inl .endless), throw (.inl .endless)⟩
  | rounds + 1 =>
      ⟨fun floor => nested (.expr floor) (Grammar.expr (parts rounds) floor),
        nested .block (Grammar.block (parts rounds))⟩

/-- An expression whose operators bind more tightly than the precedence. There is a round
for every level that may be open, and one more. -/
def expr : Precedence → Recorded (Expr Unit) :=
  (parts (maxNesting + 1)).expr

/-- An item of a program. -/
def item : Recorded (Item Unit) :=
  Grammar.item (parts (maxNesting + 1))

/-- The counter is the number of parts that are being read, and not above the limit. -/
structure Moment.Counted (moment : Moment) : Prop where
  depth_eq : moment.reader.depth = moment.parts.length
  depth_le : moment.reader.depth ≤ maxNesting

/-- While these parts are being read the counter is their number, as is on record, and it
was right at every moment so far. -/
structure Sound (parts : List Part) (recorder : Recorder) : Prop where
  depth_eq : recorder.depth = parts.length
  latest : recorder.moments.head? = some ⟨parts, recorder.toReader⟩
  moments : ∀ moment ∈ recorder.moments, moment.Counted

theorem Sound.new (tokens : List Token) : Sound [] (.new tokens) where
  depth_eq := rfl
  latest := rfl
  moments moment hmoment := by
    obtain rfl := List.mem_singleton.mp hmoment
    exact ⟨rfl, Nat.zero_le _⟩

/-- From outside of all parts nothing but the tokens to come can be seen of a reader. -/
theorem Sound.toReader_eq {recorder : Recorder} (h : Sound [] recorder) :
    recorder.toReader = ⟨recorder.tokens, 0⟩ :=
  congrArg (Reader.mk recorder.tokens) h.depth_eq

/-- The next moment is right if the counter is set to the number of parts. -/
theorem Sound.become {recorder : Recorder} {before : List Part} (h : Sound before recorder)
    (parts : List Part) (hparts : parts.length ≤ maxNesting) (tokens : List Token) :
    Sound parts (recorder.become parts parts.length tokens) where
  depth_eq := rfl
  latest := rfl
  moments := List.forall_mem_cons.mpr ⟨⟨rfl, hparts⟩, h.moments⟩

/-- While these parts are being read, a reader whose counter is right does what a parser
does, and its counter stays right. -/
def Follows (parts : List Part) (p : Recorded α) (q : Parser α) : Prop :=
  ∀ recorder, Sound parts recorder → ∃ next, Sound parts next ∧
    next.tokens = Parser.left (q recorder.tokens) ∧
    p parts recorder = outcome (fun _ => next) (q recorder.tokens)

namespace Follows

variable {parts : List Part} {p : Recorded α} {q : Parser α}

theorem pure (a : α) : Follows parts (Pure.pure a) (Pure.pure a) :=
  fun recorder h => ⟨recorder, h, rfl, rfl⟩

theorem bind {f : α → Recorded β} {g : α → Parser β} (h : Follows parts p q)
    (hf : ∀ a, Follows parts (f a) (g a)) : Follows parts (p >>= f) (q >>= g) := by
  intro recorder hsound
  obtain ⟨next, hnext, htokens, hrun⟩ := h recorder hsound
  change ∃ last, _ ∧ _ ∧ (p parts >>= fun a => f a parts) recorder = _
  cases hparsed : q recorder.tokens with
  | ok a rest =>
      rw [hparsed] at htokens hrun
      obtain rfl : next.tokens = rest := htokens
      rw [Checked.bind_of_ok hrun, Parser.bind_of_ok hparsed]
      exact hf a next hnext
  | error error rest =>
      rw [hparsed] at htokens hrun
      rw [Checked.bind_of_error hrun, Parser.bind_of_error hparsed]
      exact ⟨next, hnext, htokens, rfl⟩

theorem tokens (hparts : parts.length ≤ maxNesting) (q : Parser α) :
    Follows parts (tokens q) q := by
  intro recorder h
  refine ⟨_, h.become parts hparts (Parser.left (q recorder.tokens)), rfl, ?_⟩
  simp only [Recorded.tokens, h.depth_eq]
  cases q recorder.tokens <;> rfl

theorem steps (hparts : parts.length ≤ maxNesting) :
    Steps.Related (m := Recorded) (n := Parser) (Follows parts) where
  pure := pure
  bind := bind
  peek? := tokens hparts Parser.peek?
  next? := tokens hparts Parser.next?
  failHere cause := tokens hparts (Parser.failHere cause)
  failBehind cause token := tokens hparts (Parser.failBehind cause token)
  accept _ := tokens hparts _
  require _ := tokens hparts _
  iterate {_ step step'} a h := by
    have hrounds (rounds : List Token) : Follows parts (iterateWithin step rounds a)
        (iterateWithin step' rounds a) :=
      iterateWithin_related (m := Recorded) (Follows parts) pure bind h rounds a
    exact fun recorder hsound => hrounds recorder.tokens recorder hsound
  unaryOp _ := tokens hparts _
  continuation? _ := tokens hparts _

/-- Within the limit, a part is one more that is being read until its level is closed. -/
theorem nested {part : Part} (h : Follows (part :: parts) p q)
    (hparts : parts.length < maxNesting) : Follows parts (nested part p) q := by
  intro recorder hsound
  have hdepth : ¬maxNesting ≤ recorder.depth := by
    rw [hsound.depth_eq]
    exact Nat.not_le_of_lt hparts
  have hopened := hsound.become (part :: parts) hparts recorder.tokens
  obtain ⟨behind, hbehind, htokens, hrun⟩ := h _ hopened
  have hattempt : (attempt (p (part :: parts)) : Checked ParseError Recorder _) _ = _ :=
    Checked.attempt_of_eq hrun
  have hclosed := hbehind.become parts (Nat.le_of_lt hparts) behind.tokens
  refine ⟨_, hclosed, htokens, ?_⟩
  unfold Recorded.nested count
  rw [Checked.get_bind, if_neg hdepth, Checked.get_bind, Checked.modify_bind, hsound.depth_eq]
  rw [List.length_cons] at hattempt
  rw [Checked.bind_of_ok hattempt, Checked.get_bind, hbehind.depth_eq]
  -- However the attempt has ended, the counter is above zero then, since the part keeps it.
  exact Checked.conclude_ending (fun _ => behind.become parts parts.length behind.tokens)
    (q recorder.tokens)

/-- At the limit no part can be read. -/
theorem nested_tooDeep (part : Part) (p : Recorded α) (hparts : parts.length = maxNesting) :
    Follows parts (Recorded.nested part p) (Parser.failHere .tooDeep) := by
  intro recorder hsound
  have hdepth : maxNesting ≤ recorder.depth := by
    rw [hsound.depth_eq]
    exact Nat.le_of_eq hparts.symm
  have hrun : Recorded.nested part p parts recorder =
      Recorded.tokens (Parser.failHere .tooDeep) parts recorder := by
    unfold Recorded.nested
    rw [Checked.get_bind, if_pos hdepth]
  rw [hrun]
  exact tokens (Nat.le_of_eq hparts) (Parser.failHere .tooDeep) recorder hsound

/-- While some parts are being read, the readers of the parts do what parsers do that may open
the levels left. -/
theorem within {levels : Nat} (hlevels : parts.length + levels = maxNesting) :
    Parts.Related (Follows parts) (Recorded.parts (levels + 1)) (Nested.within levels) := by
  induction levels generalizing parts with
  | zero =>
      -- The test of the counter comes before the rounds run out.
      exact ⟨fun _ => nested_tooDeep _ _ hlevels, nested_tooDeep _ _ hlevels⟩
  | succ levels ih =>
      have hparts : parts.length < maxNesting := by omega
      have hsteps (part : Part) :
          Steps.Related (m := Recorded) (n := Parser) (Follows (part :: parts)) :=
        steps hparts
      have hinner (part : Part) : Parts.Related (Follows (part :: parts))
          (Recorded.parts (levels + 1)) (Nested.within levels) :=
        ih (by rw [List.length_cons]; omega)
      exact ⟨fun floor => (Grammar.expr_related (hsteps _) (hinner _) floor).nested hparts,
        (Grammar.block_related (hsteps _) (hinner _)).nested hparts⟩

end Follows

end Recorded

end Scriptlet
