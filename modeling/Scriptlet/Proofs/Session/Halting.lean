import Scriptlet.Proofs.Program.Loops
import Scriptlet.Proofs.Session.Adequacy

/-!
# Running always ends

A run cuts the text into tokens, reads them item by item and evaluates the program, with
loops and a machine that nothing bounds. In every session that a host can reach it ends,
and so does every call. The limit on calls in progress is what ends a recursion: with
each call there are fewer that may still be opened, and the evaluation of a body goes
down into the program otherwise.
-/

namespace Scriptlet

open Machine

namespace Session

variable {session : Session}

/-- A run of a text that ends with an outcome and leaves a session, in so many rounds and
steps as it takes. -/
inductive Runs (session : Session) (text : String) :
    Except (List ParseError) (Option Value) → Session → Prop where
  | rejected {tokens : List Token} {parsed : Parsed}
      (hlex : (Token.Cursor.start text).Lexes tokens)
      (hread : Parsed.Reads ⟨[], []⟩ tokens parsed) (herrors : parsed.errors ≠ []) :
      Runs session text (.error parsed.errors) session
  | ended {tokens : List Token} {parsed : Parsed} {program : Program Nat}
      {loaded last : Session} {value : Option Value}
      (hlex : (Token.Cursor.start text).Lexes tokens)
      (hread : Parsed.Reads ⟨[], []⟩ tokens parsed) (herrors : parsed.errors = [])
      (hload : session.load parsed.program = (program, loaded))
      (heval : Reaches withinLimit (.ofProgram loaded program) ⟨.ended value, [], last⟩) :
      Runs session text (.ok value) last
  | returned {tokens : List Token} {parsed : Parsed} {program : Program Nat}
      {loaded last : Session} {value : Value}
      (hlex : (Token.Cursor.start text).Lexes tokens)
      (hread : Parsed.Reads ⟨[], []⟩ tokens parsed) (herrors : parsed.errors = [])
      (hload : session.load parsed.program = (program, loaded))
      (heval : Reaches withinLimit (.ofProgram loaded program)
        ⟨.unwinding (.returned value), [], last⟩) :
      Runs session text (.ok (some value)) last
  | failed {tokens : List Token} {parsed : Parsed} {program : Program Nat}
      {loaded last : Session} {fault : Fault}
      (hlex : (Token.Cursor.start text).Lexes tokens)
      (hread : Parsed.Reads ⟨[], []⟩ tokens parsed) (herrors : parsed.errors = [])
      (hload : session.load parsed.program = (program, loaded))
      (heval : Reaches withinLimit (.ofProgram loaded program)
        ⟨.unwinding (.fault fault), [], last⟩) :
      Runs session text (.ok (some (.error fault.message))) last

/-- Evaluating a program ends in every well-formed session. -/
theorem WellFormed.reaches_program (h : session.WellFormed) (hdepth : session.depth ≤ maxCalls)
    (program : Program Nat) :
    Reaches withinLimit (.ofProgram session program)
      (.ofResult .ended [] (Item.evalAll session.callRule none program session)) := by
  have hlimit : session.depth + (maxCalls - session.depth) = maxCalls :=
    Nat.add_sub_cancel' hdepth
  have hkept : (Law.wellFormed session.depth).KeptBy session.callRule :=
    Law.wellFormed_keptBy session.depth _
  exact simulates_items hkept (simulates_calls hlimit) program none ⟨h, rfl⟩ []

/-- Calling a value ends in every well-formed session. -/
theorem WellFormed.reaches_call (h : session.WellFormed) (hdepth : session.depth ≤ maxCalls)
    {callee : Value} {args : List Value} (hcallee : callee.FitsIn session.store.size)
    (hargs : ∀ value ∈ args, value.FitsIn session.store.size) :
    Reaches withinLimit (.ofCall session callee args)
      (.ofResult .value [] (session.call callee args)) := by
  have hlimit : session.depth + (maxCalls - session.depth) = maxCalls :=
    Nat.add_sub_cancel' hdepth
  cases callee with
  | function f => exact simulates_calls hlimit session f args ⟨h, rfl⟩ hcallee hargs []
  | native f => exact .of_step rfl
  | int | text | bool | null | array | error => exact .refl _

theorem Reachable.depth_le {natives : Natives} (h : Reachable natives session) :
    session.depth ≤ maxCalls := by
  rw [h.atRest.depth]
  exact Nat.zero_le _

/-- A run of a text in a session that a host can reach ends, with what running it
yields. -/
theorem Reachable.runs {natives : Natives} (h : Reachable natives session) (text : String) :
    session.Runs text (session.run text).1 (session.run text).2 := by
  have hlex := Token.Cursor.lexes_tokens (Token.Cursor.start text)
  have hread : Parsed.Reads ⟨[], []⟩ (Token.Cursor.start text).tokens.1 (Parsed.ofText text) :=
    Parsed.reads_ofTokens _
  unfold Session.run
  dsimp only
  by_cases herrors : (Parsed.ofText text).errors = []
  · rw [herrors]
    simp only [List.isEmpty_nil, if_true]
    rcases hload : session.load (Parsed.ofText text).program with ⟨program, loaded⟩
    have hloaded : loaded = (session.load (Parsed.ofText text).program).2 := by rw [hload]
    have hwell : loaded.WellFormed := by
      rw [hloaded]
      exact h.wellFormed.of_eq rfl rfl
    have hdepth : loaded.depth ≤ maxCalls := by
      rw [hloaded]
      exact h.depth_le
    have heval := hwell.reaches_program hdepth program
    -- The three ways an evaluation can come out are the three ways a run can end.
    dsimp only
    unfold Session.evaluate
    cases hresult : Item.evalAll loaded.callRule none program loaded with
    | ok value last =>
        rw [hresult] at heval
        exact .ended hlex hread herrors hload heval
    | error unwind last =>
        rw [hresult] at heval
        cases unwind with
        | returned value => exact .returned hlex hread herrors hload heval
        | fault fault => exact .failed hlex hread herrors hload heval
  · rw [if_neg (by simpa using herrors)]
    exact .rejected hlex hread herrors

/-- Everything that a run or a call is made of ends, in every session that a host can
reach: cutting a text into tokens, the repetitions of the grammar, reading the items of a
program, which takes a token in every round, and evaluating it; and calling a value. -/
theorem always_halts {natives : Natives} (h : Reachable natives session) :
    (∀ text, session.Runs text (session.run text).1 (session.run text).2) ∧
    (∀ (callee : Value) (args : List Value), callee.FitsIn session.store.size →
      (∀ value ∈ args, value.FitsIn session.store.size) →
        Reaches withinLimit (.ofCall session callee args)
          (.ofResult .value [] (session.call callee args))) ∧
    (∀ text, (Token.Cursor.start text).Lexes (Token.ofText text)) ∧
    (∀ tokens, Parsed.Reads ⟨[], []⟩ tokens (Parsed.ofTokens tokens)) ∧
    (∀ token behind, Parser.left (Item.parser (token :: behind)) <:+ behind) ∧
    (∀ levels floor left tokens,
      Parser.Repeats (Grammar.extend (Nested.within levels) floor) left tokens
        (Parser.iterate (Grammar.extend (Nested.within levels) floor) left tokens)) ∧
    (∀ levels found tokens,
      Parser.Repeats (Grammar.oneMore (Nested.within levels)) found tokens
        (Parser.iterate (Grammar.oneMore (Nested.within levels)) found tokens)) ∧
    (∀ levels found tokens,
      Parser.Repeats (Grammar.nextElement ((Nested.within levels).expr .lowest)) found tokens
        (Grammar.moreElements ((Nested.within levels).expr .lowest) found tokens)) ∧
    (∀ found tokens,
      Parser.Repeats (Grammar.nextElement Grammar.parameter) found tokens
        (Grammar.moreElements (m := Parser) Grammar.parameter found tokens)) := by
  refine ⟨h.runs, fun callee args hcallee hargs => ?_, fun text => ?_, Parsed.reads_ofTokens,
    Item.parser_left, fun levels floor left tokens => ?_, fun levels found tokens => ?_,
    fun levels found tokens => ?_, fun found tokens => ?_⟩
  · exact h.wellFormed.reaches_call h.depth_le hcallee hargs
  · exact Token.Cursor.lexes_tokens _
  · exact Parser.repeats_iterate
      (Grammar.extend_advances (Nested.within_reading levels) floor) left tokens
  · exact Parser.repeats_iterate (Grammar.oneMore_advances (Nested.within_reading levels))
      found tokens
  · have hexpr := fun count => ((Nested.within_reading levels).suffix count).expr .lowest
    exact Parser.repeats_iterate (Grammar.nextElement_advances hexpr) found tokens
  · have hparameter := fun count =>
      Grammar.parameter_related (Parser.AgreeUpTo.congruence count)
    exact Parser.repeats_iterate (Grammar.nextElement_advances hparameter) found tokens

/-- At the start of a session a text whose function calls itself without end is run to
its end, and a function that gives back its argument is called to its end. -/
theorem always_halts_start :
    Reachable .standard (Session.start .standard false) ∧
      (Session.start .standard false).Runs "let f = fn(x) \x7b f(x) \x7d; f(1)"
        ((Session.start .standard false).run "let f = fn(x) \x7b f(x) \x7d; f(1)").1
        ((Session.start .standard false).run "let f = fn(x) \x7b f(x) \x7d; f(1)").2 ∧
      Value.FitsIn (Session.start .standard false).store.size
        (.function ⟨0, ["x"], [.ret (.var "x")], 0⟩) ∧
      Reaches withinLimit
        (.ofCall (Session.start .standard false) (.function ⟨0, ["x"], [.ret (.var "x")], 0⟩) [.null])
        (.ofResult .value [] ((Session.start .standard false).call
          (.function ⟨0, ["x"], [.ret (.var "x")], 0⟩) [.null])) := by
  have hfits : Value.FitsIn (Session.start .standard false).store.size
      (.function ⟨0, ["x"], [.ret (.var "x")], 0⟩) :=
    .function (by decide)
  refine ⟨.start false, (always_halts (.start false)).1 _, hfits, ?_⟩
  refine (always_halts (.start false)).2.1 _ _ hfits fun value hvalue => ?_
  rw [List.mem_singleton.mp hvalue]
  exact .plain .null

end Session

end Scriptlet
