import Scriptlet.Proofs.Grammar.Joining
import Scriptlet.Proofs.Session.Cutting
import Scriptlet.Proofs.Session.Driven
import Scriptlet.Proofs.Session.Unseen
import Scriptlet.Proofs.Token.Restarting

/-!
# Running a text in parts

A text whose tokens end in a semicolon may be cut off there: to run it together with
another one on the lines behind is to run the two one after the other. The tokens start
anew at the line break, the items of the second text are those that are read behind the
first, and their function literals get the numbers that they get later. Only when the
first part fails or returns does it matter that the two are one program.
-/

namespace Scriptlet

/-- Tokens further down are alike. -/
theorem Token.alike_shift (lines : Nat) (tokens : List Token) :
    List.Forall₂ Token.Alike tokens (tokens.map (Token.shift lines)) :=
  List.forall₂_map_right_iff.mpr (List.forall₂_same.mpr fun _ _ => ⟨rfl, rfl⟩)

/-- Texts without errors, of which the first one ends in a semicolon, are read as the
items of both. -/
theorem Parsed.ofText_append {a b : String}
    (hends : ∀ token ∈ (Token.ofText a).getLast?, token.kind = .semicolon)
    (ha : (Parsed.ofText a).errors = []) (hb : (Parsed.ofText b).errors = []) :
    Parsed.ofText (a ++ "\n" ++ b) =
      ⟨(Parsed.ofText a).program ++ (Parsed.ofText b).program, []⟩ := by
  have hclosed : (Token.Cursor.start a).Closed :=
    (Token.Cursor.closed_iff _).mpr fun token htoken => by
      simp [Token.isLeftOpen, hends token htoken]
  have hbreak : ∀ c ∈ "\n".toList, Token.isBlank c = true := by simp [Token.isBlank]
  unfold Parsed.ofText
  rw [Token.ofText_append hclosed (by decide) hbreak]
  exact Parsed.ofTokens_append ha hb hends (List.forall₂_same.mpr fun _ _ => ⟨rfl, rfl⟩)
    (Token.alike_shift _ _)

/-- Numbering goes on from one part of a program to the next. -/
theorem Item.numberEach_append {Mark : Type} (items more : List (Item Mark)) :
    Item.numberEach (items ++ more) =
      (do return (← Item.numberEach items) ++ (← Item.numberEach more) :
        StateM Nat (List (Item Nat))) := by
  induction items with
  | nil => simp [Item.numberEach]
  | cons item items ih => simp [Item.numberEach, ih]

/-- The value before does not matter where there are items. -/
theorem Item.evalAll_last {items : List (Item Nat)} (h : items ≠ []) (call : CallRule)
    (last last' : Option Value) : Item.evalAll call last items = Item.evalAll call last' items := by
  cases items with
  | nil => exact absurd rfl h
  | cons item items => simp only [Item.evalAll]

/-- Whether there is a result, so that the evaluation has neither failed nor returned. -/
def Eval.Outcome.isOk {α : Type} : Eval.Outcome α → Bool
  | .ok _ _ => true
  | .error _ _ => false

namespace Session

variable {session later : Session}

theorem load_append (session : Session) (first second : Program Unit) :
    session.load (first ++ second) =
      ((session.load first).1 ++ ((session.load first).2.load second).1,
        ((session.load first).2.load second).2) := by
  simp only [load, Item.numberEach_append]
  rfl

/-- What a program is when it is loaded depends on the number of literals only. -/
theorem load_eq_of_literals (h : later.literals = session.literals) (program : Program Unit) :
    later.load program =
      ((session.load program).1, withLiterals (session.load program).2.literals later) := by
  simp only [load, h]
  rfl

theorem load_fst_eq_nil_iff (session : Session) (program : Program Unit) :
    (session.load program).1 = [] ↔ program = [] := by
  cases program with
  | nil => exact ⟨fun _ => rfl, fun _ => rfl⟩
  | cons item items => simp [load, Item.numberEach]

section Parts

variable {first : Program Unit}

/-- The evaluation of a loaded program leaves a session that goes on with numbering where
loading stopped, and calls as before. -/
theorem load_last
    (h : Eval.last (Item.evalAll session.callRule none (session.load first).1
      (session.load first).2) = later) (second : Program Unit) :
    later.load second = (((session.load first).2.load second).1,
        withLiterals ((session.load first).2.load second).2.literals later) ∧
      later.callRule = session.callRule := by
  subst h
  constructor
  · refine load_eq_of_literals ?_ second
    exact (Item.evalAll_keeps Law.sameLiterals_kept (Law.sameLiterals_keptBy _) _ none
      (fun _ _ => True.intro) True.intro fun _ _ => True.intro).last.2
  · have hdepth := (Item.evalAll_confined (maxCalls - session.depth) (session.load first).2 none
      (session.load first).1).depth
    exact congrArg (fun depth => callWithin (maxCalls - depth)) hdepth

/-- More literals that are numbered already change nothing about an evaluation. -/
theorem evalAll_load (session : Session) (first second : Program Unit) :
    Item.evalAll session.callRule none (session.load first).1
        ((session.load first).2.load second).2 =
      Eval.changed (withLiterals ((session.load first).2.load second).2.literals)
        (Item.evalAll session.callRule none (session.load first).1 (session.load first).2) :=
  Item.evalAll_withLiterals _ none _ (session.load first).2 _

/-- With another program behind it, a program that completes is evaluated in the same way,
and then the other one, numbered as if it came later. -/
theorem evalAll_load_append_of_ok {value? : Option Value}
    (h : Item.evalAll session.callRule none (session.load first).1 (session.load first).2 =
      .ok value? later) (second : Program Unit) :
    Item.evalAll session.callRule none (session.load (first ++ second)).1
        (session.load (first ++ second)).2 =
      Item.evalAll later.callRule value? (later.load second).1 (later.load second).2 := by
  have hlast : Eval.last (Item.evalAll session.callRule none (session.load first).1
      (session.load first).2) = later := congrArg Eval.last h
  obtain ⟨hload, hrule⟩ := load_last hlast second
  have hfirst := evalAll_load session first second
  rw [h] at hfirst
  rw [load_append, Item.evalAll_append, Eval.bind_of_ok hfirst, hload, hrule]

/-- With another program behind it, a program that is cut short ends in the same way. The
literals of the other one are numbered, and nothing of it is evaluated. -/
theorem evalAll_load_append_of_error {unwind : Unwind}
    (h : Item.evalAll session.callRule none (session.load first).1 (session.load first).2 =
      .error unwind later) (second : Program Unit) :
    Item.evalAll session.callRule none (session.load (first ++ second)).1
        (session.load (first ++ second)).2 = .error unwind (later.load second).2 := by
  have hlast : Eval.last (Item.evalAll session.callRule none (session.load first).1
      (session.load first).2) = later := congrArg Eval.last h
  obtain ⟨hload, -⟩ := load_last hlast second
  have hfirst := evalAll_load session first second
  rw [h] at hfirst
  rw [load_append, Item.evalAll_append, Eval.bind_of_error hfirst, hload]

end Parts

/-- Whether the evaluation of the program of a text neither fails nor returns outside of
calls. -/
def completes (session : Session) (text : String) : Bool :=
  Eval.Outcome.isOk (Item.evalAll session.callRule none
    (session.load (Parsed.ofText text).program).1
    (session.load (Parsed.ofText text).program).2)

/-- The value of a program, and the session that its evaluation leaves. -/
def settled : Eval.Outcome (Option Value) → Option Value × Session
  | .ok value? session => (value?, session)
  | .error (.returned value) session => (some value, session)
  | .error (.fault fault) session => (some (.error fault.message), session)

theorem evaluate_eq (session : Session) (program : Program Nat) :
    session.evaluate program =
      settled (Item.evalAll session.callRule none program session) := by
  unfold evaluate
  split <;> simp only [settled, *]

/-- Only the session of an outcome shows where a program is cut short. -/
theorem settled_error (unwind : Unwind) (session later : Session) :
    settled (.error unwind later) = ((settled (.error unwind session)).1, later) := by
  cases unwind <;> rfl

theorem run_of_errors_eq_nil {text : String} (h : (Parsed.ofText text).errors = [])
    {outcome : Eval.Outcome (Option Value)}
    (houtcome : Item.evalAll session.callRule none
      (session.load (Parsed.ofText text).program).1
      (session.load (Parsed.ofText text).program).2 = outcome) :
    session.run text = (.ok (settled outcome).1, (settled outcome).2) := by
  subst houtcome
  simp only [run, h, List.isEmpty_nil, if_true, evaluate_eq]
  rfl

/-- To run two texts with a line break between them is to run one after the other, if the
tokens of the first one end in a semicolon and neither has errors: the items read are those
of both, and the session comes out the same, with all that was printed, bound and recorded.
The value is that of the second text, or of the first one when there are no items in the
second. If the first one fails or returns outside of calls, its value and its session
come out, except that the function literals of the second one have got their numbers. A
string literal that is left open in the first text is an illegal token at its end, so it
need not be excluded. -/
theorem run_joined (session : Session) (a b : String)
    (hends : ∀ token ∈ (Token.ofText a).getLast?, token.kind = .semicolon)
    (ha : (Parsed.ofText a).errors = []) (hb : (Parsed.ofText b).errors = []) :
    Parsed.ofText (a ++ "\n" ++ b) =
        ⟨(Parsed.ofText a).program ++ (Parsed.ofText b).program, []⟩ ∧
      (session.completes a = true →
        (session.run (a ++ "\n" ++ b)).2 = ((session.run a).2.run b).2 ∧
          (session.run (a ++ "\n" ++ b)).1 =
            if (Parsed.ofText b).program.isEmpty then (session.run a).1
            else ((session.run a).2.run b).1) ∧
      (session.completes a = false →
        session.run (a ++ "\n" ++ b) =
          ((session.run a).1, ((session.run a).2.load (Parsed.ofText b).program).2)) := by
  have hjoined := Parsed.ofText_append hends ha hb
  have herrors : (Parsed.ofText (a ++ "\n" ++ b)).errors = [] := by rw [hjoined]
  have hprogram : (Parsed.ofText (a ++ "\n" ++ b)).program =
      (Parsed.ofText a).program ++ (Parsed.ofText b).program := by rw [hjoined]
  refine ⟨hjoined, fun hcompletes => ?_, fun hcompletes => ?_⟩
  · cases houtcome : Item.evalAll session.callRule none
      (session.load (Parsed.ofText a).program).1 (session.load (Parsed.ofText a).program).2 with
    | error unwind later =>
        rw [completes, houtcome] at hcompletes
        cases hcompletes
    | ok value? later =>
        have hboth := evalAll_load_append_of_ok houtcome (Parsed.ofText b).program
        have hfirst : settled (.ok value? later) = (value?, later) := rfl
        rw [← hprogram] at hboth
        rw [run_of_errors_eq_nil herrors hboth, run_of_errors_eq_nil ha houtcome, hfirst,
          run_of_errors_eq_nil hb rfl]
        cases hsecond : (Parsed.ofText b).program with
        | nil => exact ⟨rfl, rfl⟩
        | cons item items =>
            have hne : (later.load (item :: items)).1 ≠ [] := by simp [load_fst_eq_nil_iff]
            rw [Item.evalAll_last hne later.callRule value? none]
            exact ⟨rfl, rfl⟩
  · cases houtcome : Item.evalAll session.callRule none
      (session.load (Parsed.ofText a).program).1 (session.load (Parsed.ofText a).program).2 with
    | ok value? later =>
        rw [completes, houtcome] at hcompletes
        cases hcompletes
    | error unwind later =>
        have hboth := evalAll_load_append_of_error houtcome (Parsed.ofText b).program
        rw [← hprogram] at hboth
        rw [run_of_errors_eq_nil herrors hboth, run_of_errors_eq_nil ha houtcome,
          settled_error unwind later, settled_error unwind later]

/-- A function that was defined in the first part is called in the second one; and behind a
part that fails nothing is printed any more. -/
theorem run_joined_start :
    ((Session.start .standard false).completes "let f = fn(x) \x7b puts(x) \x7d; f(1);" = true ∧
      ((Session.start .standard false).run
          ("let f = fn(x) \x7b puts(x) \x7d; f(1);" ++ "\n" ++ "let g = f; g(2)")).2 =
        (((Session.start .standard false).run "let f = fn(x) \x7b puts(x) \x7d; f(1);").2.run
          "let g = f; g(2)").2) ∧
    ((Session.start .standard false).completes "puts(1); -true;" = false ∧
      (Session.start .standard false).run
          ("puts(1); -true;" ++ "\n" ++ "puts(fn() \x7b\x7d)") =
        (((Session.start .standard false).run "puts(1); -true;").1,
          (((Session.start .standard false).run "puts(1); -true;").2.load
            (Parsed.ofText "puts(fn() \x7b\x7d)").program).2)) := by
  have hfirst : (Session.start .standard false).completes
      "let f = fn(x) \x7b puts(x) \x7d; f(1);" = true := by
    decide +kernel
  have hfails : (Session.start .standard false).completes "puts(1); -true;" = false := by
    decide +kernel
  refine ⟨⟨hfirst, ?_⟩, hfails, ?_⟩
  · exact ((run_joined (Session.start .standard false) "let f = fn(x) \x7b puts(x) \x7d; f(1);"
      "let g = f; g(2)" (by decide +kernel) (by decide +kernel) (by decide +kernel)).2.1 hfirst).1
  · exact (run_joined (Session.start .standard false) "puts(1); -true;" "puts(fn() \x7b\x7d)"
      (by decide +kernel) (by decide +kernel) (by decide +kernel)).2.2 hfails

end Session

end Scriptlet
