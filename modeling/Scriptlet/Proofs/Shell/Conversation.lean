import Scriptlet.Proofs.Session.Unseen
import Scriptlet.Proofs.Shell.Lines

/-!
# A conversation line by line

A conversation answers its lines one by one in a single session, whatever fails in them:
each sees what the lines before it left. It ends with the input, or at the first line
that is no text; what was answered until then stands.
-/

namespace Scriptlet.Shell

/-- The line that shows the value of a text, if it has one. -/
def valueLine : Except (List ParseError) (Option Value) → String
  | .ok (some value) => line value.render
  | _ => ""

/-- The lines that show the errors of syntax of a text. -/
def errorLines : Except (List ParseError) (Option Value) → String
  | .ok _ => ""
  | .error errors => String.join (errors.map fun error => line error.message)

/-- What is shown and complained of for parts of an input that are run one after the other,
each in the session that the one before it left. -/
inductive Answers : Session → List (List UInt8) → String → String → Session → Prop where
  | nil {session : Session} : Answers session [] "" "" session
  | cons {session next last : Session} {part : List UInt8} {parts : List (List UInt8)}
      {text printed shown complaints : String} {outcome : Except (List ParseError) (Option Value)}
      (htext : decode? part = some text) (hrun : session.run text = (outcome, next))
      (hprinted : next.output = session.output ++ printed)
      (hothers : Answers next parts shown complaints last) :
      Answers session (part :: parts) (prompt ++ printed ++ valueLine outcome ++ shown)
        (errorLines outcome ++ complaints) last

/-- A session that handed over what it printed, beside one that kept all of it. -/
def Drained (drained kept : Session) : Prop :=
  drained.output = "" ∧ ∃ output events, kept = drained.behind output events

theorem drained_freshSession : Drained freshSession freshSession :=
  ⟨rfl, "", [], rfl⟩

/-- A text has the same outcome in both sessions, and the one that kept all prints what the
other one does. -/
theorem Drained.run {drained kept next : Session} (h : Drained drained kept) {text : String}
    {outcome : Except (List ParseError) (Option Value)}
    (hrun : drained.run text = (outcome, next)) :
    ∃ last, kept.run text = (outcome, last) ∧ last.output = kept.output ++ next.output ∧
      Drained next.takeReport.2 last := by
  obtain ⟨hempty, output, events, rfl⟩ := h
  refine ⟨next.behind output events, ?_, ?_, rfl, output ++ next.output,
    next.trace?.getD [] ++ events, ?_⟩
  · rw [Session.run_behind, hrun]
  · simp [Session.behind, hempty]
  · cases htrace : next.trace? <;> simp [Session.behind, Session.takeReport, htrace]

/-- The answer to a line of text, and the session behind it. -/
theorem turn_eq {session next : Session} {part : List UInt8} {text : String}
    {outcome : Except (List ParseError) (Option Value)} (htext : decode? part = some text)
    (hrun : session.run text = (outcome, next)) :
    ∃ succeeded, turn session part =
      .ok (⟨next.output ++ valueLine outcome, errorLines outcome, succeeded⟩,
        next.takeReport.2) := by
  unfold turn
  rw [htext]
  dsimp only [reply]
  rw [hrun]
  cases outcome with
  | error errors => exact ⟨false, by simp [valueLine, errorLines, Session.takeReport]⟩
  | ok value? =>
      cases value? with
      | none => exact ⟨true, by simp [valueLine, errorLines, Session.takeReport]⟩
      | some value =>
          exact ⟨value.kind != .error, by simp [valueLine, errorLines, Session.takeReport]⟩

/-- A conversation comes behind its first lines with their answers. -/
theorem converseFrom_append {parts : List (List UInt8)}
    (htexts : ∀ part ∈ parts, (decode? part).isSome) {drained kept : Session}
    (h : Drained drained kept) :
    ∃ shown complaints drained' kept', Answers kept parts shown complaints kept' ∧
      Drained drained' kept' ∧ ∀ output errors rest,
        converseFrom output errors drained (parts ++ rest) =
          converseFrom (output ++ shown) (errors ++ complaints) drained' rest := by
  induction parts generalizing drained kept with
  | nil => exact ⟨"", "", drained, kept, .nil, h, by simp⟩
  | cons part parts ih =>
      obtain ⟨text, htext⟩ := Option.isSome_iff_exists.mp (htexts part List.mem_cons_self)
      obtain ⟨last, hlast, hprinted, hdrained⟩ := h.run (rfl : drained.run text = (_, _))
      obtain ⟨succeeded, hturn⟩ := turn_eq htext (rfl : drained.run text = (_, _))
      obtain ⟨shown, complaints, drained', kept', hanswers, hdrained', hrest⟩ :=
        ih (fun other hother => htexts other (List.mem_cons_of_mem _ hother)) hdrained
      refine ⟨_, _, drained', kept', .cons htext hlast hprinted hanswers, hdrained', ?_⟩
      intro output errors rest
      rw [List.cons_append, converseFrom, hturn]
      dsimp only
      rw [hrest]
      simp only [String.append_assoc]

/-- Behind what is written, a conversation writes a prompt. -/
theorem converseFrom_prompts (output errors : String) (session : Session)
    (parts : List (List UInt8)) :
    ∃ rest, (converseFrom output errors session parts).output = output ++ prompt ++ rest := by
  induction parts generalizing output errors session with
  | nil => exact ⟨"\n", by simp [converseFrom, line, String.append_assoc]⟩
  | cons part parts ih =>
      unfold converseFrom
      split
      next answer session _ =>
        obtain ⟨rest, hrest⟩ :=
          ih (output ++ prompt ++ answer.output) (errors ++ answer.errors) session
        refine ⟨answer.output ++ prompt ++ rest, ?_⟩
        rw [hrest]
        simp only [String.append_assoc]
      next => exact ⟨"", by simp⟩

/-- **A conversation streams line by line.** If all lines are texts, it ends well, whatever
their errors, and shows for each line in order what it prints and its value in the session
that the lines before it left. It ends at the first line that is no text, behind the answers
to those before. What it shows for whole lines does not depend on what comes behind them. -/
theorem converse_streams (input : List UInt8) :
    ∃ parts, Splits input parts ∧
      ((∀ part ∈ parts, (decode? part).isSome) → ∃ shown complaints last,
        Answers freshSession parts shown complaints last ∧
          converse input = ⟨0, shown ++ ">> " ++ "\n", complaints⟩) ∧
      (∀ before part after, parts = before ++ part :: after →
        (∀ earlier ∈ before, (decode? earlier).isSome) → decode? part = none →
        ∃ shown complaints last, Answers freshSession before shown complaints last ∧
          converse input = ⟨74, shown ++ ">> ",
            complaints ++ "stream did not contain valid UTF-8\n"⟩) ∧
      ((∀ byte ∈ input.getLast?, byte = 10) → (decode? input).isSome → ∀ more,
        ∃ shown rest, (converse input).output = shown ++ "\n" ∧
          (converse (input ++ more)).output = shown ++ rest) := by
  have hsplits := splits_lines input
  refine ⟨lines input, hsplits, ?_, ?_, ?_⟩
  · intro htexts
    obtain ⟨shown, complaints, session, last, hanswers, -, hrest⟩ :=
      converseFrom_append htexts drained_freshSession
    refine ⟨shown, complaints, last, hanswers, ?_⟩
    have hall := hrest "" "" []
    rw [List.append_nil] at hall
    rw [converse, hall]
    simp [converseFrom, line, prompt, String.append_assoc]
  · intro before part after hlines htexts hpart
    obtain ⟨shown, complaints, session, last, hanswers, -, hrest⟩ :=
      converseFrom_append htexts drained_freshSession
    refine ⟨shown, complaints, last, hanswers, ?_⟩
    have hturn : turn session part = .error .notUtf8 := by rw [turn, hpart]
    rw [converse, hlines, hrest, converseFrom, hturn]
    simp [unreadableCode, prompt, line, ReadProblem.message]
  · intro hends htext more
    obtain ⟨shown, complaints, session, last, -, -, hrest⟩ :=
      converseFrom_append (hsplits.decodes_iff.mp htext) drained_freshSession
    obtain ⟨rest, hprompts⟩ := converseFrom_prompts ("" ++ shown) ("" ++ complaints) session
      (lines more)
    refine ⟨shown ++ prompt, rest, ?_, ?_⟩
    · have hall := hrest "" "" []
      rw [List.append_nil] at hall
      rw [converse, hall]
      simp [converseFrom, line, String.append_assoc]
    · rw [converse, lines_append_of_getLast? hends, hrest, hprompts]
      simp

/-- A number on a line is answered before the conversation ends at a byte of no text. -/
theorem converse_streams_broken :
    (decode? [49, 10]).isSome ∧ decode? [255] = none ∧ ∃ shown complaints last,
      Answers freshSession [[49, 10]] shown complaints last ∧
        converse [49, 10, 255] =
          ⟨74, shown ++ ">> ", complaints ++ "stream did not contain valid UTF-8\n"⟩ := by
  have hnumber : (decode? [49, 10]).isSome := by decide
  have hbroken : decode? [255] = none := by decide
  refine ⟨hnumber, hbroken, ?_⟩
  obtain ⟨parts, hsplits, -, hbreaks, -⟩ := converse_streams [49, 10, 255]
  exact hbreaks [[49, 10]] [255] [] hsplits.eq_lines (by simpa using hnumber) hbroken

end Scriptlet.Shell
