import Scriptlet.Proofs.Checked.Moments

/-!
# Calls one after another

A reader can be asked again and again for an item or for an expression, also behind an
error. Each time it does what a new reader of the tokens to come would do, and takes at
least one of them; so does the reading of a whole program from there. Nothing is left of
the calls before but the tokens to come: the counter of levels is back at zero, and at
every moment of every call it was right.
-/

namespace Scriptlet

open Checked (attempt ending outcome)

/-- What a reader can be asked for. -/
inductive Request where
  | item
  | expr (floor : Precedence)

/-- What a reader gives for a request. -/
inductive Phrase where
  | item (item : Item Unit)
  | expr (e : Expr Unit)

namespace Request

def parser : Request → Parser Phrase
  | .item => return .item (← Item.parser)
  | .expr floor => return .expr (← Expr.parser floor)

/-- The same by a reader with a record. -/
def recorded : Request → Recorded Phrase
  | .item => return .item (← Recorded.item)
  | .expr floor => return .expr (← Recorded.expr floor)

/-- What comes of requests one after another, when each is made to a new parser of the
tokens that the one before has left; and the tokens that are left at the end. -/
def afresh : List Request → List Token → List (Except ParseError Phrase) × List Token
  | [], tokens => ([], tokens)
  | request :: requests, tokens =>
      let result := request.parser tokens
      let (answers, rest) := afresh requests (Parser.left result)
      (ending result :: answers, rest)

end Request

namespace Recorder

/-- Makes requests to one reader, one after another, and gives what comes of each. -/
def calls : List Request → Checked Empty Recorder (List (Except ParseError Phrase))
  | [] => return []
  | request :: requests => do
      let answer ← attempt (request.recorded [])
      return answer :: (← calls requests)

/-- Reads the items to come, in fewer rounds than given. -/
def programWithin : Nat → Parsed → Checked Empty Recorder Parsed :=
  Checked.itemsWithin (fun recorder => recorder.tokens)
    (fun recorder => recorder.become [] recorder.depth (skipItem recorder.tokens))
    (Recorded.item [])

/-- Reads a whole program. -/
def program : Checked Empty Recorder Parsed := do
  programWithin ((← get).tokens.length + 1) ⟨[], []⟩

/-- What a caller sees of a run: how it ends, and the reader that it leaves. -/
def seen {ε α : Type} (result : EStateM.Result ε Recorder α) : Except ε α × Checked.Reader :=
  (ending result, (Checked.left result).toReader)

end Recorder

namespace Recorded

variable {α : Type} {p : Recorded α} {q : Parser α}

/-- An attempt from outside of all parts ends as the parser does, with the counter at zero. -/
theorem Follows.attempt (h : Follows [] p q) {recorder : Recorder} (hsound : Sound [] recorder) :
    ∃ next, Sound [] next ∧ next.tokens = Parser.left (q recorder.tokens) ∧
      (attempt (p []) : Checked Empty Recorder (Except ParseError α)) recorder =
        .ok (ending (q recorder.tokens)) next := by
  obtain ⟨next, hnext, htokens, hrun⟩ := h recorder hsound
  exact ⟨next, hnext, htokens, Checked.attempt_of_eq hrun⟩

/-- With no level open the readers of the parts do what the parsers do. -/
theorem parts_follow :
    Parts.Related (Follows []) (parts (maxNesting + 1)) (Nested.within maxNesting) :=
  Follows.within (Nat.zero_add maxNesting)

theorem item_follows : Follows [] item Item.parser := by
  have hitem := Grammar.item_related (Follows.steps (Nat.zero_le _)) parts_follow
  exact hitem

end Recorded

/-- Reading an expression takes at least one token, whether it succeeds or fails. -/
theorem Expr.parser_left (floor : Precedence) (token : Token) (behind : List Token) :
    Parser.left (Expr.parser floor (token :: behind)) <:+ behind :=
  have hinner := (Nested.within_reading (maxNesting - 1)).suffix behind.length
  (Grammar.expr_rest_agree hinner floor token behind (Nat.le_refl _)).2

namespace Request

open Recorded (Follows Sound)

theorem recorded_follows (request : Request) : Follows [] request.recorded request.parser := by
  cases request with
  | item => exact Recorded.item_follows.bind fun _ => .pure _
  | expr floor => exact (Recorded.parts_follow.expr floor).bind fun _ => .pure _

/-- A request takes at least one token, whether something is read or not. -/
theorem parser_left (request : Request) (token : Token) (behind : List Token) :
    Parser.left (request.parser (token :: behind)) <:+ behind := by
  cases request with
  | item =>
      exact Parser.left_bind_suffix (Item.parser_left token behind) fun _ count =>
        (Parser.AgreeUpTo.congruence count).pure _
  | expr floor =>
      exact Parser.left_bind_suffix (Expr.parser_left floor token behind) fun _ count =>
        (Parser.AgreeUpTo.congruence count).pure _

theorem parser_suffix (request : Request) (tokens : List Token) :
    Parser.left (request.parser tokens) <:+ tokens := by
  cases tokens with
  | nil => cases request <;> exact List.suffix_rfl
  | cons token behind => exact (request.parser_left token behind).trans (List.suffix_cons _ _)

/-- What requests leave is a tail of the tokens. -/
theorem afresh_suffix (requests : List Request) (tokens : List Token) :
    (afresh requests tokens).2 <:+ tokens := by
  induction requests generalizing tokens with
  | nil => exact List.suffix_rfl
  | cons request requests ih => exact (ih _).trans (request.parser_suffix tokens)

end Request

namespace Recorder

open Recorded (Sound)

variable {recorder : Recorder}

/-- Whatever a reader has been through, requests to it come to what they come to when each
is made to a new parser. -/
theorem calls_eq_afresh (h : Sound [] recorder) (requests : List Request) :
    ∃ next, Sound [] next ∧ next.tokens = (Request.afresh requests recorder.tokens).2 ∧
      calls requests recorder = .ok (Request.afresh requests recorder.tokens).1 next := by
  induction requests generalizing recorder with
  | nil => exact ⟨recorder, h, rfl, rfl⟩
  | cons request requests ih =>
      obtain ⟨next, hnext, htokens, hanswer⟩ := request.recorded_follows.attempt h
      obtain ⟨last, hlast, hleft, hcalls⟩ := ih hnext
      rw [htokens] at hleft hcalls
      refine ⟨last, hlast, hleft, ?_⟩
      rw [calls, Checked.bind_of_ok hanswer, Checked.bind_of_ok hcalls]
      rfl

/-- Between the items a reader is outside of all parts. -/
theorem program_readsItems :
    Checked.ReadsItems (fun recorder => recorder.tokens)
      (fun recorder => recorder.become [] recorder.depth (skipItem recorder.tokens))
      (Recorded.item []) (Sound []) (fun _ => True) .endless where
  read {state item rest} hsound hparse := by
    obtain ⟨next, hnext, htokens, hrun⟩ := Recorded.item_follows state hsound
    rw [hparse] at htokens hrun
    exact ⟨next, hnext, htokens, hrun⟩
  raised {state error rest} hsound hparse _ := by
    obtain ⟨next, hnext, htokens, hrun⟩ := Recorded.item_follows state hsound
    rw [hparse] at htokens hrun
    exact ⟨next, hnext, htokens, hrun⟩
  met _ _ hnot := absurd True.intro hnot
  skipped hsound := by
    rw [hsound.depth_eq]
    exact ⟨hsound.become [] (Nat.zero_le _) _, rfl⟩

/-- Whatever a reader has been through, it reads the program that the tokens to come are. -/
theorem program_eq_ofTokens (h : Sound [] recorder) :
    ∃ last, Sound [] last ∧ last.tokens = [] ∧
      program recorder = .ok (Parsed.ofTokens recorder.tokens) last := by
  have hprogram := program_readsItems.itemsWithin_of_reads
    (Parsed.reads_ofTokens recorder.tokens) h rfl (fun _ _ => True.intro) (Nat.lt_succ_self _)
  obtain ⟨_, hprogram⟩ | ⟨⟨_, _, hnot⟩, _⟩ := hprogram
  · exact hprogram
  · exact absurd True.intro hnot

theorem seen_calls (h : Sound [] recorder) (requests : List Request) :
    seen (calls requests recorder) =
      (.ok (Request.afresh requests recorder.tokens).1,
        ⟨(Request.afresh requests recorder.tokens).2, 0⟩) := by
  obtain ⟨next, hnext, htokens, hcalls⟩ := calls_eq_afresh h requests
  rw [hcalls, ← htokens, ← hnext.toReader_eq]
  rfl

theorem seen_program (h : Sound [] recorder) :
    seen (program recorder) = (.ok (Parsed.ofTokens recorder.tokens), ⟨[], 0⟩) := by
  obtain ⟨last, hlast, htokens, hprogram⟩ := program_eq_ofTokens h
  rw [hprogram, ← htokens, ← hlast.toReader_eq]
  rfl

/-- **A reader is the tokens to come.** Whatever it was asked for, whether that could be read
or not, each request comes to what it comes to with a new parser of the tokens that the one
before has left. The counter is at zero then, and the tokens to come are a tail of those at
the start, from which the next request takes at least one if there is any. So further
requests, and the reading of a program, come to what they come to with a new reader of these
tokens. The record is up to date, and at every moment of it the counter is the number of
parts that are being read, and not above the limit. -/
theorem reader_is_its_tokens (tokens : List Token) (requests : List Request) :
    ∃ reader, calls requests (.new tokens) = .ok (Request.afresh requests tokens).1 reader ∧
      reader.tokens = (Request.afresh requests tokens).2 ∧
      reader.depth = 0 ∧ reader.tokens <:+ tokens ∧
      (∀ token behind, reader.tokens = token :: behind → ∀ request,
        (Checked.left (calls [request] reader)).tokens <:+ behind) ∧
      (∀ more, seen (calls more reader) = seen (calls more (.new reader.tokens))) ∧
      seen (program reader) = seen (program (.new reader.tokens)) ∧
      ending (program reader) = .ok (Parsed.ofTokens reader.tokens) ∧
      reader.moments.head? = some ⟨[], reader.toReader⟩ ∧
      ∀ moment ∈ reader.moments ++ (Checked.left (program reader)).moments,
        moment.reader.depth = moment.parts.length ∧ moment.reader.depth ≤ 1024 := by
  obtain ⟨reader, hreader, htokens, hcalls⟩ := calls_eq_afresh (.new tokens) requests
  obtain ⟨last, hlast, -, hprogram⟩ := program_eq_ofTokens hreader
  have hnew := Sound.new reader.tokens
  refine ⟨reader, hcalls, htokens, hreader.depth_eq, ?_, fun token behind hbehind request => ?_,
    fun more => ?_, ?_, ?_, hreader.latest, fun moment hmoment => ?_⟩
  · rw [htokens]
    exact Request.afresh_suffix requests tokens
  · have hseen := congrArg (fun answer => answer.2.tokens) (seen_calls hreader [request])
    rw [hbehind] at hseen
    exact hseen ▸ request.parser_left token behind
  · rw [seen_calls hreader, seen_calls hnew]
    rfl
  · rw [seen_program hreader, seen_program hnew]
    rfl
  · rw [hprogram]
    rfl
  · rw [hprogram] at hmoment
    have hcounted : moment.Counted := by
      rcases List.mem_append.mp hmoment with hbefore | hduring
      · exact hreader.moments moment hbefore
      · exact hlast.moments moment hduring
    exact ⟨hcounted.depth_eq, hcounted.depth_le⟩

/-- Behind an error two levels deep and another one where an item should begin, a reader is
as a new one. -/
theorem reader_is_its_tokens_behind_errors :
    let semicolon : Token := ⟨.semicolon, 0, ";"⟩
    let name : Token := ⟨.ident, 0, "x"⟩
    ∃ reader, calls [.expr .lowest, .item] (.new (Token.ofText "(1; x")) =
        .ok [.error ⟨.missing .closeParen, [semicolon, name]⟩,
          .error ⟨.noExpression, [semicolon, name]⟩] reader ∧
      reader.tokens = [name] ∧ reader.depth = 0 ∧
      (∃ moment ∈ reader.moments, moment.reader.depth = 2) ∧
      (Checked.left (calls [.item] reader)).tokens <:+ [] ∧
      ending (program reader) = .ok ⟨[.expr (.var "x")], []⟩ := by
  obtain ⟨reader, hcalls, htokens, hdepth, -, hnext, -, -, hprogram, -⟩ :=
    reader_is_its_tokens (Token.ofText "(1; x") [.expr .lowest, .item]
  have hname : reader.tokens = [⟨.ident, 0, "x"⟩] := htokens
  refine ⟨reader, hcalls, hname, hdepth, ?_, hnext _ _ hname .item, ?_⟩
  · have hreader : Checked.left (calls [.expr .lowest, .item] (.new (Token.ofText "(1; x"))) =
        reader := by
      rw [hcalls]
      rfl
    rw [← hreader]
    decide +kernel
  · rw [hprogram, hname]
    rfl

end Recorder

end Scriptlet
