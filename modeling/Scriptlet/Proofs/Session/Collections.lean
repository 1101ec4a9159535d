import Scriptlet.Proofs.Session.Cutting
import Scriptlet.Proofs.Value.Equality

/-!
# Indexes and the native functions on arrays

The native functions on arrays and the index are five views of one list. What they make is a
new array each time, and nothing else about a session changes. So an array may be taken apart
with `first` and `rest` and put together again with `push`: the copy is alike and never
identical. Main result: `Session.array_laws`.
-/

namespace Scriptlet

/-- The session in which so many arrays more have been made. -/
def Session.aged (session : Session) (count : Nat) : Session :=
  { session with births := session.births + count }

namespace Session

variable (session : Session)

@[simp]
theorem births_aged (count : Nat) : (session.aged count).births = session.births + count :=
  rfl

@[simp]
theorem aged_zero : session.aged 0 = session :=
  rfl

@[simp]
theorem aged_aged (count more : Nat) :
    (session.aged count).aged more = session.aged (count + more) := by
  simp only [aged, Nat.add_assoc]

end Session

namespace Eval

/-- What is left of an array when its first element has been taken away so many times. -/
def restTimes : Nat → Value → Eval Value
  | 0, value => return value
  | count + 1, value => do
      let left ← Routine.rest.run [value]
      restTimes count left

/-- Moves so many elements, one after the other, from the front of one array to the end of
another one. -/
def rebuild : Nat → (built remainder : Value) → Eval Value
  | 0, built, _ => return built
  | count + 1, built, remainder => do
      let first ← Routine.first.run [remainder]
      let built ← Routine.push.run [built, first]
      let remainder ← Routine.rest.run [remainder]
      rebuild count built remainder

end Eval

namespace Routine

variable {birth : Nat} {elements : List Value} {session : Session}

theorem run_len : len.run [.array birth elements] session =
    .ok (.int (.ofNat elements.length)) session :=
  rfl

theorem run_first : first.run [.array birth elements] session =
    .ok (elements.head?.getD .null) session :=
  rfl

theorem run_last : last.run [.array birth elements] session =
    .ok (elements.getLast?.getD .null) session :=
  rfl

theorem run_rest_nil : rest.run [.array birth []] session = .ok .null session :=
  rfl

theorem run_rest_cons {value : Value} : rest.run [.array birth (value :: elements)] session =
    .ok (.array session.births elements) (session.aged 1) :=
  rfl

theorem run_push {value : Value} : push.run [.array birth elements, value] session =
    .ok (.array session.births (elements ++ [value])) (session.aged 1) :=
  rfl

/-- A body that does not print makes an array at most. -/
theorem run_aged {routine : Routine} (hroutine : routine ≠ .puts) (args : List Value)
    (session : Session) : ∃ count, Eval.last (routine.run args session) = session.aged count := by
  have hanswer : ∃ count, Eval.last (routine.answer args session) = session.aged count := by
    unfold answer
    split
    case h_6 | h_7 => exact ⟨1, rfl⟩
    case h_8 => exact absurd rfl hroutine
    all_goals exact ⟨0, rfl⟩
  unfold run
  cases routine.arity? with
  | none => exact hanswer
  | some want =>
      by_cases hwant : args.length = want
      · simpa only [hwant, if_true] using hanswer
      · simp only [hwant, if_false]
        exact ⟨0, rfl⟩

end Routine

namespace Value

variable {birth : Nat} {elements : List Value} {i : Integer}

/-- Positions count from zero. -/
theorem atIndex_inside {n : Nat} (h : n < elements.length) (hi : i.toInt = n) :
    (Value.array birth elements).atIndex (.int i) = .ok elements[n] := by
  have hnonneg : ¬i.toInt < 0 := by omega
  rw [atIndex, if_neg hnonneg, hi, Int.toNat_natCast, List.getElem?_eq_getElem h]
  rfl

/-- There is nothing before the first element and behind the last one. -/
theorem atIndex_outside (hi : ∀ n < elements.length, i.toInt ≠ n) :
    (Value.array birth elements).atIndex (.int i) = .ok .null := by
  by_cases hneg : i.toInt < 0
  · rw [atIndex, if_pos hneg]
  · have hout : elements.length ≤ i.toInt.toNat :=
      Nat.le_of_not_lt fun hlt => hi i.toInt.toNat hlt (by omega)
    rw [atIndex, if_neg hneg, List.getElem?_eq_none hout]
    rfl

end Value

namespace Eval

variable {elements : List Value} {count : Nat}

/-- Each round takes one element away and makes one array. -/
theorem restTimes_array (hcount : count ≤ elements.length) (birth : Nat) (session : Session) :
    ∃ made, restTimes count (.array birth elements) session =
      .ok (.array made (elements.drop count)) (session.aged count) := by
  induction count generalizing birth elements session with
  | zero => exact ⟨birth, rfl⟩
  | succ count ih =>
      cases elements with
      | nil => exact absurd hcount (Nat.not_succ_le_zero count)
      | cons element elements =>
          obtain ⟨made, hmade⟩ :=
            ih (Nat.le_of_succ_le_succ hcount) session.births (session.aged 1)
          refine ⟨made, (bind_of_ok Routine.run_rest_cons).trans ?_⟩
          rw [hmade, Session.aged_aged, Nat.add_comm, List.drop_succ_cons]

/-- The rounds may be counted from the other end. -/
theorem restTimes_succ (count : Nat) (value : Value) :
    restTimes (count + 1) value =
      (restTimes count value >>= fun left => Routine.rest.run [left]) := by
  induction count generalizing value with
  | zero => simp [restTimes]
  | succ count ih =>
      change (Routine.rest.run [value] >>= fun left => restTimes (count + 1) left) =
        ((Routine.rest.run [value] >>= fun left => restTimes count left) >>= _)
      simp only [ih, bind_assoc]

/-- Each round moves one element and makes two arrays, of which the last is the copy. -/
theorem rebuild_array (hcount : count ≤ elements.length) (made birth : Nat) (built : List Value)
    {session : Session} {bound : Nat} (hbound : bound ≤ session.births) :
    ∃ last, rebuild count (.array made built) (.array birth elements) session =
        .ok (.array last (built ++ elements.take count)) (session.aged (2 * count)) ∧
      (bound ≤ made ∨ 0 < count → bound ≤ last) := by
  induction count generalizing made birth built elements session with
  | zero =>
      refine ⟨made, ?_, fun h => h.resolve_right (Nat.lt_irrefl 0)⟩
      rw [List.take_zero, List.append_nil]
      rfl
  | succ count ih =>
      cases elements with
      | nil => exact absurd hcount (Nat.not_succ_le_zero count)
      | cons element elements =>
          have hlater : bound ≤ (session.aged 2).births :=
            Nat.le_trans hbound (Nat.le_add_right _ _)
          obtain ⟨last, hlast, hnew⟩ := ih (Nat.le_of_succ_le_succ hcount) session.births
            (session.aged 1).births (built ++ [element]) hlater
          refine ⟨last, ?_, fun _ => hnew (.inl hbound)⟩
          have hround :
              rebuild (count + 1) (.array made built) (.array birth (element :: elements)) session =
                rebuild count (.array session.births (built ++ [element]))
                  (.array (session.aged 1).births elements) (session.aged 2) :=
            (bind_of_ok Routine.run_first).trans ((bind_of_ok Routine.run_push).trans
              (bind_of_ok Routine.run_rest_cons))
          rw [hround, hlast, Session.aged_aged, Nat.mul_succ, Nat.add_comm, List.append_assoc,
            List.singleton_append, List.take_succ_cons]

end Eval

/-- How indexes and the native functions agree on an array. Every outcome is given with the
session that is left: there is nothing new in it but the numbers of the arrays made on the way,
and whatever is bound to a name stays as it is. -/
structure Session.ArrayLaws (session : Session) (birth : Nat) (elements : List Value) : Prop where
  index_inside : ∀ (i : Integer) (n : Nat) (h : n < elements.length), i.toInt = n →
    (Value.array birth elements).atIndex (.int i) = .ok elements[n]
  index_outside : ∀ i : Integer, (∀ n < elements.length, i.toInt ≠ n) →
    (Value.array birth elements).atIndex (.int i) = .ok .null
  /-- What is first when `n` elements have been taken away is the element at `n`. -/
  first_restTimes : ∀ (n : Nat) (h : n < elements.length),
    (do Routine.first.run [← Eval.restTimes n (.array birth elements)] : Eval Value) session =
      .ok elements[n] (session.aged n)
  restTimes_length : ∃ made, Eval.restTimes elements.length (.array birth elements) session =
    .ok (.array made []) (session.aged elements.length)
  restTimes_beyond : Eval.restTimes (elements.length + 1) (.array birth elements) session =
    .ok .null (session.aged elements.length)
  last_inside : ∀ (n : Nat) (h : n < elements.length), n + 1 = elements.length →
    Routine.last.run [.array birth elements] session = .ok elements[n] session
  last_empty : elements.length = 0 →
    Routine.last.run [.array birth elements] session = .ok .null session
  /-- An array with one element more, which is the last; before it are those there were. -/
  push : ∀ value, ∃ made longer,
    Routine.push.run [.array birth elements, value] session =
        .ok (.array made longer) (session.aged 1) ∧
      longer.length = elements.length + 1 ∧
      (∀ later, Routine.len.run [.array made longer] later =
        .ok (.int (.ofNat (elements.length + 1))) later) ∧
      (∀ i : Integer, i.toInt < elements.length →
        (Value.array made longer).atIndex (.int i) =
          (Value.array birth elements).atIndex (.int i)) ∧
      ∀ later, Routine.last.run [.array made longer] later = .ok value later
  /-- To take the first away and to add one at the end may be done in either order. -/
  rest_push : 0 < elements.length → ∀ value, ∃ one other,
    (do Routine.rest.run [← Routine.push.run [.array birth elements, value]] : Eval Value)
        session = .ok one (session.aged 2) ∧
      (do Routine.push.run [← Routine.rest.run [.array birth elements], value] : Eval Value)
        session = .ok other (session.aged 2) ∧
      one.alike other = true
  /-- What is put together again is alike, and a script sees that it is not the same. -/
  rebuild : ∀ empty, ∃ copy,
    Eval.rebuild elements.length (.array empty []) (.array birth elements) session =
        .ok copy (session.aged (2 * elements.length)) ∧
      copy.alike (.array birth elements) = true ∧
      (0 < elements.length →
        BinaryOp.apply copy .equal (.array birth elements) = .ok (.bool false))
  /-- Whatever they are given, the scopes stay as they are, and nothing is printed. -/
  unchanged : ∀ routine ∈ Natives.collections, ∀ args, ∃ count,
    Eval.last (routine.run args session) = session.aged count

/-- Indexes and the native functions on arrays agree, for every array that was made in the
session. -/
theorem Session.array_laws (session : Session) {birth : Nat} (elements : List Value)
    (hbirth : birth < session.births) : session.ArrayLaws birth elements where
  index_inside i n h hi := Value.atIndex_inside h hi
  index_outside i hi := Value.atIndex_outside hi
  first_restTimes n h := by
    obtain ⟨made, hrest⟩ := Eval.restTimes_array (Nat.le_of_lt h) birth session
    rw [Eval.bind_of_ok hrest, Routine.run_first, List.head?_drop, List.getElem?_eq_getElem h]
    rfl
  restTimes_length := by
    obtain ⟨made, hrest⟩ := Eval.restTimes_array (Nat.le_refl _) birth session
    exact ⟨made, by rw [hrest, List.drop_length]⟩
  restTimes_beyond := by
    obtain ⟨made, hrest⟩ := Eval.restTimes_array (Nat.le_refl _) birth session
    rw [Eval.restTimes_succ, Eval.bind_of_ok hrest, List.drop_length, Routine.run_rest_nil]
  last_inside n h hn := by
    rw [Routine.run_last, List.getLast?_eq_getElem?, ← hn, Nat.add_sub_cancel,
      List.getElem?_eq_getElem h]
    rfl
  last_empty h := by
    rw [List.eq_nil_of_length_eq_zero h]
    rfl
  push value := by
    refine ⟨session.births, elements ++ [value], Routine.run_push, by simp, fun later => ?_,
      fun i hi => ?_, fun later => ?_⟩
    · rw [Routine.run_len, List.length_append, List.length_singleton]
    · by_cases hinside : ∃ n < elements.length, i.toInt = n
      · obtain ⟨n, hn, hi⟩ := hinside
        have hlonger : n < (elements ++ [value]).length := by simp; omega
        rw [Value.atIndex_inside hn hi, Value.atIndex_inside hlonger hi,
          List.getElem_append_left hn]
      · have hneg : i.toInt < 0 := by
          refine Int.not_le.mp fun hnonneg => hinside ⟨i.toInt.toNat, ?_, ?_⟩ <;> omega
        rw [Value.atIndex_outside fun n _ => by omega, Value.atIndex_outside fun n _ => by omega]
    · rw [Routine.run_last, List.getLast?_append, List.getLast?_singleton]
      rfl
  rest_push h value := by
    cases elements with
    | nil => exact absurd h (Nat.lt_irrefl 0)
    | cons element elements =>
        refine ⟨_, _, (Eval.bind_of_ok Routine.run_push).trans Routine.run_rest_cons,
          (Eval.bind_of_ok Routine.run_rest_cons).trans Routine.run_push, ?_⟩
        exact Value.allAlike_refl (elements ++ [value])
  rebuild empty := by
    obtain ⟨made, hcopy, hnew⟩ :=
      Eval.rebuild_array (Nat.le_refl elements.length) empty birth [] (Nat.le_refl session.births)
    rw [List.take_length, List.nil_append] at hcopy
    refine ⟨_, hcopy, Value.allAlike_refl elements, fun hpos => ?_⟩
    have hne : made ≠ birth := Nat.ne_of_gt (Nat.lt_of_lt_of_le hbirth (hnew (.inr hpos)))
    simp [BinaryOp.apply, Value.identical, hne]
  unchanged routine hroutine args := by
    refine Routine.run_aged ?_ args session
    rintro rfl
    exact absurd hroutine (by decide)

/-- An array with null in it, and at its end. -/
theorem Session.array_laws_null :
    0 < ((Session.start .standard false).aged 1).births ∧
      ((Session.start .standard false).aged 1).ArrayLaws 0 [.null, .bool true, .null] :=
  ⟨Nat.one_pos, Session.array_laws _ _ Nat.one_pos⟩

end Scriptlet
