import Scriptlet.Session.Evaluation

/-!
# Where values come from

Operators give values that hold no other; an index gives an element of its array. A
native body fails without having done anything, answers with a value that it was given
or that holds no other, makes one array of such values, or prints its arguments. It
opens no call and leaves the scopes alone.
-/

namespace Scriptlet

/-- A value that holds no other value and was made from nothing in the session. -/
inductive Value.IsPlain : Value → Prop where
  | int (n : Integer) : IsPlain (.int n)
  | text (s : String) : IsPlain (.text s)
  | bool (b : Bool) : IsPlain (.bool b)
  | null : IsPlain .null
  | native (f : Native) : IsPlain (.native f)

theorem Value.isPlain_ofLiteral (literal : Literal) : (Value.ofLiteral literal).IsPlain := by
  cases literal <;> constructor

theorem Integer.orFault_isPlain {fault : Fault} {n : Int} {value : Value}
    (h : Integer.orFault fault n = .ok value) : value.IsPlain := by
  unfold Integer.orFault at h
  split at h
  · cases h
    constructor
  · cases h

theorem UnaryOp.apply_isPlain {op : UnaryOp} {operand value : Value}
    (h : op.apply operand = .ok value) : value.IsPlain := by
  cases op with
  | not =>
      cases h
      constructor
  | negate =>
      cases operand <;> simp only [UnaryOp.apply, reduceCtorEq] at h
      exact Integer.orFault_isPlain h

theorem BinaryOp.applyInt_isPlain {m n : Integer} {op : BinaryOp} {value : Value}
    (h : BinaryOp.applyInt m op n = .ok value) : value.IsPlain := by
  cases op with
  | add | subtract | multiply => exact Integer.orFault_isPlain h
  | divide =>
      simp only [BinaryOp.applyInt] at h
      split at h
      · cases h
      · exact Integer.orFault_isPlain h
  | greater | less | notEqual | equal =>
      cases h
      constructor

theorem BinaryOp.applyText_isPlain {s t : String} {op : BinaryOp} {value : Value}
    (h : BinaryOp.applyText s op t = .ok value) : value.IsPlain := by
  cases op with
  | add | notEqual | equal =>
      cases h
      constructor
  | divide | multiply | subtract | greater | less => cases h

theorem BinaryOp.apply_isPlain {left right value : Value} {op : BinaryOp}
    (h : op.apply left right = .ok value) : value.IsPlain := by
  unfold BinaryOp.apply at h
  split at h
  · exact BinaryOp.applyInt_isPlain h
  · exact BinaryOp.applyText_isPlain h
  · split at h
    · cases h
      constructor
    · cases h
      constructor
    · cases h

/-- What an index gives is null or an element of the array. -/
theorem Value.atIndex_eq_ok {base position value : Value} (h : base.atIndex position = .ok value) :
    value = .null ∨ ∃ birth elements, base = .array birth elements ∧ value ∈ elements := by
  unfold Value.atIndex at h
  split at h
  · rename_i birth elements i
    split at h
    · cases h
      exact .inl rfl
    · cases h
      cases helement : elements[i.toInt.toNat]? with
      | none => exact .inl rfl
      | some element => exact .inr ⟨birth, elements, rfl, List.mem_of_getElem? helement⟩
  · cases h

/-- Nothing but arrays has an index, and that is an integer. -/
theorem Value.atIndex_eq_error {base position : Value}
    (h : ¬(base.kind = .array ∧ position.kind = .integer)) :
    base.atIndex position = .error (.unsupportedIndex base.kind position.kind) := by
  unfold Value.atIndex
  split
  · exact absurd ⟨rfl, rfl⟩ h
  · rfl

/-- The values at hand among arguments: the arguments and the elements of those that are
arrays. -/
def Value.OneOf (args : List Value) (value : Value) : Prop :=
  value ∈ args ∨ ∃ birth elements, .array birth elements ∈ args ∧ value ∈ elements

namespace Routine

/-- The outcomes of a native body called with `args`. -/
inductive Answers (args : List Value) (session : Session) :
    EStateM.Result Unwind Session Value → Prop where
  | wrongArity (got want : Nat) :
      Answers args session (.error (.fault (.wrongArity got want)) session)
  | unsupported (routine : Routine) (kind : Value.Kind) :
      Answers args session (.error (.fault (.unsupportedArgument routine kind)) session)
  | plain {value : Value} (h : value.IsPlain) : Answers args session (.ok value session)
  | given {value : Value} (h : value.OneOf args) : Answers args session (.ok value session)
  | made {elements : List Value} (h : ∀ element ∈ elements, element.OneOf args) :
      Answers args session (Eval.makeArray elements session)
  | printed :
      Answers args session (.ok .null
        (args.foldl (fun session arg => session.print (arg.render ++ "\n")) session))

variable {args : List Value} {session : Session}

/-- An element of an array at hand, or null where there is none. -/
theorem Answers.getD_null {birth : Nat} {elements : List Value} {value? : Option Value}
    (harray : .array birth elements ∈ args) (hvalue : ∀ value ∈ value?, value ∈ elements) :
    Answers args session (.ok (value?.getD .null) session) := by
  cases value? with
  | none => exact .plain .null
  | some value => exact .given (.inr ⟨birth, elements, harray, hvalue value rfl⟩)

theorem answer_answers (routine : Routine) (args : List Value) (session : Session) :
    Answers args session (routine.answer args session) := by
  unfold answer
  split
  · exact .plain (.int _)
  · exact .plain (.int _)
  · exact .getD_null List.mem_cons_self fun _ hvalue => List.mem_of_mem_head? hvalue
  · exact .getD_null List.mem_cons_self fun _ hvalue => List.mem_of_mem_getLast? hvalue
  · exact .plain .null
  · refine .made fun element helement => .inr ⟨_, _, List.mem_cons_self, ?_⟩
    exact List.mem_cons_of_mem _ helement
  · refine .made fun element helement => ?_
    rcases List.mem_append.mp helement with helement | helement
    · exact .inr ⟨_, _, List.mem_cons_self, helement⟩
    · exact .inl (List.mem_cons_of_mem _ helement)
  · exact .printed
  · exact .unsupported _ _
  · exact .plain .null

/-- Bodies that do not print work on arrays, and one of them on texts. -/
theorem answer_unsupported {routine : Routine} {arg : Value} (hroutine : routine ≠ .puts)
    (harray : arg.kind ≠ .array) (htext : ¬(arg.kind = .string ∧ routine = .len)) :
    routine.answer (arg :: args) = throw (.fault (.unsupportedArgument routine arg.kind)) := by
  unfold answer
  split <;> simp_all [Value.kind]

theorem run_answers (routine : Routine) (args : List Value) (session : Session) :
    Answers args session (routine.run args session) := by
  unfold run
  cases routine.arity? with
  | none => exact answer_answers routine args session
  | some want =>
      by_cases hwant : args.length = want
      · simp only [hwant, if_true]
        exact answer_answers routine args session
      · simp only [hwant, if_false]
        exact .wrongArity _ _

end Routine

end Scriptlet
