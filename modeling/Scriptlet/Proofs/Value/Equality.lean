import Scriptlet.Value.Operation

/-!
# What the two equalities look at

Values are alike when their contents are equal, and identical when they have the same
identity and are no failures. So the one equality is an equivalence on all values, and the
other on all but failures. Scripts compare by identity, whatever the values are.
-/

namespace Scriptlet

/-- What tells a function apart: its literal and its scope. -/
def Closure.identity (f : Closure) : Closure :=
  { f with params := [], body := [] }

theorem Closure.same_iff (f g : Closure) : f.same g = true ↔ f.identity = g.identity := by
  simp [Closure.same, Closure.identity]

/-- What tells a native function apart: its name. -/
def Native.identity (f : Native) : Native :=
  { f with routine := .puts }

theorem Native.name_eq_iff (f g : Native) : f.name = g.name ↔ f.identity = g.identity := by
  simp [Native.identity]

namespace Value

mutual

/-- What is compared by contents. Nothing tells equal arrays apart. -/
def contents : Value → Value
  | .array _ elements => .array 0 (contentsEach elements)
  | .function f => .function f.identity
  | .native f => .native f.identity
  | value => value

def contentsEach : List Value → List Value
  | [] => []
  | value :: values => contents value :: contentsEach values

end

mutual

/-- Values are alike if and only if their contents are equal. -/
theorem alike_iff : ∀ value other : Value,
    value.alike other = true ↔ value.contents = other.contents
  | .int _, other | .text _, other | .bool _, other | .null, other | .error _, other => by
      cases other <;> simp [alike, contents]
  | .array _ elements, other => by
      cases other <;> simp [alike, contents, allAlike_iff elements]
  | .function f, other => by
      cases other <;> simp [alike, contents, f.same_iff]
  | .native f, other => by
      cases other <;> simp [alike, contents, f.name_eq_iff]

theorem allAlike_iff : ∀ values others : List Value,
    allAlike values others = true ↔ contentsEach values = contentsEach others
  | [], others => by cases others <;> simp [allAlike, contentsEach]
  | value :: values, others => by
      cases others <;> simp [allAlike, contentsEach, alike_iff value, allAlike_iff values]

end

theorem alike_refl (value : Value) : value.alike value = true :=
  (alike_iff _ _).mpr rfl

theorem alike_symm {value other : Value} (h : value.alike other = true) :
    other.alike value = true :=
  (alike_iff _ _).mpr ((alike_iff _ _).mp h).symm

theorem alike_trans {value middle other : Value} (h : value.alike middle = true)
    (h' : middle.alike other = true) : value.alike other = true :=
  (alike_iff _ _).mpr (((alike_iff _ _).mp h).trans ((alike_iff _ _).mp h'))

theorem allAlike_refl (values : List Value) : allAlike values values = true :=
  (allAlike_iff _ _).mpr rfl

/-- What a script compares. Arrays have nothing but their number. -/
def identity : Value → Value
  | .array birth _ => .array birth []
  | .function f => .function f.identity
  | .native f => .native f.identity
  | value => value

/-- Values are identical if and only if they have the same identity and are no failures. -/
theorem identical_iff (value other : Value) :
    value.identical other = true ↔ value.kind ≠ .error ∧ value.identity = other.identity := by
  cases value <;> cases other <;>
    simp [identical, identity, kind, Closure.same_iff, Native.name_eq_iff]

theorem kind_identity (value : Value) : value.identity.kind = value.kind := by
  cases value <;> rfl

theorem identical_self {value : Value} (h : value.kind ≠ .error) :
    value.identical value = true :=
  (identical_iff _ _).mpr ⟨h, rfl⟩

theorem identical_symm {value other : Value} (h : value.identical other = true) :
    other.identical value = true := by
  obtain ⟨hkind, heq⟩ := (identical_iff _ _).mp h
  refine (identical_iff _ _).mpr ⟨?_, heq.symm⟩
  rwa [← kind_identity, ← heq, kind_identity]

theorem identical_trans {value middle other : Value} (h : value.identical middle = true)
    (h' : middle.identical other = true) : value.identical other = true := by
  obtain ⟨hkind, heq⟩ := (identical_iff _ _).mp h
  obtain ⟨_, heq'⟩ := (identical_iff _ _).mp h'
  exact (identical_iff _ _).mpr ⟨hkind, heq.trans heq'⟩

/-- A failure is identical to nothing. -/
theorem identical_error {value other : Value} (h : value.kind = .error ∨ other.kind = .error) :
    value.identical other = false := by
  refine Bool.eq_false_iff.mpr fun hidentical => ?_
  rcases h with h | h
  · exact ((identical_iff _ _).mp hidentical).1 h
  · exact ((identical_iff _ _).mp (identical_symm hidentical)).1 h

/-- But for arrays and failures the two equalities are one. -/
theorem identical_eq_alike {value other : Value}
    (harray : ¬(value.kind = .array ∧ other.kind = .array))
    (herror : ¬(value.kind = .error ∧ other.kind = .error)) :
    value.identical other = value.alike other := by
  cases value <;> cases other <;> simp_all [identical, alike, kind]

theorem kind_eq_of_alike {value other : Value} (h : value.alike other = true) :
    value.kind = other.kind := by
  cases value <;> cases other <;> simp_all [alike, kind]

end Value

namespace BinaryOp

/-- Scripts compare by identity. -/
theorem apply_equal (left right : Value) :
    BinaryOp.apply left .equal right = .ok (.bool (left.identical right)) := by
  cases left <;> cases right <;> rfl

theorem apply_notEqual (left right : Value) :
    BinaryOp.apply left .notEqual right = .ok (.bool !left.identical right) := by
  cases left <;> cases right <;> rfl

end BinaryOp

end Scriptlet
