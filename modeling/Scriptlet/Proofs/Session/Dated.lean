import Scriptlet.Proofs.Session.WellFormed

/-!
# The arrays of a session

Arrays are numbered in order of their making, and a session counts how many it has made.
Every array in a value that a session binds was made in that session, so that a new array
is identical to none there is. Evaluation keeps that.
-/

namespace Scriptlet

namespace Value

/-- The arrays in a value are among the first `births`. -/
inductive Dated (births : Nat) : Value → Prop where
  | plain {value : Value} (h : value.IsPlain) : Dated births value
  | error (message : String) : Dated births (.error message)
  | array {birth : Nat} {elements : List Value} (hbirth : birth < births)
      (helements : ∀ value ∈ elements, Dated births value) : Dated births (.array birth elements)
  | function (f : Closure) : Dated births (.function f)

variable {births births' : Nat} {value : Value}

theorem Dated.mono (h : value.Dated births) (hbirths : births ≤ births') :
    value.Dated births' := by
  induction h with
  | plain h => exact .plain h
  | error message => exact .error message
  | array hbirth _ ih => exact .array (Nat.lt_of_lt_of_le hbirth hbirths) ih
  | function f => exact .function f

theorem Dated.element {birth : Nat} {elements : List Value}
    (h : Dated births (.array birth elements)) (hvalue : value ∈ elements) :
    value.Dated births := by
  cases h with
  | plain h => cases h
  | array _ helements => exact helements value hvalue

end Value

namespace Law

/-- All arrays at hand were made in the session. -/
def dated : Law where
  holds session := ∀ value, session.store.Binds value → value.Dated session.births
  moves start session := start.births ≤ session.births
  fits session value := value.Dated session.births
  binds _ := True

theorem dated_kept : dated.Kept where
  refl _ := Nat.le_refl _
  trans := Nat.le_trans
  fits_mono hmoves hvalue := hvalue.mono hmoves
  fits_plain := .plain
  fits_element harray := harray.element
  fits_function _ _ _ _ := .function _
  makeArray {session elements} hholds helements := by
    have hlater : session.births ≤ session.births + 1 := Nat.le_succ _
    refine ⟨fun value hvalue => (hholds value hvalue).mono hlater, hlater, ?_⟩
    refine .array (Nat.lt_succ_self _) fun element helement => ?_
    exact (helements element helement).mono hlater
  print _ hholds := ⟨hholds, Nat.le_refl _, True.intro⟩
  observe _ hholds := ⟨hholds, Nat.le_refl _, True.intro⟩
  found hholds hfound := hholds _ (Store.binds_of_searchWithin hfound)
  set hholds _ hvalue := by
    refine ⟨fun other hother => ?_, Nat.le_refl _, True.intro⟩
    rcases Store.Binds.of_set hother with rfl | hother
    · exact hvalue
    · exact hholds other hother

theorem dated_opens : dated.Opens dated where
  binds _ := True.intro
  opened hholds _ :=
    ⟨fun value hvalue => hholds value (Store.Binds.of_create hvalue), fun _ hvalue => hvalue⟩
  leave _ _ hlast hmoves := ⟨hlast, hmoves, fun _ hvalue => hvalue⟩

theorem dated_keptBy (levels : Nat) : dated.KeptBy (callWithin levels) :=
  keptBy_callWithin id (fun _ => dated_kept) (fun _ => dated_opens) () levels

end Law

end Scriptlet
