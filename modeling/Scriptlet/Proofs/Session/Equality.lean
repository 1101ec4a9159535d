import Scriptlet.Proofs.Session.Identity

/-!
# The equalities of a session agree

Of the values that can be found in a session, those that are identical are alike, and those
that are alike have the same type and the same texts. A function is compared by its literal
and its scope only; but where there is one function for both, it has one list of parameters
and one body.
Main result: `Session.equalities_agree`.
-/

namespace Scriptlet

namespace Account

variable {account : Account} {known : List Value}

/-- Functions that are the same are equal with everything they hold. -/
theorem Told.eq_of_same (h : account.Told known) {f g : Closure} (hf : account.Fits (.function f))
    (hg : account.Fits (.function g)) (hsame : f.same g = true) : f = g :=
  Value.function.inj (h.makeOne_of_same hf hg hsame).eq

mutual

/-- Values that are alike have the same texts. -/
theorem Told.texts_eq (h : account.Told known) : ∀ {value other : Value},
    account.Fits value → account.Fits other → value.alike other = true →
      value.render = other.render ∧ value.outline = other.outline
  | .array _ elements, .array _ elements', hvalue, hother, halike => by
      rw [Value.alike] at halike
      obtain ⟨hrender, houtline⟩ := Told.texts_eq_all h (fun _ => hvalue.element)
        (fun _ => hother.element) halike
      simp only [Value.render, Value.outline, Value.renderEach_eq_map, Value.outlineEach_eq_map,
        hrender, houtline, and_self]
  | .function f, .function g, hvalue, hother, halike => by
      rw [Value.alike] at halike
      rw [h.eq_of_same hvalue hother halike]
      exact ⟨rfl, rfl⟩
  | .native f, .native g, _, _, halike => by
      simp only [Value.alike, beq_iff_eq] at halike
      simp only [Value.render, Value.outline, Native.render, Native.outline, halike, and_self]
  | .int _, other, _, _, halike | .text _, other, _, _, halike | .bool _, other, _, _, halike
  | .null, other, _, _, halike | .error _, other, _, _, halike => by
      cases other <;> simp_all [Value.alike]

theorem Told.texts_eq_all (h : account.Told known) : ∀ {values others : List Value},
    (∀ value ∈ values, account.Fits value) → (∀ value ∈ others, account.Fits value) →
      Value.allAlike values others = true →
        values.map Value.render = others.map Value.render ∧
          values.map Value.outline = others.map Value.outline
  | [], [], _, _, _ => ⟨rfl, rfl⟩
  | value :: values, other :: others, hvalues, hothers, halike => by
      obtain ⟨hvalue, hvalues⟩ := List.forall_mem_cons.mp hvalues
      obtain ⟨hother, hothers⟩ := List.forall_mem_cons.mp hothers
      obtain ⟨hfirst, hmore⟩ := Bool.and_eq_true_iff.mp halike
      obtain ⟨hrender, houtline⟩ := Told.texts_eq h hvalue hother hfirst
      obtain ⟨hrenders, houtlines⟩ := Told.texts_eq_all h hvalues hothers hmore
      simp only [List.map_cons, hrender, houtline, hrenders, houtlines, and_self]

end

end Account

namespace Session

/-- Equality by contents is an equivalence. A script may compare any two values: the one
comparison gives a truth value, the other its negation, and but for failures, which equal
nothing, the first is an equivalence too. The two equalities agree on all pairs that are not
two arrays or two failures. Of the values that can be found in a session that a host reaches,
arrays that are equal to a script are equal by contents, and values that are equal by contents
have the same type, the same rendering and the same outline. -/
theorem equalities_agree {natives : Natives} {session : Session} {known : List Value}
    (h : Hosted natives session known) :
    Equivalence (fun value other : Value => value.alike other = true) ∧
    (∀ left right, ∃ equal, BinaryOp.apply left .equal right = .ok (.bool equal) ∧
      BinaryOp.apply left .notEqual right = .ok (.bool !equal)) ∧
    (∀ value, value.kind ≠ .error → BinaryOp.apply value .equal value = .ok (.bool true)) ∧
    (∀ left right, BinaryOp.apply left .equal right = .ok (.bool true) →
      BinaryOp.apply right .equal left = .ok (.bool true)) ∧
    (∀ left middle right, BinaryOp.apply left .equal middle = .ok (.bool true) →
      BinaryOp.apply middle .equal right = .ok (.bool true) →
        BinaryOp.apply left .equal right = .ok (.bool true)) ∧
    (∀ left right, left.kind = .error ∨ right.kind = .error →
      BinaryOp.apply left .equal right = .ok (.bool false)) ∧
    (∀ left right, ¬(left.kind = .array ∧ right.kind = .array) →
      ¬(left.kind = .error ∧ right.kind = .error) →
        BinaryOp.apply left .equal right = .ok (.bool (left.alike right))) ∧
    (∃ account : Account, account.Hosted natives known ∧ account.session = session) ∧
    ∀ account : Account, account.Hosted natives known → account.session = session →
      ∀ left right, account.Holds known left → account.Holds known right →
        (left.kind = .array → right.kind = .array →
          BinaryOp.apply left .equal right = .ok (.bool true) → left.alike right = true) ∧
        (left.alike right = true →
          left.kind = right.kind ∧ left.render = right.render ∧ left.outline = right.outline) := by
  simp only [BinaryOp.apply_equal, BinaryOp.apply_notEqual, Except.ok.injEq, Value.bool.injEq]
  refine ⟨⟨Value.alike_refl, Value.alike_symm, Value.alike_trans⟩,
    fun left right => ⟨left.identical right, rfl, rfl⟩, fun value => Value.identical_self,
    fun left right => Value.identical_symm, fun left middle right => Value.identical_trans,
    fun left right => Value.identical_error, fun left right => Value.identical_eq_alike,
    Account.exists_hosted h, fun account haccount _ left right hleft hright => ?_⟩
  have htold := haccount.told
  have hleft := htold.holds hleft
  have hright := htold.holds hright
  refine ⟨fun harray harray' hidentical => ?_, fun halike => ?_⟩
  · cases left <;> cases harray
    cases right <;> cases harray'
    have hone := (htold.birth_iff hleft hright).mp (beq_iff_eq.mp hidentical)
    rw [hone.eq]
    exact Value.alike_refl _
  · exact ⟨Value.kind_eq_of_alike halike, htold.texts_eq hleft hright halike⟩

/-- Two arrays of the same function are alike and have one rendering, but a script can tell
them apart. -/
theorem equalities_agree_arrays :
    let text := "fn(x) \x7b x \x7d"
    let session := ((Session.start .standard false).run text).2
    ∃ f : Closure,
      let known := [.array 1 [.function f], .array 0 [.function f], .function f]
      let later := ((session.makeArray [.function f]).2.makeArray [.function f]).2
      Hosted .standard later known ∧
        BinaryOp.apply (.array 0 [.function f]) .equal (.array 1 [.function f]) =
          .ok (.bool false) ∧
        (Value.array 0 [.function f]).alike (.array 1 [.function f]) = true ∧
        (Value.array 0 [.function f]).render = (Value.array 1 [.function f]).render := by
  intro text session
  have hran : (ranTo? ((Session.start .standard false).run text).1).isSome = true := by
    decide +kernel
  obtain ⟨f, hf⟩ := Option.isSome_iff_exists.mp hran
  have hhosted : Hosted .standard session [.function f] := by
    have hrun : Hosted .standard session _ := .run text (.start false)
    rwa [eq_of_ranTo? hf] at hrun
  have helements (known : List Value) (hmem : .function f ∈ known) (session : Session) :
      ∀ element ∈ [Value.function f], Offers session known element :=
    fun element helement => List.mem_singleton.mp helement ▸ .known hmem
  have hfirst := hhosted.makeArray (helements _ (by simp) _)
  have hsecond := hfirst.makeArray (helements _ (by simp) _)
  have hbirths : session.births = 0 := by decide +kernel
  simp only [makeArray, hbirths] at hsecond
  obtain ⟨_, _, _, _, _, _, _, ⟨account, haccount, hsession⟩, haccounts⟩ :=
    equalities_agree hsecond
  have halike : (Value.array 0 [.function f]).alike (.array 1 [.function f]) = true :=
    Value.allAlike_refl _
  have htexts := haccounts account haccount hsession (.array 0 [.function f])
    (.array 1 [.function f]) (.offered (.known (by simp))) (.offered (.known (by simp)))
  refine ⟨f, ?_, rfl, halike, (htexts.2 halike).2.1⟩
  simpa only [makeArray, hbirths] using hsecond

end Session

end Scriptlet
