import Scriptlet.Proofs.Session.Bracketing
import Scriptlet.Proofs.Session.Dated
import Scriptlet.Proofs.Session.Driven
import Scriptlet.Proofs.Session.Renaming

/-!
# Functions have no hidden state

A call leaves the scopes there were as they were and only makes new scopes and arrays. To
call the same function with the same arguments once more is therefore to do the same with
other numbers for what is new, and nothing but identity depends on these.
-/

namespace Scriptlet

/-- All that the value refers to was made in the session. -/
structure Value.MadeIn (session : Session) (value : Value) : Prop where
  fits : value.FitsIn session.store.size
  dated : value.Dated session.births

theorem Value.MadeIn.mono {start session : Session} {value : Value} (h : value.MadeIn start)
    (hsize : start.store.size ≤ session.store.size) (hbirths : start.births ≤ session.births) :
    value.MadeIn session :=
  ⟨h.fits.mono hsize, h.dated.mono hbirths⟩

namespace Renaming

/-- The first so many numbers stay, and there is a gap before the others. -/
def spread (bound gap n : Nat) : Nat :=
  if n < bound then n else n + gap

theorem spread_of_lt {bound gap n : Nat} (h : n < bound) : spread bound gap n = n :=
  if_pos h

theorem spread_add (bound gap i : Nat) : spread bound gap (bound + i) = bound + gap + i := by
  unfold spread
  split <;> omega

theorem spread_injective (bound gap : Nat) : Function.Injective (spread bound gap) := by
  intro m n h
  unfold spread at h
  split at h <;> split at h <;> omega

/-- What there is in a session keeps its numbers, and what is made next gets the numbers
that come next in a later session. -/
def resumed (session later : Session) : Renaming where
  scope := spread session.store.size (later.store.size - session.store.size)
  birth := spread session.births (later.births - session.births)
  scope_injective := spread_injective _ _
  birth_injective := spread_injective _ _

variable {session later : Session}

theorem resumed_of_lt {id : ScopeId} (h : id < session.store.size) :
    (resumed session later).scope id = id :=
  spread_of_lt h

/-- A value made in the session is the same value later. -/
theorem value_rename_resumed {value : Value} (h : value.MadeIn session) :
    value.rename (resumed session later) = value := by
  obtain ⟨hfits, hdated⟩ := h
  induction hdated with
  | plain hplain => exact hplain.rename_eq _
  | error message => rw [Value.rename]
  | @array birth elements hbirth _ ih =>
      have helements : elements.map (Value.rename (resumed session later)) = elements :=
        (List.map_congr_left fun element helement =>
          ih element helement (hfits.element helement)).trans (List.map_id' _)
      have hsame : (resumed session later).birth birth = birth := spread_of_lt hbirth
      rw [Value.rename_array, helements, hsame]
  | function f => rw [Value.rename_function, Closure.rename, resumed_of_lt hfits.of_function]

/-- A scope of the session is the same scope later. -/
theorem scope_rename_resumed (hwell : session.WellFormed) (hdated : Law.dated.holds session)
    {id : ScopeId} {scope : Scope} (hid : session.store.scopes[id]? = some scope) :
    scope.rename (resumed session later) = scope := by
  have hlt : id < session.store.size := (Array.getElem?_eq_some_iff.mp hid).1
  have hparent : scope.parent.map (resumed session later).scope = scope.parent := by
    cases hparent : scope.parent with
    | none => rfl
    | some parent =>
        have holder := hwell.parent hid hparent
        rw [Option.map_some, resumed_of_lt (Nat.lt_trans holder hlt)]
  have hbindings : (scope.bindings.map fun binding =>
      (binding.1, binding.2.rename (resumed session later))) = scope.bindings := by
    refine (List.map_congr_left fun binding hbinding => ?_).trans (List.map_id' _)
    have hbinds : session.store.Binds binding.2 := ⟨id, scope, binding.1, hid, hbinding⟩
    rw [value_rename_resumed ⟨hwell.binds hbinds, hdated _ hbinds⟩]
  rw [Scope.rename, hparent, hbindings]

/-- A later session in which the scopes there were are as before. -/
theorem resumed_sends (hwell : session.WellFormed) (hdated : Law.dated.holds session)
    (hconfined : session.Confined (fun _ => False) later)
    (hbirths : session.births ≤ later.births) :
    (resumed session later).Sends session later where
  wellFormed := hwell
  size := hconfined.size
  nextScope i := by
    simp only [resumed, spread_add]
    rw [Nat.add_sub_cancel' hconfined.size]
  nextBirth i := by
    simp only [resumed, spread_add]
    rw [Nat.add_sub_cancel' hbirths]
  scope := by
    rw [hconfined.scope, resumed_of_lt hwell.scope]
  natives := hconfined.natives
  scopes id := by
    by_cases hid : id < session.store.size
    · rw [resumed_of_lt hid, hconfined.getElem?_eq hid]
      cases hscope : session.store.scopes[id]? with
      | none => rfl
      | some scope => rw [Option.map_some, scope_rename_resumed hwell hdated hscope]
    · obtain ⟨i, rfl⟩ := Nat.exists_eq_add_of_le (Nat.le_of_not_lt hid)
      have hnone : session.store.scopes[session.store.size + i]? = none :=
        Array.getElem?_eq_none (Nat.le_add_right _ i)
      have hnone' : later.store.scopes[later.store.size + i]? = none :=
        Array.getElem?_eq_none (Nat.le_add_right _ i)
      simp only [resumed, spread_add, Nat.add_sub_cancel' hconfined.size, hnone, hnone',
        Option.map_none]

end Renaming

/-- Outcomes that cannot be told apart from outside: the same fault, or values of one kind
that have the same texts. -/
inductive Eval.Alike :
    EStateM.Result Unwind Session Value → EStateM.Result Unwind Session Value → Prop where
  | ok {value value' : Value} {last last' : Session} (hkind : value'.kind = value.kind)
      (hrender : value'.render = value.render) (houtline : value'.outline = value.outline) :
      Alike (.ok value last) (.ok value' last')
  | fault (fault : Fault) {last last' : Session} :
      Alike (.error (.fault fault) last) (.error (.fault fault) last')

theorem Pairing.Outcome.alike {pairing : Pairing} (hpairing : pairing.Kept) {start : Session}
    {result result' : EStateM.Result Unwind Session Value}
    (h : pairing.Outcome pairing.fits start result result')
    (hresult : ∀ last value, result ≠ .error (.returned value) last) :
    Eval.Alike result result' := by
  cases h with
  | ok _ hvalue =>
      obtain ⟨hrender, houtline⟩ := hpairing.texts_eq hvalue
      exact .ok (hpairing.fits_matches hvalue).kind hrender houtline
  | fault fault => exact .fault fault
  | returned => exact absurd rfl (hresult _ _)

/-- The value of an evaluation that ends with one. -/
def Eval.value? {α : Type} : EStateM.Result Unwind Session α → Option α
  | .ok a _ => some a
  | .error _ _ => none

namespace Session

/-- The sessions that a host reaches from the start by running texts, by binding values in
the global scope and by calling values, with the values that came out. It uses values that
it has, and may also make arrays of them and collect what was printed. -/
inductive Hosted (natives : Natives) : Session → List Value → Prop where
  | start (recording : Bool) : Hosted natives (Session.start natives recording) []
  | run {session : Session} {known : List Value} (text : String)
      (h : Hosted natives session known) :
      Hosted natives (session.run text).2 ((session.run text).1.toOption.join.toList ++ known)
  | set {session : Session} {known : List Value} {value : Value} (name : String)
      (h : Hosted natives session known) (hvalue : Offers session known value) :
      Hosted natives (session.set name value) known
  | call {session : Session} {known : List Value} {callee : Value} {args : List Value}
      (h : Hosted natives session known) (hcallee : Offers session known callee)
      (hargs : ∀ arg ∈ args, Offers session known arg) :
      Hosted natives (Eval.last (session.call callee args))
        ((Eval.value? (session.call callee args)).toList ++ known)
  | makeArray {session : Session} {known elements : List Value}
      (h : Hosted natives session known)
      (helements : ∀ element ∈ elements, Offers session known element) :
      Hosted natives (session.makeArray elements).2 ((session.makeArray elements).1 :: known)
  | takeReport {session : Session} {known : List Value} (h : Hosted natives session known) :
      Hosted natives session.takeReport.2 known

/-- All values that the session binds or the host knows were made in the session. -/
structure Sound (session : Session) (known : List Value) : Prop where
  wellFormed : session.WellFormed
  dated : Law.dated.holds session
  known : ∀ value ∈ known, value.MadeIn session

variable {natives : Natives} {session later : Session} {known args : List Value} {callee : Value}

theorem Sound.offers (h : session.Sound known) {value : Value}
    (hvalue : Offers session known value) : value.MadeIn session := by
  induction hvalue with
  | plain hplain => exact ⟨.plain hplain, .plain hplain⟩
  | error message => exact ⟨.error message, .error message⟩
  | known hmem => exact h.known _ hmem
  | @bound id scope name value hid hmem =>
      have hbinds : session.store.Binds value := ⟨id, scope, name, hid, hmem⟩
      exact ⟨h.wellFormed.binds hbinds, h.dated value hbinds⟩
  | element _ hmem ih => exact ⟨ih.fits.element hmem, ih.dated.element hmem⟩

theorem Sound.of_eq (h : session.Sound known) (hstore : later.store = session.store)
    (hscope : later.scope = session.scope) (hbirths : session.births ≤ later.births) :
    later.Sound known where
  wellFormed := h.wellFormed.of_eq hstore hscope
  dated := by
    intro value hvalue
    rw [hstore] at hvalue
    exact (h.dated value hvalue).mono hbirths
  known value hvalue := (h.known value hvalue).mono (Nat.le_of_eq (by rw [hstore])) hbirths

/-- What comes out of a call was made in the session or in the call. -/
theorem Sound.call (h : session.Sound known) (hcallee : callee.MadeIn session)
    (hargs : ∀ arg ∈ args, arg.MadeIn session) :
    (Eval.last (session.call callee args)).Sound
      ((Eval.value? (session.call callee args)).toList ++ known) := by
  have hwell := h.wellFormed.call hcallee.fits fun arg harg => (hargs arg harg).fits
  have hdated := Law.dated_kept.call (Law.dated_keptBy _) h.dated hcallee.dated
    fun arg harg => (hargs arg harg).dated
  have hsize := (session.call_confined callee args).size
  generalize session.call callee args = result at hwell hdated hsize ⊢
  refine ⟨hwell.last.1.1, hdated.last.1, fun value hvalue => ?_⟩
  rcases List.mem_append.mp hvalue with hvalue | hvalue
  · cases result with
    | ok out last =>
        cases List.mem_singleton.mp hvalue
        exact ⟨hwell.2.2, hdated.2.2⟩
    | error unwind last => cases hvalue
  · exact (h.known value hvalue).mono hsize hdated.last.2

/-- What comes out of a program was made in the session or by the program. -/
theorem Sound.evaluate (h : session.Sound known) (program : Program Nat) :
    (session.evaluate program).2.Sound ((session.evaluate program).1.toList ++ known) := by
  obtain ⟨hwell, hfits⟩ := h.wellFormed.evaluate program
  obtain ⟨hdated, hbirths, hvalues⟩ := Law.dated_kept.evaluate (Law.dated_keptBy _)
    (fun _ message => .error message) program (fun _ _ => True.intro) h.dated
  have hsize := (session.evaluate_confined program).size
  refine ⟨hwell, hdated, fun value hvalue => ?_⟩
  rcases List.mem_append.mp hvalue with hvalue | hvalue
  · have hout := Option.mem_toList.mp hvalue
    exact ⟨hfits value hout, hvalues value hout⟩
  · exact (h.known value hvalue).mono hsize hbirths

/-- What a host does with values of a session keeps to the session. -/
theorem Hosted.sound (h : Hosted natives session known) : session.Sound known := by
  induction h with
  | start recording =>
      exact ⟨.start natives recording, fun value hvalue =>
        absurd hvalue (not_binds_start natives recording value), by simp⟩
  | @run session known text _ ih =>
      unfold Session.run
      dsimp only
      split
      · have hloaded : (session.load (Parsed.ofText text).program).2.Sound known :=
          ih.of_eq rfl rfl (Nat.le_refl _)
        exact hloaded.evaluate _
      · exact ih
  | @set session known value name _ hvalue ih =>
      have hmade := ih.offers hvalue
      have hdated : Law.dated.Outcome (fun _ _ => True) session (.ok () (session.set name value)) :=
        Law.dated_kept.set ih.dated True.intro hmade.dated
      refine ⟨ih.wellFormed.set name hmade.fits, hdated.1, fun other hother => ?_⟩
      exact (ih.known other hother).mono (Nat.le_of_eq (Store.size_set _ _ _ _).symm) hdated.2.1
  | call _ hcallee hargs ih =>
      exact ih.call (ih.offers hcallee) fun arg harg => ih.offers (hargs arg harg)
  | @makeArray session known elements _ helements ih =>
      have hmade := Law.dated_kept.makeArray ih.dated fun element helement =>
        (ih.offers (helements element helement)).dated
      have hlater : (session.makeArray elements).2.Sound known := ih.of_eq rfl rfl hmade.2.1
      have harray : (session.makeArray elements).1.MadeIn (session.makeArray elements).2 :=
        ⟨.array fun element helement => (ih.offers (helements element helement)).fits, hmade.2.2⟩
      exact ⟨hlater.wellFormed, hlater.dated, List.forall_mem_cons.mpr ⟨harray, hlater.known⟩⟩
  | takeReport _ ih => exact ih.of_eq rfl rfl (Nat.le_refl _)

/-- A call made once more does the same with other numbers for what is new. -/
theorem Sound.call_again (h : session.Sound known) (hcallee : callee.MadeIn session)
    (hargs : ∀ arg ∈ args, arg.MadeIn session) :
    let later := Eval.last (session.call callee args)
    let pairing := (Renaming.resumed session later).pairing session.output later.output
    pairing.Outcome pairing.fits session (session.call callee args) (later.call callee args) := by
  intro later pairing
  have hconfined : session.Confined (fun _ => False) later := session.call_confined callee args
  have hdated := Law.dated_kept.call (Law.dated_keptBy _) h.dated hcallee.dated
    fun arg harg => (hargs arg harg).dated
  have hsends := Renaming.resumed_sends h.wellFormed h.dated hconfined hdated.last.2
  have hfits {value : Value} (hvalue : value.MadeIn session) : pairing.fits session value value :=
    ⟨(Renaming.value_rename_resumed hvalue).symm, hvalue.fits⟩
  have hprints : Renaming.PrintsAlike session.output later.output session later :=
    ⟨"", String.append_empty.symm, String.append_empty.symm⟩
  exact (Renaming.pairing_kept _ _ _).call ⟨hsends, hprints⟩ hconfined.depth (hfits hcallee)
    (List.forall₂_same.mpr fun arg harg => hfits (hargs arg harg))

/-- In every session that a host reaches, to call a value with values as arguments a second
time is to see the same again: the same fault, or a value of the same kind with the same
texts, and the same is printed once more. -/
theorem call_repeats (h : Hosted natives session known) (hcallee : Offers session known callee)
    (hargs : ∀ arg ∈ args, Offers session known arg) :
    let first := session.call callee args
    let second := (Eval.last first).call callee args
    Eval.Alike first second ∧
      ∃ printed, (Eval.last first).output = session.output ++ printed ∧
        (Eval.last second).output = (Eval.last first).output ++ printed := by
  intro first second
  have hsound := h.sound
  have hagain := hsound.call_again (hsound.offers hcallee) fun arg harg =>
    hsound.offers (hargs arg harg)
  exact ⟨hagain.alike (Renaming.pairing_kept _ _ _) (session.call_ne_returned callee args),
    hagain.step.holds.2⟩

/-- A function that compares two arrays prints that they differ, in both calls. -/
theorem call_repeats_arrays :
    let text := "fn(x) \x7b puts([x] == [x]); [x] \x7d"
    let session := ((Session.start .standard false).run text).2
    ∃ f : Closure, Hosted .standard session [.function f] ∧
      let first := session.call (.function f) [.null]
      let second := (Eval.last first).call (.function f) [.null]
      Eval.Alike first second ∧ (Eval.last first).output = "false\n" ∧
        (Eval.last second).output = "false\nfalse\n" := by
  intro text session
  have hprints : (ranTo? ((Session.start .standard false).run text).1).map
      (fun f => (Eval.last (session.call (.function f) [.null])).output) = some "false\n" := by
    decide +kernel
  obtain ⟨f, hf, houtput⟩ := Option.map_eq_some_iff.mp hprints
  have hhosted : Hosted .standard session [.function f] := by
    have hrun : Hosted .standard session _ := .run text (.start false)
    rwa [eq_of_ranTo? hf] at hrun
  have hargs : ∀ arg ∈ [Value.null], Offers session [.function f] arg := by
    intro arg harg
    rw [List.mem_singleton.mp harg]
    exact .plain .null
  obtain ⟨halike, printed, hfirst, hsecond⟩ :=
    call_repeats hhosted (.known List.mem_cons_self) hargs
  have hempty : session.output = "" := by decide +kernel
  have hprinted : printed = "false\n" := by
    rw [← houtput, hfirst, hempty, String.empty_append]
  refine ⟨f, hhosted, halike, houtput, ?_⟩
  rw [hsecond, houtput, hprinted]
  rfl

end Session

end Scriptlet
