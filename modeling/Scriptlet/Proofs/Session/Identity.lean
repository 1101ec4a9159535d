import Scriptlet.Proofs.Session.Tracing
import Scriptlet.Proofs.Value.Equality

/-!
# Identity means one creation

In every account of what a host does, no node has been evaluated twice in one scope. Two
functions at hand are equal if and only if one and the same evaluation of a function literal
made them, and two arrays if and only if one and the same making did.
Main result: `Session.identity_is_one_creation`.
-/

namespace Scriptlet

theorem map_sourceNodes (sources : List (Program Nat)) :
    (sourceNodes sources).map Prod.snd = (sourceParts sources).map Prod.snd := by
  induction sources using List.reverseRecOn with
  | nil => rfl
  | append_singleton sources program ih =>
      rw [sourceNodes_append, Session.sourceParts_append, List.map_append, List.map_append, ih,
        Item.map_nodesAll program _ 0]

/-- Literals with numbers of their own have nodes of their own. -/
theorem nodup_sourceNodes {sources : List (Program Nat)}
    (h : (literalMarks (sourceParts sources)).Nodup) :
    ((sourceNodes sources).filterMap fun site => site.2.mark?).Nodup := by
  have hparts : (literalMarks (sourceParts sources)) =
      ((sourceParts sources).map Prod.snd).filterMap Expr.mark? := by
    rw [List.filterMap_map]
    rfl
  rw [hparts, ← map_sourceNodes, List.filterMap_map] at h
  exact h

namespace Happening

/-- One happening makes one value. -/
theorem Makes.unique {happening : Happening} {value other : Value} (h : happening.Makes value)
    (h' : happening.Makes other) : value = other := by
  cases h <;> cases h' <;> rfl

/-- One and the same happening makes both values. -/
def MakeOne (history : List Happening) (value other : Value) : Prop :=
  ∃ (i : Nat) (happening : Happening),
    history[i]? = some happening ∧ happening.Makes value ∧ happening.Makes other

theorem MakeOne.eq {history : List Happening} {value other : Value}
    (h : MakeOne history value other) : value = other :=
  let ⟨_, _, _, hvalue, hother⟩ := h
  hvalue.unique hother

end Happening

open Happening

namespace Account

variable {sites more : List (Node × Expr Nat)} {account : Account} {i j : Nat}
variable {happening other : Happening}

theorem Traces.mono (h : account.Traces sites) (hmore : sites ⊆ more) : account.Traces more :=
  { h with sites := fun happening hmem site hsite => hmore (h.sites happening hmem site hsite) }

/-- A function literal is evaluated once in a scope. -/
theorem Traces.index_eq_of_same (h : account.Traces sites)
    (hnodup : (sites.filterMap fun site => site.2.mark?).Nodup) {f g : Closure}
    (hi : account.history[i]? = some happening) (hj : account.history[j]? = some other)
    (hmakes : happening.Makes (.function f)) (hmakes' : other.Makes (.function g))
    (hsame : f.same g = true) : i = j := by
  cases hmakes
  cases hmakes'
  simp only [Closure.same, Bool.and_eq_true, beq_iff_eq] at hsame
  obtain ⟨rfl, rfl⟩ := hsame
  have hsite := h.sites _ (List.mem_of_getElem? hi) _ rfl
  have hsite' := h.sites _ (List.mem_of_getElem? hj) _ rfl
  cases eq_of_key_eq hnodup hsite hsite' rfl rfl
  exact index_eq_of_key_eq h.visits hi hj rfl rfl

/-- An array is made once. -/
theorem Traces.index_eq_of_birth (h : account.Traces sites) {birth : Nat}
    {elements elements' : List Value} (hi : account.history[i]? = some happening)
    (hj : account.history[j]? = some other) (hmakes : happening.Makes (.array birth elements))
    (hmakes' : other.Makes (.array birth elements')) : i = j := by
  have hapart := List.pairwise_iff_getElem.mp h.apart
  obtain ⟨hlt, rfl⟩ := List.getElem?_eq_some_iff.mp hi
  obtain ⟨hlt', rfl⟩ := List.getElem?_eq_some_iff.mp hj
  rcases Nat.lt_trichotomy i j with hij | hij | hij
  · exact absurd hmakes' (hapart i j hlt hlt' hij birth elements elements' hmakes)
  · exact hij
  · exact absurd hmakes (hapart j i hlt' hlt hij birth elements' elements hmakes')

/-- A stage that has been visited was visited at a site. -/
theorem Traces.site_of_visit (h : account.Traces sites) {visit : Visit}
    (hvisit : visit ∈ account.visits) : ∃ e, (visit.node, e) ∈ sites := by
  obtain ⟨happening, hmem, hvisit⟩ := List.mem_filterMap.mp hvisit
  cases happening with
  | begins scope node e | yields scope node e value =>
      cases hvisit
      exact ⟨e, h.sites _ hmem _ rfl⟩
  | applies | offers => cases hvisit

/-- The values that can be found while a host is at work: those that it has, those that any
evaluation came to, and the elements of these. -/
inductive Holds (account : Account) (known : List Value) : Value → Prop where
  | offered {value : Value} (h : Session.Offers account.session known value) :
      Holds account known value
  | yielded {scope : ScopeId} {node : Node} {e : Expr Nat} {value : Value}
      (hmem : .yields scope node e value ∈ account.history) : Holds account known value
  | element {birth : Nat} {elements : List Value} {value : Value}
      (h : Holds account known (.array birth elements)) (hmem : value ∈ elements) :
      Holds account known value

/-- What accounts of hosts keep: origins, the numbers of literals, and that the host has
nothing that was not made. -/
structure Told (account : Account) (known : List Value) : Prop where
  traces : account.Traces (sourceNodes account.sources)
  numbered : Numbered 0 account.session.literals (literalMarks (sourceParts account.sources))
  known : ∀ value ∈ known, account.Fits value

variable {natives : Natives} {known : List Value}

theorem Told.offers (h : account.Told known) {value : Value}
    (hvalue : Session.Offers account.session known value) : account.Fits value := by
  induction hvalue with
  | plain hplain => exact .plain hplain
  | error message => exact .error message
  | known hmem => exact h.known _ hmem
  | bound hid hmem => exact h.traces.bound ⟨_, _, _, hid, hmem⟩
  | element _ hmem ih => exact ih.element hmem

theorem Told.holds (h : account.Told known) {value : Value} (hvalue : account.Holds known value) :
    account.Fits value := by
  induction hvalue with
  | offered hvalue => exact h.offers hvalue
  | yielded hmem => exact h.traces.yielded hmem
  | element _ hmem ih => exact ih.element hmem

theorem Told.nodup (h : account.Told known) :
    ((sourceNodes account.sources).filterMap fun site => site.2.mark?).Nodup := by
  refine nodup_sourceNodes ?_
  rw [h.numbered.eq]
  exact List.nodup_range'

theorem Told.start (natives : Natives) (recording : Bool) :
    (Account.start natives recording).Told [] where
  traces := {
    scope := Nat.zero_lt_one
    visits := List.nodup_nil
    visited := nofun
    sites := nofun
    begun := nofun
    apart := .nil
    births := nofun
    yielded := nofun
    bound := fun hvalue => absurd hvalue (Session.not_binds_start natives recording _) }
  numbered := .nil 0
  known := nofun

/-- A program that is run next is free. -/
theorem Told.free (h : account.Told known) :
    account.Free (Node.Under ⟨.program account.sources.length, []⟩) := by
  intro visit hvisit _ hunder
  obtain ⟨e, hsite⟩ := h.traces.site_of_visit hvisit
  have hbefore := (sited_sourceNodes account.sources).root _ hsite
  rw [hunder.1] at hbefore
  exact Nat.lt_irrefl _ hbefore

/-- What comes later keeps the sources, and numbers no literals. -/
theorem Told.advance {later : Account} {region : Node → Prop} (h : account.Told known)
    (hlater : later.Traces (sourceNodes account.sources)) (hgrows : Grows region account later)
    (hliterals : later.session.literals = account.session.literals) {more : List Value}
    (hmore : ∀ value ∈ more, later.Fits value) : later.Told (more ++ known) where
  traces := by
    rw [hgrows.sources]
    exact hlater
  numbered := by
    rw [hgrows.sources, hliterals]
    exact h.numbered
  known := List.forall_mem_append.mpr
    ⟨hmore, fun value hvalue => (h.known value hvalue).mono hgrows.history⟩

theorem Told.evaluate (h : account.Told known) {root : Root} {program : Program Nat}
    (hnodes : Item.nodesAll ⟨root, []⟩ program ⊆ sourceNodes account.sources)
    (hfree : account.Free (Node.Under ⟨root, []⟩)) :
    (account.evaluate root program).2.Told ((account.evaluate root program).1.toList ++ known) := by
  have hrun := Item.accountAll_traces
    (callWithin_traces (sited_sourceNodes _) (maxCalls - account.session.depth)) program _ none
    hnodes h.traces hfree (by simp)
  have hliterals : (account.evaluate root program).2.session.literals =
      account.session.literals := by
    have hsession := congrArg Prod.snd (evaluate_session account root program)
    exact (congrArg Session.literals hsession).trans (account.session.evaluate_literals program)
  unfold Account.evaluate Account.callRule at hliterals ⊢
  generalize Item.accountAll (callWithin (maxCalls - account.session.depth)) ⟨root, []⟩ none
    program account = result at hrun hliterals ⊢
  cases result with
  | ok last later =>
      refine h.advance hrun.1 hrun.2.1 hliterals fun value hvalue => ?_
      exact hrun.2.2 value (Option.mem_toList.mp hvalue)
  | error unwind later =>
      obtain ⟨hlater, hgrows, hreturned⟩ := hrun
      cases unwind with
      | returned value =>
          refine h.advance hlater hgrows hliterals fun other hother => ?_
          cases List.mem_singleton.mp hother
          exact hreturned value rfl
      | fault fault =>
          refine h.advance hlater hgrows hliterals fun other hother => ?_
          cases List.mem_singleton.mp hother
          exact .error _

theorem Told.load (h : account.Told known) (program : Program Unit) :
    (account.load program).2.Told known where
  traces := by
    have hsources := sourceNodes_append account.sources (account.session.load program).1
    have hmore : sourceNodes account.sources ⊆ sourceNodes (account.load program).2.sources := by
      rw [Account.load, hsources]
      exact List.subset_append_left _ _
    have hsession : Session.Binding [] account.session (account.session.load program).2 :=
      .of_store_eq rfl rfl rfl
    exact { (h.traces.mono hmore).binding hsession (by simp) with }
  numbered := by
    rw [Account.load, Session.sourceParts_append, literalMarks_append]
    exact h.numbered.append (Item.numbered_numberEach program account.session.literals 0)
  known := h.known

theorem Told.run (h : account.Told known) (text : String) :
    (account.run text).2.Told ((account.run text).1.toOption.join.toList ++ known) := by
  unfold Account.run
  dsimp only
  split
  · refine (h.load _).evaluate ?_ h.free
    have hsources := sourceNodes_append account.sources
      (account.load (Parsed.ofText text).program).1
    exact fun site hsite => hsources ▸ List.mem_append_right _ hsite
  · exact h

theorem Told.call (h : account.Told known) {callee : Value} {args : List Value}
    (hcallee : account.Fits callee) (hargs : ∀ arg ∈ args, account.Fits arg) :
    (last (account.call callee args)).Told
      ((Eval.value? (forget (account.call callee args))).toList ++ known) := by
  have hcall : Outcome (sourceNodes account.sources) (fun _ => False) Fits account
      (account.call callee args) := by
    cases callee with
    | function f =>
        have htraced := callWithin_traces (sited_sourceNodes account.sources)
          (maxCalls - account.session.depth)
        exact htraced account f args h.traces hcallee hargs
    | native f => exact .apply h.traces f.routine hargs
    | int | text | bool | null | array | error => exact .fault h.traces _
  have hliterals : (last (account.call callee args)).session.literals =
      account.session.literals := by
    rw [last_session, forget_call]
    exact account.session.call_literals callee args
  generalize account.call callee args = result at hcall hliterals ⊢
  refine h.advance hcall.last.1 hcall.last.2 hliterals fun value hvalue => ?_
  cases result with
  | ok out later =>
      cases List.mem_singleton.mp hvalue
      exact hcall.2.2
  | error unwind later => cases hvalue

theorem Told.makeArray (h : account.Told known) {elements : List Value}
    (helements : ∀ element ∈ elements, account.Fits element) :
    (account.makeArray elements).2.Told ((account.makeArray elements).1 :: known) := by
  have hallows : (account.withSession (account.session.makeArray elements).2).Allows
      (.offers (.array account.session.births elements))
      (.array account.session.births elements) := by
    refine h.traces.allows_array .host ?_ helements
    rintro made ⟨⟩
    rfl
  have hmade : Grows (fun _ => False) account
      (account.withSession (account.session.makeArray elements).2) :=
    .withSession rfl (Nat.le_refl _)
  have hgrows : Grows (fun _ => False) account (account.makeArray elements).2 :=
    hmade.trans (.noted (by simp [Happening.visit?]))
  have htraces : (account.makeArray elements).2.Traces (sourceNodes account.sources) :=
    (h.traces.makeArray elements).noted (by simp [Happening.visit?]) (by simp [Happening.site?])
      (fun heq => by cases heq) hallows
  have hvalue : ∀ value ∈ [(account.makeArray elements).1],
      (account.makeArray elements).2.Fits value :=
    fun value hvalue => List.mem_singleton.mp hvalue ▸ hallows.stems
  exact h.advance htraces hgrows rfl hvalue

theorem Hosted.told (h : account.Hosted natives known) : account.Told known := by
  induction h with
  | start recording => exact .start natives recording
  | run text _ ih => exact ih.run text
  | @set account known value name _ hvalue ih =>
      have htraces := ih.traces.binding (.set account.session name value)
        fun other hother => List.mem_singleton.mp hother ▸ ih.offers hvalue
      exact ⟨htraces, ih.numbered, ih.known⟩
  | call _ hcallee hargs ih =>
      exact ih.call (ih.offers hcallee) fun arg harg => ih.offers (hargs arg harg)
  | makeArray _ helements ih =>
      exact ih.makeArray fun element helement => ih.offers (helements element helement)
  | takeReport _ ih =>
      exact ⟨ih.traces.binding (.of_store_eq rfl rfl rfl) (by simp), ih.numbered, ih.known⟩

/-- Two values are made at once when the history has one place for what makes either. -/
theorem makeOne_of_index {value value' : Value}
    (hmade : ∃ happening ∈ account.history, happening.Makes value)
    (hmade' : ∃ happening ∈ account.history, happening.Makes value')
    (hindex : ∀ {i j : Nat} {happening other : Happening},
      account.history[i]? = some happening → account.history[j]? = some other →
        happening.Makes value → other.Makes value' → i = j) :
    MakeOne account.history value value' := by
  obtain ⟨happening, hmem, hmakes⟩ := hmade
  obtain ⟨other, hmem', hmakes'⟩ := hmade'
  obtain ⟨i, hi⟩ := List.mem_iff_getElem?.mp hmem
  obtain ⟨j, hj⟩ := List.mem_iff_getElem?.mp hmem'
  cases hindex hi hj hmakes hmakes'
  cases hi.symm.trans hj
  exact ⟨i, happening, hi, hmakes, hmakes'⟩

/-- Functions from one literal in one scope are one function. -/
theorem Told.makeOne_of_same (h : account.Told known) {f g : Closure}
    (hf : account.Fits (.function f)) (hg : account.Fits (.function g)) (hsame : f.same g = true) :
    MakeOne account.history (.function f) (.function g) :=
  makeOne_of_index hf.made_function hg.made_function fun hi hj hmakes hmakes' =>
    h.traces.index_eq_of_same h.nodup hi hj hmakes hmakes' hsame

/-- Arrays with one number are one array. -/
theorem Told.makeOne_of_birth (h : account.Told known) {birth : Nat}
    {elements elements' : List Value} (hvalue : account.Fits (.array birth elements))
    (hother : account.Fits (.array birth elements')) :
    MakeOne account.history (.array birth elements) (.array birth elements') :=
  makeOne_of_index hvalue.made_array hother.made_array h.traces.index_eq_of_birth

end Account

theorem Closure.same_self (f : Closure) : f.same f = true :=
  (f.same_iff f).mpr rfl

namespace Account

variable {natives : Natives} {account : Account} {known : List Value}

theorem Told.same_iff (h : account.Told known) {f g : Closure}
    (hf : account.Fits (.function f)) (hg : account.Fits (.function g)) :
    f.same g = true ↔ MakeOne account.history (.function f) (.function g) := by
  refine ⟨h.makeOne_of_same hf hg, fun hone => ?_⟩
  cases hone.eq
  exact f.same_self

theorem Told.birth_iff (h : account.Told known) {birth birth' : Nat}
    {elements elements' : List Value} (hvalue : account.Fits (.array birth elements))
    (hother : account.Fits (.array birth' elements')) :
    birth = birth' ↔
      MakeOne account.history (.array birth elements) (.array birth' elements') := by
  constructor
  · rintro rfl
    exact h.makeOne_of_birth hvalue hother
  · intro hone
    cases hone.eq
    rfl

/-- What is at hand was made once. -/
theorem Told.made_once (h : account.Told known) {value : Value} (hvalue : account.Fits value)
    (hkind : value.kind = .function ∨ value.kind = .array) :
    ∃! i : Nat, ∃ happening : Happening,
      account.history[i]? = some happening ∧ happening.Makes value := by
  cases value with
  | function f =>
      obtain ⟨i, happening, hi, hmakes, _⟩ := (h.same_iff hvalue hvalue).mp f.same_self
      refine ⟨i, ⟨happening, hi, hmakes⟩, fun j hother => ?_⟩
      obtain ⟨other, hj, hmakes'⟩ := hother
      exact h.traces.index_eq_of_same h.nodup hj hi hmakes' hmakes f.same_self
  | array birth elements =>
      obtain ⟨i, happening, hi, hmakes, _⟩ := (h.birth_iff hvalue hvalue).mp rfl
      refine ⟨i, ⟨happening, hi, hmakes⟩, fun j hother => ?_⟩
      obtain ⟨other, hj, hmakes'⟩ := hother
      exact h.traces.index_eq_of_birth hj hi hmakes' hmakes
  | int | text | bool | null | native | error => rcases hkind with hkind | hkind <;> cases hkind

end Account

namespace Session

open Account

/-- There is an account of all that a host does, and in every account of it no node is
evaluated twice in one scope. Every function and every array that can be found was made once,
by the evaluation of a literal, by one of the two native bodies that make arrays, or by the
host. Two functions are equal, to a script and by contents, if and only if they are what one
evaluation of a function literal made; two arrays are equal to a script if and only if they
are what was made at once. -/
theorem identity_is_one_creation {natives : Natives} {session : Session} {known : List Value}
    (h : Hosted natives session known) :
    (∃ account : Account, account.Hosted natives known ∧ account.session = session) ∧
    ∀ account : Account, account.Hosted natives known → account.session = session →
      account.visits.Nodup ∧
      (∀ happening ∈ account.history, ∀ site ∈ happening.site?,
        site ∈ sourceNodes account.sources) ∧
      (∀ scope node e value, .yields scope node e value ∈ account.history →
        .begins scope node e ∈ account.history) ∧
      (∀ value, account.Holds known value → value.kind = .function ∨ value.kind = .array →
        ∃! i : Nat, ∃ happening : Happening,
          account.history[i]? = some happening ∧ happening.Makes value) ∧
      (∀ f g, account.Holds known (.function f) → account.Holds known (.function g) →
        (BinaryOp.apply (.function f) .equal (.function g) = .ok (.bool true) ↔
          MakeOne account.history (.function f) (.function g)) ∧
        (Value.alike (.function f) (.function g) = true ↔
          MakeOne account.history (.function f) (.function g))) ∧
      ∀ birth elements birth' elements', account.Holds known (.array birth elements) →
        account.Holds known (.array birth' elements') →
          (BinaryOp.apply (.array birth elements) .equal (.array birth' elements') =
            .ok (.bool true) ↔
          MakeOne account.history (.array birth elements) (.array birth' elements')) := by
  refine ⟨exists_hosted h, fun account haccount _ => ?_⟩
  have htold := haccount.told
  refine ⟨htold.traces.visits, htold.traces.sites, fun _ _ _ _ => htold.traces.begun,
    fun value hvalue => htold.made_once (htold.holds hvalue), fun f g hf hg => ?_,
    fun birth elements birth' elements' hvalue hother => ?_⟩
  · have hsame := htold.same_iff (htold.holds hf) (htold.holds hg)
    simp only [BinaryOp.apply_equal, Except.ok.injEq, Value.bool.injEq]
    exact ⟨hsame, hsame⟩
  · have hbirth := htold.birth_iff (htold.holds hvalue) (htold.holds hother)
    simp only [BinaryOp.apply_equal, Except.ok.injEq, Value.bool.injEq]
    rw [← hbirth, Value.identical, beq_iff_eq]

/-- A program that is run twice has two literals, so the functions that come out are not one. -/
theorem identity_is_one_creation_twice :
    let text := "fn(x) \x7b fn() \x7b x \x7d \x7d(1)"
    let first := (Session.start .standard false).run text
    let second := first.2.run text
    ∃ f g : Closure, Hosted .standard second.2 [.function g, .function f] ∧
      ∃ account : Account, account.Hosted .standard [.function g, .function f] ∧
        MakeOne account.history (.function f) (.function f) ∧
          ¬MakeOne account.history (.function f) (.function g) := by
  intro text first second
  have hscope : (ranTo? first.1).map Closure.scope = some 1 := by decide +kernel
  have hscope' : (ranTo? second.1).map Closure.scope = some 2 := by decide +kernel
  obtain ⟨f, hf, hfscope⟩ := Option.map_eq_some_iff.mp hscope
  obtain ⟨g, hg, hgscope⟩ := Option.map_eq_some_iff.mp hscope'
  have hhosted : Hosted .standard second.2 [.function g, .function f] := by
    have hrun : Hosted .standard second.2 _ := .run text (.run text (.start false))
    rwa [eq_of_ranTo? hf, eq_of_ranTo? hg] at hrun
  obtain ⟨⟨account, haccount, hsession⟩, haccounts⟩ := identity_is_one_creation hhosted
  obtain ⟨_, _, _, _, hfunctions, _⟩ := haccounts account haccount hsession
  have hholds (f' : Closure) (hmem : .function f' ∈ [Value.function g, Value.function f]) :
      account.Holds [.function g, .function f] (.function f') := .offered (.known hmem)
  have hboth := (hfunctions f f (hholds f (by simp)) (hholds f (by simp))).2
  have hother := (hfunctions f g (hholds f (by simp)) (hholds g (by simp))).2
  refine ⟨f, g, hhosted, account, haccount, hboth.mp (Value.alike_refl _), fun hone => ?_⟩
  have hsame : f.same g = true := hother.mpr hone
  simp [Closure.same, hfscope, hgscope] at hsame

end Session

end Scriptlet
