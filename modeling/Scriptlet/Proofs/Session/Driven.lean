import Scriptlet.Proofs.Grammar.Nesting
import Scriptlet.Proofs.Program.Numbering
import Scriptlet.Proofs.Session.Halting
import Scriptlet.Proofs.Session.Lexical

/-!
# Chains of scopes mirror the nesting of function literals

A host runs texts and calls the values that come out or are bound. In every session that
it reaches so, the chain of a function's scope is as long as the literal of the function
stands deep, and whatever runs next runs as deep as it stands. Because the parser limits
nesting, no look-up goes far.
-/

namespace Scriptlet

namespace Law

/-- Evaluation numbers no function literals. -/
def sameLiterals : Law where
  holds _ := True
  moves start session := session.literals = start.literals
  fits _ _ := True
  binds _ := True

theorem sameLiterals_kept : sameLiterals.Kept where
  refl _ := rfl
  trans h h' := h'.trans h
  fits_mono _ _ := True.intro
  fits_plain _ := True.intro
  fits_element _ _ := True.intro
  fits_function _ _ _ _ := True.intro
  makeArray _ _ := ⟨True.intro, rfl, True.intro⟩
  print _ _ := ⟨True.intro, rfl, True.intro⟩
  observe _ _ := ⟨True.intro, rfl, True.intro⟩
  found _ _ := True.intro
  set _ _ _ := ⟨True.intro, rfl, True.intro⟩

theorem sameLiterals_opens : sameLiterals.Opens sameLiterals where
  binds _ := True.intro
  opened _ _ := ⟨True.intro, fun _ _ => True.intro⟩
  leave _ _ _ hbody := ⟨True.intro, hbody, fun _ _ => True.intro⟩

theorem sameLiterals_keptBy (levels : Nat) : sameLiterals.KeptBy (callWithin levels) :=
  keptBy_callWithin id (fun _ => sameLiterals_kept) (fun _ => sameLiterals_opens) () levels

end Law

namespace Session

variable {session later : Session}

theorem evaluate_literals (session : Session) (program : Program Nat) :
    (session.evaluate program).2.literals = session.literals :=
  (Law.sameLiterals_kept.evaluate (Law.sameLiterals_keptBy _) (fun _ _ => True.intro) program
    (fun _ _ => True.intro) True.intro).2.1

theorem call_literals (session : Session) (callee : Value) (args : List Value) :
    (Eval.last (session.call callee args)).literals = session.literals :=
  (Law.sameLiterals_kept.call (Law.sameLiterals_keptBy _) True.intro True.intro
    fun _ _ => True.intro).last.2

/-- A text that was evaluated has no errors of syntax. -/
theorem run_eq_ok {text : String} {value? : Option Value}
    (h : session.run text = (.ok value?, later)) :
    (Parsed.ofText text).errors = [] ∧
      (session.load (Parsed.ofText text).program).2.evaluate
        (session.load (Parsed.ofText text).program).1 = (value?, later) := by
  unfold run at h
  dsimp only at h
  split at h
  · rename_i hread
    cases h
    exact ⟨List.isEmpty_iff.mp hread, rfl⟩
  · cases h

theorem run_eq_error {text : String} {errors : List ParseError}
    (h : session.run text = (.error errors, later)) : later = session := by
  unfold run at h
  dsimp only at h
  split at h
  · cases h
  · cases h
    rfl

/-- The values that a host has: those that hold no functions, those that came out of runs
and calls, those that the scopes bind, and the elements of these. -/
inductive Offers (session : Session) (known : List Value) : Value → Prop where
  | plain {value : Value} (h : value.IsPlain) : Offers session known value
  | error (message : String) : Offers session known (.error message)
  | known {value : Value} (h : value ∈ known) : Offers session known value
  | bound {id : ScopeId} {scope : Scope} {name : String} {value : Value}
      (hid : session.store.scopes[id]? = some scope) (hmem : (name, value) ∈ scope.bindings) :
      Offers session known value
  | element {birth : Nat} {elements : List Value} {value : Value}
      (h : Offers session known (.array birth elements)) (hmem : value ∈ elements) :
      Offers session known value

/-- The sessions that a host reaches from the start by running texts and calling values
that it has, with the programs that it ran, as they were numbered, and the values that
came out. -/
inductive Driven (natives : Natives) : Session → List (Program Nat) → List Value → Prop where
  | start (recording : Bool) : Driven natives (Session.start natives recording) [] []
  | run {session later : Session} {sources : List (Program Nat)} {known : List Value}
      {text : String} {value? : Option Value} (h : Driven natives session sources known)
      (hrun : session.run text = (.ok value?, later)) :
      Driven natives later (sources ++ [(session.load (Parsed.ofText text).program).1])
        (value?.toList ++ known)
  | rejected {session later : Session} {sources : List (Program Nat)} {known : List Value}
      {text : String} {errors : List ParseError} (h : Driven natives session sources known)
      (hrun : session.run text = (.error errors, later)) : Driven natives later sources known
  | call {session later : Session} {sources : List (Program Nat)} {known : List Value}
      {callee value : Value} {args : List Value} (h : Driven natives session sources known)
      (hcallee : Offers session known callee) (hargs : ∀ arg ∈ args, Offers session known arg)
      (hcall : session.call callee args = .ok value later) :
      Driven natives later sources (value :: known)
  | failed {session later : Session} {sources : List (Program Nat)} {known : List Value}
      {callee : Value} {args : List Value} {unwind : Unwind}
      (h : Driven natives session sources known) (hcallee : Offers session known callee)
      (hargs : ∀ arg ∈ args, Offers session known arg)
      (hcall : session.call callee args = .error unwind later) :
      Driven natives later sources known
  | makeArray {session : Session} {sources : List (Program Nat)} {known elements : List Value}
      (h : Driven natives session sources known)
      (helements : ∀ element ∈ elements, Offers session known element) :
      Driven natives (session.makeArray elements).2 sources
        ((session.makeArray elements).1 :: known)
  | takeReport {session : Session} {sources : List (Program Nat)} {known : List Value}
      (h : Driven natives session sources known) :
      Driven natives session.takeReport.2 sources known

end Session

namespace Machine

/-- How a machine comes to a configuration from the start of a program or of a call by a
host: the body that the code at hand belongs to, and those that the callers belong to. It
stays within a body while no call is opened or ended, enters the body of the function
called, one literal deeper than the function stands, and leaves for the body of the
caller. -/
inductive Visits (admits : Nat → Bool) (sites : List (Nat × Expr Nat)) (start : Config)
    (program : Program Nat) : Config → Place → List Place → Prop where
  | start : Visits admits sites start program start ⟨0, program⟩ []
  | within {config next : Config} {place : Place} {callers : List Place}
      (h : Visits admits sites start program config place callers)
      (hstep : step admits config = some next) (hcallers : next.callers = config.callers) :
      Visits admits sites start program next place callers
  | enter {config next : Config} {place : Place} {callers : List Place} {f : Closure}
      {args : List Value} {depth : Nat}
      (h : Visits admits sites start program config place callers)
      (hstep : step admits config = some next) (hcallers : next.callers = config.callers + 1)
      (hcall : config.control = .call f args)
      (hliteral : (depth, .fn f.literal f.params f.body) ∈ sites) :
      Visits admits sites start program next ⟨depth + 1, f.body⟩ (place :: callers)
  | leave {config next : Config} {place outer : Place} {callers : List Place}
      (h : Visits admits sites start program config place (outer :: callers))
      (hstep : step admits config = some next) (hcallers : next.callers + 1 = config.callers) :
      Visits admits sites start program next outer callers

section Runs

variable {admits : Nat → Bool} {sites : List (Nat × Expr Nat)} {start config : Config}
variable {program : Program Nat} {place : Place} {callers : List Place}

/-- Where literals have numbers of their own, the bodies in progress are determined by the
steps, and the invariant holds for them. -/
theorem Visits.lexical (hnodup : (literalMarks sites).Nodup)
    (hstart : start.Lexical sites ⟨0, program⟩ [])
    (h : Visits admits sites start program config place callers) :
    config.Lexical sites place callers := by
  induction h with
  | start => exact hstart
  | within _ hstep hcallers ih =>
      cases follows_step ih hstep with
      | within _ h => exact h
      | enter _ hcallers' => omega
      | leave _ hcallers' => omega
  | enter _ hstep hcallers hcall hliteral ih =>
      cases follows_step ih hstep with
      | within hcallers' => omega
      | enter hcall' _ hliteral' h =>
          cases hcall.symm.trans hcall'
          cases eq_of_mark?_eq hnodup hliteral hliteral' rfl rfl
          exact h
      | leave _ hcallers' => omega
  | leave _ hstep hcallers ih =>
      cases follows_step ih hstep with
      | within hcallers' => omega
      | enter _ hcallers' => omega
      | leave hstack _ h =>
          cases hstack
          exact h

theorem Reaches.visits (hstart : start.Lexical sites ⟨0, program⟩ [])
    (h : Reaches admits start config) :
    ∃ place callers, Visits admits sites start program config place callers ∧
      config.Lexical sites place callers := by
  induction h with
  | refl => exact ⟨_, _, .start, hstart⟩
  | tail _ hstep ih =>
      obtain ⟨place, callers, hvisits, hlexical⟩ := ih
      cases follows_step hlexical hstep with
      | within hcallers h => exact ⟨_, _, .within hvisits hstep hcallers, h⟩
      | enter hcall hcallers hliteral h =>
          exact ⟨_, _, .enter hvisits hstep hcallers hcall hliteral, h⟩
      | leave hstack hcallers h =>
          subst hstack
          exact ⟨_, _, .leave hvisits hstep hcallers, h⟩

theorem Stack.held {store : Store} {frames : List Frame}
    (h : Stack sites store place callers frames) :
    ∀ frame ∈ frames, ∀ value ∈ frame.held, value.Mirrors sites store := by
  induction h with
  | nil => simp
  | frame _ _ hvalues _ ih =>
      intro frame hframe
      rcases List.mem_cons.mp hframe with rfl | hframe
      · exact hvalues
      · exact ih frame hframe
  | caller _ _ _ ih =>
      intro frame hframe
      rcases List.mem_cons.mp hframe with rfl | hframe
      · simp [Frame.held]
      · exact ih frame hframe

end Runs

/-- What holds while the machine runs within a body: the scopes form chains that end in
the first, and the current one has as many scopes as the body has function literals
around it, and one; an expression to be evaluated next stands in the body itself; every
function that is bound, came out or waits mirrors its literal; and a look-up goes to no
more than 512 scopes, those that have begun and those to be made at once. -/
structure Config.InPlace (sites : List (Nat × Expr Nat)) (place : Place) (config : Config) :
    Prop where
  rooted : config.session.store.Rooted
  chain : config.session.store.ChainLength config.session.scope (place.level + 1)
  stands {e : Expr Nat} : config.control = .expr e → (place.level, e) ∈ place.parts
  source : place.parts ⊆ sites
  bound {id : ScopeId} {scope : Scope} {name : String} {value : Value} :
    config.session.store.scopes[id]? = some scope → (name, value) ∈ scope.bindings →
      value.Mirrors sites config.session.store
  held : ∀ value ∈ config.control.held, value.Mirrors sites config.session.store
  waiting : ∀ frame ∈ config.frames, ∀ value ∈ frame.held,
    value.Mirrors sites config.session.store
  hops {name : String} {id : ScopeId} {hops : Nat} :
    config.control = .lookup name id hops → hops + 1 ≤ 512
  search {name : String} : config.control = .expr (.var name) →
    (config.session.store.search config.session.scope name).hops + 1 ≤ 512

theorem Expr.mem_parts_self (e : Expr Nat) (depth : Nat) : (depth, e) ∈ e.parts depth := by
  cases e <;> simp [Expr.parts]

theorem Config.Lexical.inPlace {sites : List (Nat × Expr Nat)} {config : Config} {place : Place}
    {callers : List Place} (h : config.Lexical sites place callers)
    (hnesting : ∀ part ∈ sites, 2 * part.1 + part.2.nesting ≤ maxNesting) :
    config.InPlace sites place := by
  -- A name takes a level of nesting itself, so fewer than 512 literals stand around it.
  have hlevel {name : String} (hcode : (place.level, Expr.var name) ∈ place.parts) :
      place.level + 1 ≤ 512 := by
    have hlimit := hnesting _ (h.body hcode)
    simp only [Expr.nesting, maxNesting] at hlimit
    omega
  have hstands {e : Expr Nat} (he : config.control = .expr e) :
      (place.level, e) ∈ place.parts := by
    have hcode := h.code
    rw [he] at hcode
    exact hcode (Expr.mem_parts_self e _)
  exact {
    rooted := h.session.rooted
    chain := h.scope
    stands := hstands
    source := h.body
    bound := h.session.bound
    held := h.values
    waiting := h.frames.held
    hops := fun hlookup => by
      obtain ⟨rest, hrest, hsum⟩ := h.lookup hlookup
      have hpos := hrest.pos
      have hcode := h.code
      rw [hlookup] at hcode
      have hbound := hlevel (hcode List.mem_cons_self)
      omega
    search := @fun name hvar => by
      obtain ⟨ids, hchain, hlength⟩ := h.scope
      have hfew := hchain.hops_lt name config.session.store.size
      have hbound := hlevel (hstands hvar)
      rw [hlength] at hfew
      exact Nat.le_trans hfew hbound }

/-- Whatever a machine comes to from a start, it comes to within some body, and within
whatever body that is, all is in place. -/
def StaysInPlace (sites : List (Nat × Expr Nat)) (program : Program Nat) (start : Config) : Prop :=
  ∀ config, Reaches withinLimit start config →
    (∃ place callers, Visits withinLimit sites start program config place callers) ∧
    ∀ place callers, Visits withinLimit sites start program config place callers →
      config.InPlace sites place

theorem Config.Lexical.staysInPlace {sites : List (Nat × Expr Nat)} {program : Program Nat}
    {start : Config} (h : start.Lexical sites ⟨0, program⟩ [])
    (hnodup : (literalMarks sites).Nodup)
    (hnesting : ∀ part ∈ sites, 2 * part.1 + part.2.nesting ≤ maxNesting) :
    StaysInPlace sites program start := by
  intro config hreaches
  obtain ⟨place, callers, hvisits, _⟩ := hreaches.visits h
  refine ⟨⟨place, callers, hvisits⟩, fun place callers hvisits => ?_⟩
  exact (hvisits.lexical hnodup h).inPlace hnesting

end Machine

namespace Session

open Machine

/-- What a host keeps up by running and calling: functions bound in the session or known
to the host mirror their literals, the literals of all programs have numbers of their
own, and no program nests too deep. -/
structure Mirrored (session : Session) (sources : List (Program Nat)) (known : List Value) :
    Prop where
  lexical : session.Lexical (sourceParts sources)
  known : ∀ value ∈ known, value.Mirrors (sourceParts sources) session.store
  numbered : Numbered 0 session.literals (literalMarks (sourceParts sources))
  nesting : ∀ part ∈ sourceParts sources, 2 * part.1 + part.2.nesting ≤ maxNesting

variable {natives : Natives} {session later : Session} {sources : List (Program Nat)}
variable {known : List Value}

theorem Mirrored.start (natives : Natives) (recording : Bool) :
    (Session.start natives recording).Mirrored [] [] where
  lexical := by
    have hscopes {id : ScopeId} {scope : Scope}
        (hid : (Session.start natives recording).store.scopes[id]? = some scope) :
        scope = ⟨none, []⟩ := by
      simp only [Session.start, Store.scopes_create_getElem?, Store.empty] at hid
      split at hid
      · cases hid
        rfl
      · cases hid
    constructor
    · intro id hid
      cases Nat.lt_one_iff.mp hid
      have hglobal : (Session.start natives recording).store.scopes[0]? = some ⟨none, []⟩ := rfl
      exact ⟨[0], .outermost hglobal rfl, by simp, rfl⟩
    · intro id scope name value hid hmem
      rw [hscopes hid] at hmem
      cases hmem
  known := by simp
  numbered := .nil 0
  nesting := by simp [sourceParts]

theorem Mirrored.offers (h : session.Mirrored sources known) {value : Value}
    (hvalue : Offers session known value) : value.Mirrors (sourceParts sources) session.store := by
  induction hvalue with
  | plain h => exact .plain h
  | error message => exact .error message
  | known hmem => exact h.known _ hmem
  | bound hid hmem => exact h.lexical.bound hid hmem
  | element _ hmem ih => exact ih.element hmem

theorem sourceParts_append (sources : List (Program Nat)) (program : Program Nat) :
    sourceParts (sources ++ [program]) = sourceParts sources ++ Item.partsAll 0 program := by
  simp [sourceParts]

/-- A program that is loaded gets numbers of its own and does not nest too deep. -/
theorem Mirrored.load (h : session.Mirrored sources known) (text : String) :
    let loaded := session.load (Parsed.ofText text).program
    loaded.2.Mirrored (sources ++ [loaded.1]) known := by
  intro loaded
  have hsites : sourceParts sources ⊆ sourceParts (sources ++ [loaded.1]) := by
    rw [sourceParts_append]
    exact List.subset_append_left _ _
  constructor
  · exact (h.lexical.mono hsites).of_eq rfl
  · exact fun value hvalue => (h.known value hvalue).mono hsites (.refl _)
  · rw [sourceParts_append, literalMarks_append]
    exact h.numbered.append
      (Item.numbered_numberEach (Parsed.ofText text).program session.literals 0)
  · intro part hpart
    rw [sourceParts_append] at hpart
    rcases List.mem_append.mp hpart with hpart | hpart
    · exact h.nesting part hpart
    · have hpart := Item.nesting_of_mem_partsAll hpart
      have hlimit := Parsed.nesting_ofTokens (Token.ofText text)
      rw [← Item.nestingAll_numberEach _ session.literals] at hlimit
      rw [Nat.mul_zero, Nat.zero_add] at hpart
      exact Nat.le_trans hpart hlimit

theorem Mirrored.nodup (h : session.Mirrored sources known) :
    (literalMarks (sourceParts sources)).Nodup := by
  rw [h.numbered.eq]
  exact List.nodup_range'

theorem AtRest.chainLength (h : session.AtRest natives) :
    session.store.ChainLength session.scope 1 := by
  obtain ⟨bindings, hglobal⟩ := h.outermost
  rw [h.scope]
  exact ⟨[0], .outermost hglobal rfl, rfl⟩

/-- A program begins in place. -/
theorem Mirrored.ofProgram (h : session.Mirrored sources known) (hrest : session.AtRest natives)
    {program : Program Nat} (hprogram : program ∈ sources) :
    (Config.ofProgram session program).Lexical (sourceParts sources) ⟨0, program⟩ [] := by
  have hparts : Item.partsAll 0 program ⊆ sourceParts sources :=
    fun part hpart => List.mem_flatMap.mpr ⟨program, hprogram, hpart⟩
  exact {
    session := h.lexical
    scope := hrest.chainLength
    body := hparts
    code := List.Subset.refl _
    values := by simp [Config.ofProgram, Control.held]
    lookup := by simp [Config.ofProgram]
    frames := .nil _ }

/-- A call by the host begins in place. -/
theorem Mirrored.ofCall (h : session.Mirrored sources known) (hrest : session.AtRest natives)
    {callee : Value} {args : List Value} (hcallee : Offers session known callee)
    (hargs : ∀ arg ∈ args, Offers session known arg) :
    (Config.ofCall session callee args).Lexical (sourceParts sources) ⟨0, []⟩ [] := by
  have hcallee := h.offers hcallee
  have hargs : ∀ arg ∈ args, arg.Mirrors (sourceParts sources) session.store :=
    fun arg harg => h.offers (hargs arg harg)
  have hbegin {control : Control} {frames : List Frame} (hcode : control.parts 0 = [])
      (hvalues : ∀ value ∈ control.held, value.Mirrors (sourceParts sources) session.store)
      (hlookup : ∀ {name id hops}, control ≠ .lookup name id hops)
      (hframes : Stack (sourceParts sources) session.store ⟨0, []⟩ [] frames) :
      Config.Lexical (sourceParts sources) ⟨0, []⟩ [] ⟨control, frames, session⟩ := {
    session := h.lexical
    scope := hrest.chainLength
    body := List.nil_subset _
    code := by simp [hcode]
    values := hvalues
    lookup := fun heq => absurd heq hlookup
    frames := hframes }
  cases callee with
  | function f =>
      refine hbegin rfl (fun value hvalue => ?_) (by simp) (.nil _)
      rcases List.mem_cons.mp hvalue with rfl | hvalue
      · exact hcallee
      · exact hargs value hvalue
  | native f =>
      have hframes : Stack (sourceParts sources) session.store ⟨0, []⟩ [] [.native f] :=
        .frame rfl (List.nil_subset _) (by simp [Frame.held]) (.nil _)
      exact hbegin rfl hargs (by simp) hframes
  | int | text | bool | null | array | error =>
      exact hbegin rfl (by simp [Control.held]) (by simp) (.nil _)

theorem Mirrored.fitsIn (h : session.Mirrored sources known) {value : Value}
    (hvalue : Offers session known value) : value.FitsIn session.store.size := by
  refine Value.Every.mono (fun f hf => ?_) (h.offers hvalue)
  obtain ⟨_, _, _, hscope⟩ := hf
  exact hscope.lt_size

/-- What a program comes to mirrors its literals. -/
theorem lexical_evaluate {sites : List (Nat × Expr Nat)} {place : Place} {callers : List Place}
    {program : Program Nat}
    (h : (Config.ofResult .ended []
      (Item.evalAll session.callRule none program session)).Lexical sites place callers) :
    (session.evaluate program).2.Lexical sites ∧
      ∀ value ∈ (session.evaluate program).1,
        value.Mirrors sites (session.evaluate program).2.store := by
  unfold evaluate
  generalize Item.evalAll session.callRule none program session = result at h ⊢
  cases result with
  | ok last session =>
      exact ⟨h.session, fun value hvalue => h.values value (Option.mem_toList.mpr hvalue)⟩
  | error unwind session =>
      cases unwind with
      | returned value =>
          refine ⟨h.session, fun other hother => ?_⟩
          cases hother
          exact h.values _ List.mem_cons_self
      | fault fault =>
          refine ⟨h.session, fun other hother => ?_⟩
          cases hother
          exact .error _

/-- What comes later in a session that keeps the scopes and numbers no literals. -/
theorem Mirrored.advance (h : session.Mirrored sources known)
    (hlexical : later.Lexical (sourceParts sources))
    (hkeeps : session.store.KeepsParents later.store)
    (hliterals : later.literals = session.literals)
    (more : List Value) (hmore : ∀ value ∈ more, value.Mirrors (sourceParts sources) later.store) :
    later.Mirrored sources (more ++ known) where
  lexical := hlexical
  known := by
    intro value hvalue
    rcases List.mem_append.mp hvalue with hvalue | hvalue
    · exact hmore value hvalue
    · exact (h.known value hvalue).mono (List.Subset.refl _) hkeeps
  numbered := by
    rw [hliterals]
    exact h.numbered
  nesting := h.nesting

theorem Mirrored.evaluate (h : session.Mirrored sources known) (hwell : session.WellFormed)
    (hrest : session.AtRest natives) {program : Program Nat} (hprogram : program ∈ sources) :
    (session.evaluate program).2.Mirrored sources
      ((session.evaluate program).1.toList ++ known) := by
  have hdepth : session.depth ≤ maxCalls := hrest.depth ▸ Nat.zero_le _
  have hreaches := hwell.reaches_program hdepth program
  obtain ⟨place, callers, _, hlast⟩ := hreaches.visits (h.ofProgram hrest hprogram)
  obtain ⟨hlexical, hvalue⟩ := lexical_evaluate hlast
  exact h.advance hlexical (evaluate_confined session program).keepsParents
    (session.evaluate_literals program) _ fun value hmem => hvalue value (Option.mem_toList.mp hmem)

theorem Mirrored.call (h : session.Mirrored sources known) (hwell : session.WellFormed)
    (hrest : session.AtRest natives) {callee : Value} {args : List Value}
    (hcallee : Offers session known callee) (hargs : ∀ arg ∈ args, Offers session known arg)
    (more : List Value)
    (hmore : ∀ value ∈ more, ∃ last, session.call callee args = .ok value last) :
    (Eval.last (session.call callee args)).Mirrored sources (more ++ known) := by
  have hdepth : session.depth ≤ maxCalls := hrest.depth ▸ Nat.zero_le _
  have hreaches := hwell.reaches_call hdepth (h.fitsIn hcallee) fun arg harg =>
    h.fitsIn (hargs arg harg)
  obtain ⟨place, callers, _, hlast⟩ := hreaches.visits (h.ofCall hrest hcallee hargs)
  have hkeeps := (call_confined session callee args).keepsParents
  have hliterals := session.call_literals callee args
  generalize session.call callee args = result at hmore hlast hkeeps hliterals ⊢
  refine h.advance ?_ hkeeps hliterals more fun value hvalue => ?_
  · cases result <;> exact hlast.session
  · obtain ⟨last, rfl⟩ := hmore value hvalue
    exact hlast.values value List.mem_cons_self

theorem AtRest.load (h : session.AtRest natives) (program : Program Unit) :
    (session.load program).2.AtRest natives :=
  ⟨h.scope, h.depth, h.natives, h.outermost⟩

theorem WellFormed.load (h : session.WellFormed) (program : Program Unit) :
    (session.load program).2.WellFormed :=
  h.of_eq rfl rfl

/-- What a host does keeps functions as they should be. -/
theorem Driven.mirrored (h : Driven natives session sources known) :
    Reachable natives session ∧ session.Mirrored sources known := by
  induction h with
  | start recording => exact ⟨.start recording, .start natives recording⟩
  | @run session later sources known text value? _ hrun ih =>
      obtain ⟨hreachable, hmirrored⟩ := ih
      have hlater : later = (session.run text).2 := by rw [hrun]
      refine ⟨hlater ▸ .run text hreachable, ?_⟩
      have hevaluate := (hmirrored.load text).evaluate (hreachable.wellFormed.load _)
        (hreachable.atRest.load _) (List.mem_append_right _ List.mem_cons_self)
      rw [(run_eq_ok hrun).2] at hevaluate
      exact hevaluate
  | rejected _ hrun ih =>
      cases run_eq_error hrun
      exact ih
  | @call session later sources known callee value args _ hcallee hargs hcall ih =>
      obtain ⟨hreachable, hmirrored⟩ := ih
      have hlater : later = Eval.last (session.call callee args) := by rw [hcall]; rfl
      have hfits {value : Value} (h : Offers session known value) := hmirrored.fitsIn h
      refine ⟨hlater ▸ .call hreachable (hfits hcallee) fun arg harg => hfits (hargs arg harg), ?_⟩
      rw [hlater]
      refine hmirrored.call hreachable.wellFormed hreachable.atRest hcallee hargs [value]
        fun other hother => ⟨later, ?_⟩
      rw [List.mem_singleton.mp hother, hcall]
  | @failed session later sources known callee args unwind _ hcallee hargs hcall ih =>
      obtain ⟨hreachable, hmirrored⟩ := ih
      have hlater : later = Eval.last (session.call callee args) := by rw [hcall]; rfl
      have hfits {value : Value} (h : Offers session known value) := hmirrored.fitsIn h
      refine ⟨hlater ▸ .call hreachable (hfits hcallee) fun arg harg => hfits (hargs arg harg), ?_⟩
      rw [hlater]
      exact hmirrored.call hreachable.wellFormed hreachable.atRest hcallee hargs [] (by simp)
  | @makeArray session sources known elements _ helements ih =>
      obtain ⟨hreachable, hmirrored⟩ := ih
      have hmade : ∀ value ∈ [(session.makeArray elements).1],
          value.Mirrors (sourceParts sources) session.store := by
        intro value hvalue
        rw [List.mem_singleton.mp hvalue]
        exact .array fun element helement => hmirrored.offers (helements element helement)
      have hlexical : (session.makeArray elements).2.Lexical (sourceParts sources) :=
        hmirrored.lexical.of_eq rfl
      exact ⟨.makeArray elements hreachable, hmirrored.advance hlexical (.refl _) rfl _ hmade⟩
  | @takeReport session sources known _ ih =>
      obtain ⟨hreachable, hmirrored⟩ := ih
      have hlexical : session.takeReport.2.Lexical (sourceParts sources) :=
        hmirrored.lexical.of_eq rfl
      exact ⟨.takeReport hreachable, hmirrored.advance hlexical (.refl _) rfl [] (by simp)⟩

/-- In a session that a host reaches by running texts and calling values, every scope has
a chain that ends in the global one; function literals have numbers of their own; and every
function that is bound or that the host has comes from a literal of a source, with a chain
of scopes longer by one than the literal stands deep. Whatever text runs next and whatever
call the host makes next, the machine comes to its result, and on the way everything stays
in place: code is evaluated in a scope whose chain is longer by one than the code stands
deep, however many calls are in progress, and no look-up visits more than 512 scopes. -/
theorem chains_mirror_nesting (h : Driven natives session sources known) :
    session.scope = 0 ∧ session.store.Rooted ∧ (literalMarks (sourceParts sources)).Nodup ∧
    (∀ value, Offers session known value → value.Mirrors (sourceParts sources) session.store) ∧
    (∀ text, (Parsed.ofText text).errors = [] →
      let loaded := session.load (Parsed.ofText text).program
      Reaches withinLimit (.ofProgram loaded.2 loaded.1)
        (.ofResult .ended [] (Item.evalAll loaded.2.callRule none loaded.1 loaded.2)) ∧
      (literalMarks (sourceParts (sources ++ [loaded.1]))).Nodup ∧
      StaysInPlace (sourceParts (sources ++ [loaded.1])) loaded.1 (.ofProgram loaded.2 loaded.1)) ∧
    (∀ callee args, Offers session known callee → (∀ arg ∈ args, Offers session known arg) →
      Reaches withinLimit (.ofCall session callee args)
        (.ofResult .value [] (session.call callee args)) ∧
      StaysInPlace (sourceParts sources) [] (.ofCall session callee args)) := by
  obtain ⟨hreachable, hmirrored⟩ := h.mirrored
  refine ⟨hreachable.atRest.scope, hmirrored.lexical.rooted, hmirrored.nodup,
    fun value hvalue => hmirrored.offers hvalue, fun text _ => ?_,
    fun callee args hcallee hargs => ?_⟩
  · intro loaded
    have hload : loaded.2.Mirrored (sources ++ [loaded.1]) known := hmirrored.load text
    have hprogram : loaded.1 ∈ sources ++ [loaded.1] :=
      List.mem_append_right _ List.mem_cons_self
    have hstart := hload.ofProgram (hreachable.atRest.load _) hprogram
    have hwell : loaded.2.WellFormed := hreachable.wellFormed.load _
    exact ⟨hwell.reaches_program hreachable.depth_le loaded.1, hload.nodup,
      hstart.staysInPlace hload.nodup hload.nesting⟩
  · have hstart := hmirrored.ofCall hreachable.atRest hcallee hargs
    have hreaches := hreachable.wellFormed.reaches_call hreachable.depth_le
      (hmirrored.fitsIn hcallee) fun arg harg => hmirrored.fitsIn (hargs arg harg)
    exact ⟨hreaches, hstart.staysInPlace hmirrored.nodup hmirrored.nesting⟩

/-- The function that came out of a run. -/
def ranTo? : Except (List ParseError) (Option Value) → Option Closure
  | .ok (some (.function f)) => some f
  | _ => none

theorem eq_of_ranTo? {outcome : Except (List ParseError) (Option Value)} {f : Closure}
    (h : ranTo? outcome = some f) : outcome = .ok (some (.function f)) := by
  unfold ranTo? at h
  split at h
  · cases h
    rfl
  · cases h

/-- A function that came out of another one has a chain of two scopes, as its literal stands
in one other; and calling it, all stays in place. -/
theorem chains_mirror_nesting_inner :
    let text := "fn(x) \x7b fn(y) \x7b x \x7d \x7d(true)"
    let start := Session.start .standard false
    let sources := [(start.load (Parsed.ofText text).program).1]
    ∃ inner : Closure, inner.literal = 1 ∧ inner.scope = 1 ∧
      Driven .standard (start.run text).2 sources [.function inner] ∧
      Value.Mirrors (sourceParts sources) (start.run text).2.store (.function inner) ∧
      StaysInPlace (sourceParts sources) []
        (.ofCall (start.run text).2 (.function inner) [.null]) := by
  intro text start sources
  have hplace : (ranTo? (start.run text).1).map (fun f => (f.literal, f.scope)) = some (1, 1) := by
    decide +kernel
  obtain ⟨inner, hinner, hplace⟩ := Option.map_eq_some_iff.mp hplace
  obtain ⟨hliteral, hscope⟩ := Prod.mk.inj hplace
  have hrun : start.run text = (.ok (some (.function inner)), (start.run text).2) :=
    Prod.ext (eq_of_ranTo? hinner) rfl
  have hdriven : Driven .standard (start.run text).2 sources [.function inner] :=
    .run (.start false) hrun
  obtain ⟨_, _, _, hmirrors, _, hcalls⟩ := chains_mirror_nesting hdriven
  have hoffers : Offers (start.run text).2 [.function inner] (.function inner) :=
    .known List.mem_cons_self
  refine ⟨inner, hliteral, hscope, hdriven, hmirrors _ hoffers, ?_⟩
  refine (hcalls _ [.null] hoffers fun arg harg => ?_).2
  rw [List.mem_singleton.mp harg]
  exact .plain .null

end Session

end Scriptlet
