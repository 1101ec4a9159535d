import Scriptlet.Proofs.Session.Pairing
import Scriptlet.Proofs.Session.WellFormed

/-!
# Names that nobody mentions

A global binding matters only to code that has its name as an identifier. If neither a
program nor any function that it can get at has the name, the program does the same with
the binding and without, and leaves the binding as it was.

What a program can get at are the scopes on the way outwards from the current one, the
values that they bind, and the scopes of the functions in these values. Evaluation makes
new scopes and passes on values from there, so it stays among them.
-/

namespace Scriptlet

/-- The value is the function, or an array with the function somewhere inside. -/
inductive Value.Has (f : Closure) : Value → Prop where
  | function : Has f (.function f)
  | element {birth : Nat} {elements : List Value} {value : Value} (hmem : value ∈ elements)
      (h : Has f value) : Has f (.array birth elements)

theorem Value.every_of_has {p : Closure → Prop} :
    ∀ {value : Value}, (∀ f, value.Has f → p f) → value.Every p
  | .int n, _ => .plain (.int n)
  | .text s, _ => .plain (.text s)
  | .bool b, _ => .plain (.bool b)
  | .null, _ => .plain .null
  | .native f, _ => .plain (.native f)
  | .error message, _ => .error message
  | .function f, h => .function (h f .function)
  | .array _ _, h => .array fun _ hmem => every_of_has fun f hf => h f (.element hmem hf)

namespace Store

/-- The scopes that can be got at from a scope. -/
inductive Sees (store : Store) (root : ScopeId) : ScopeId → Prop where
  | root : Sees store root root
  | parent {id parent : ScopeId} {scope : Scope} (h : Sees store root id)
      (hid : store.scopes[id]? = some scope) (hparent : scope.parent = some parent) :
      Sees store root parent
  | captured {id : ScopeId} {scope : Scope} {name : String} {value : Value} {f : Closure}
      (h : Sees store root id) (hid : store.scopes[id]? = some scope)
      (hbound : scope.bindings.lookup name = some value) (hf : value.Has f) :
      Sees store root f.scope

/-- The function can be got at from a scope, through what names are bound to. -/
def Finds (store : Store) (root : ScopeId) (f : Closure) : Prop :=
  ∃ id scope name value, store.Sees root id ∧ store.scopes[id]? = some scope ∧
    scope.bindings.lookup name = some value ∧ value.Has f

/-- The scope is there, but cannot be got at. -/
def Conceals (store : Store) (root id : ScopeId) : Prop :=
  id < store.size ∧ ¬store.Sees root id

theorem sees_of_not_conceals {store : Store} {root id : ScopeId} {scope : Scope}
    (h : ¬store.Conceals root id) (hid : store.scopes[id]? = some scope) :
    store.Sees root id := by
  by_contra hsees
  exact h ⟨(Array.getElem?_eq_some_iff.mp hid).1, hsees⟩

end Store

/-- Two scopes have the same parent, and bind all names alike but those exempt. -/
structure Scope.AlikeBut (exempt : String → Prop) (scope scope' : Scope) : Prop where
  parent : scope'.parent = scope.parent
  lookup {name : String} :
    ¬exempt name → scope'.bindings.lookup name = scope.bindings.lookup name

theorem Scope.AlikeBut.refl (exempt : String → Prop) (scope : Scope) :
    scope.AlikeBut exempt scope :=
  ⟨rfl, fun _ => rfl⟩

/-- A binding of a name in one scope, and the scopes from which nobody looks. -/
structure Bystander where
  name : String
  value : Value
  /-- The scope of the binding. -/
  home : ScopeId
  /-- The scopes that are out of reach. -/
  hidden : ScopeId → Prop

namespace Bystander

variable (bystander : Bystander) {session session' : Session}

/-- The function does not mention the name, and its scope is not out of reach. -/
def Spares (f : Closure) : Prop :=
  bystander.name ∉ f.names ∧ ¬bystander.hidden f.scope

/-- The name, in its scope. -/
def Exempt (id : ScopeId) (name : String) : Prop :=
  id = bystander.home ∧ name = bystander.name

/-- The sessions differ in the one binding at most, and in what they record. No function
within reach mentions the name. -/
structure Apart (session session' : Session) : Prop where
  scope : session'.scope = session.scope
  natives : session'.natives = session.natives
  births : session'.births = session.births
  output : session'.output = session.output
  size : session'.store.size = session.store.size
  scopes (id : ScopeId) :
    Option.Rel (Scope.AlikeBut (bystander.Exempt id)) session.store.scopes[id]?
      session'.store.scopes[id]?
  bound : ∃ scope, session'.store.scopes[bystander.home]? = some scope ∧
    scope.bindings.lookup bystander.name = some bystander.value
  reached : ¬bystander.hidden session.scope
  old {id : ScopeId} : bystander.hidden id → id < session.store.size
  parent {id parent : ScopeId} {scope : Scope} :
    ¬bystander.hidden id → session.store.scopes[id]? = some scope →
      scope.parent = some parent → ¬bystander.hidden parent
  binding {id : ScopeId} {scope : Scope} {name : String} {value : Value} :
    ¬bystander.hidden id → session.store.scopes[id]? = some scope →
      scope.bindings.lookup name = some value → value.Every bystander.Spares

variable {bystander}

namespace Apart

/-- Another name is found in the same place, if at all. -/
theorem searchWithin (h : bystander.Apart session session') {name : String}
    (hname : name ≠ bystander.name) (limit : Nat) (id : ScopeId) :
    session'.store.searchWithin name limit id = session.store.searchWithin name limit id := by
  induction limit generalizing id with
  | zero => rfl
  | succ limit ih =>
      have hscopes := h.scopes id
      unfold Store.searchWithin
      generalize session.store.scopes[id]? = scope?, session'.store.scopes[id]? = scope?'
        at hscopes ⊢
      cases hscopes with
      | none => rfl
      | some halike =>
          dsimp only
          rw [halike.lookup fun hexempt => hname hexempt.2, halike.parent]
          simp only [ih]

/-- What is found within reach spares the name. -/
theorem found (h : bystander.Apart session session') {name : String} {limit : Nat}
    {id : ScopeId} (hid : ¬bystander.hidden id) {value : Value}
    (hfound : (session.store.searchWithin name limit id).value? = some value) :
    value.Every bystander.Spares := by
  induction limit generalizing id with
  | zero => cases hfound
  | succ limit ih =>
      unfold Store.searchWithin at hfound
      cases hscope : session.store.scopes[id]? with
      | none =>
          rw [hscope] at hfound
          cases hfound
      | some scope =>
          rw [hscope] at hfound
          dsimp only at hfound
          cases hlookup : scope.bindings.lookup name with
          | some bound =>
              rw [hlookup] at hfound
              cases hfound
              exact h.binding hid hscope hlookup
          | none =>
              rw [hlookup] at hfound
              cases hparent : scope.parent with
              | none =>
                  rw [hparent] at hfound
                  cases hfound
              | some parent =>
                  rw [hparent] at hfound
                  exact ih (h.parent hid hscope hparent) hfound

theorem print (h : bystander.Apart session session') (text : String) :
    bystander.Apart (session.print text) (session'.print text) :=
  ⟨h.scope, h.natives, h.births, congrArg (· ++ text) h.output, h.size, h.scopes, h.bound,
    h.reached, h.old, h.parent, h.binding⟩

theorem observe (h : bystander.Apart session session') (event event' : Event) :
    bystander.Apart (session.observe event) (session'.observe event') :=
  ⟨h.scope, h.natives, h.births, h.output, h.size, h.scopes, h.bound, h.reached, h.old,
    h.parent, h.binding⟩

/-- The next array has the same number in both. -/
theorem makeArray (h : bystander.Apart session session') (elements : List Value) :
    bystander.Apart (session.makeArray elements).2 (session'.makeArray elements).2 ∧
      (session'.makeArray elements).1 = (session.makeArray elements).1 :=
  ⟨⟨h.scope, h.natives, congrArg (· + 1) h.births, h.output, h.size, h.scopes, h.bound,
    h.reached, h.old, h.parent, h.binding⟩, congrArg (Value.array · elements) h.births⟩

theorem get (h : bystander.Apart session session') {name : String}
    (hname : name ≠ bystander.name) :
    bystander.Apart (session.get name).2 (session'.get name).2 ∧
      (session'.get name).1 = (session.get name).1 ∧
      ∀ value ∈ (session.get name).1, value.Every bystander.Spares := by
  have hfound := h.searchWithin hname session.store.size session.scope
  refine ⟨h.observe _ _, ?_, fun value hvalue => h.found h.reached hvalue⟩
  simp only [Session.get, Store.search, h.scope, h.size, hfound]

/-- Binding another name to a value that spares the name. -/
theorem set (h : bystander.Apart session session') {name : String}
    (hname : name ≠ bystander.name) {value : Value} (hvalue : value.Every bystander.Spares) :
    bystander.Apart (session.set name value) (session'.set name value) where
  scope := h.scope
  natives := h.natives
  births := h.births
  output := h.output
  size := by simpa using h.size
  scopes id := by
    have hscopes := h.scopes id
    rw [Session.store_set, Session.store_set, Store.scopes_set_getElem?,
      Store.scopes_set_getElem?, h.scope]
    split
    · generalize session.store.scopes[id]? = scope?, session'.store.scopes[id]? = scope?'
        at hscopes ⊢
      cases hscopes with
      | none => exact .none
      | some halike =>
          refine .some ⟨halike.parent, fun {other} hother => ?_⟩
          simp only [List.lookup_cons, halike.lookup hother]
    · exact hscopes
  bound := by
    obtain ⟨scope, hhome, hbound⟩ := h.bound
    rw [Session.store_set, Store.scopes_set_getElem?, hhome]
    split
    · refine ⟨_, rfl, ?_⟩
      have hother : (bystander.name == name) = false := beq_false_of_ne hname.symm
      rw [List.lookup_cons, hother]
      exact hbound
    · exact ⟨scope, rfl, hbound⟩
  reached := h.reached
  old hid := by simpa using h.old hid
  parent {id parent scope} hid hscope hparent := by
    rw [Session.store_set, Store.scopes_set_getElem?] at hscope
    split at hscope
    · obtain ⟨before, hbefore, rfl⟩ := Option.map_eq_some_iff.mp hscope
      exact h.parent hid hbefore hparent
    · exact h.parent hid hscope hparent
  binding {id scope other bound} hid hscope hbound := by
    rw [Session.store_set, Store.scopes_set_getElem?] at hscope
    split at hscope
    · obtain ⟨before, hbefore, rfl⟩ := Option.map_eq_some_iff.mp hscope
      rw [List.lookup_cons] at hbound
      split at hbound
      · cases hbound
        exact hvalue
      · exact h.binding hid hbefore hbound
    · exact h.binding hid hscope hbound

/-- Opening a scope inside one that is within reach. -/
theorem opened (h : bystander.Apart session session') {f : Closure}
    (hf : ¬bystander.hidden f.scope) :
    bystander.Apart (session.opened f) (session'.opened f) where
  scope := h.size
  natives := h.natives
  births := h.births
  output := h.output
  size := by simpa [Session.opened] using h.size
  scopes id := by
    have hscopes := h.scopes id
    simp only [Session.opened, Store.scopes_create_getElem?, h.size]
    split
    · exact .some (.refl _ _)
    · exact hscopes
  bound := by
    obtain ⟨scope, hhome, hbound⟩ := h.bound
    have hsize : bystander.home ≠ session'.store.size := by
      have hlt := (Array.getElem?_eq_some_iff.mp hhome).1
      exact Nat.ne_of_lt hlt
    refine ⟨scope, ?_, hbound⟩
    simp only [Session.opened, Store.scopes_create_getElem?, hsize, if_false, hhome]
  reached hid := absurd (h.old hid) (Nat.lt_irrefl _)
  old hid := Nat.lt_of_lt_of_le (h.old hid) (session.size_opened f)
  parent {id parent scope} hid hscope hparent := by
    simp only [Session.opened, Store.scopes_create_getElem?] at hscope
    split at hscope
    · cases hscope
      cases hparent
      exact hf
    · exact h.parent hid hscope hparent
  binding {id scope name value} hid hscope hbound := by
    simp only [Session.opened, Store.scopes_create_getElem?] at hscope
    split at hscope
    · cases hscope
      cases hbound
    · exact h.binding hid hscope hbound

theorem leave {last last' : Session} (h : bystander.Apart session session')
    (hlast : bystander.Apart last last') :
    bystander.Apart (last.leave session.scope) (last'.leave session'.scope) :=
  ⟨h.scope, hlast.natives, hlast.births, hlast.output, hlast.size, hlast.scopes, hlast.bound,
    h.reached, hlast.old, hlast.parent, hlast.binding⟩

end Apart

/-- Programs without the name in two sessions that are apart. The values are the same, and
their functions spare the name. -/
def pairing (bystander : Bystander) : Pairing where
  holds := bystander.Apart
  moves _ _ := True
  fits _ value value' := value' = value ∧ value.Every bystander.Spares
  names name := name ≠ bystander.name

theorem pairing_step {start : Session} (h : bystander.Apart session session') :
    bystander.pairing.Step start session session' :=
  ⟨h, True.intro⟩

theorem pairing_fitsAll {values values' : List Value}
    (h : bystander.pairing.fitsAll session values values') :
    values' = values ∧ ∀ value ∈ values, value.Every bystander.Spares := by
  induction h with
  | nil => exact ⟨rfl, by simp⟩
  | cons hhead _ ih =>
      obtain ⟨rfl, hspares⟩ := hhead
      obtain ⟨rfl, hall⟩ := ih
      exact ⟨rfl, List.forall_mem_cons.mpr ⟨hspares, hall⟩⟩

theorem pairing_kept (bystander : Bystander) : bystander.pairing.Kept where
  refl _ := True.intro
  trans _ _ := True.intro
  fits_mono _ hvalue := hvalue
  fits_plain hplain := ⟨rfl, .plain hplain⟩
  fits_matches := by
    rintro _ value _ ⟨rfl, hspares⟩
    cases hspares with
    | plain hplain => exact .plain hplain
    | error message => exact .error message
    | array helements =>
        exact .array (List.forall₂_same.mpr fun value hvalue => ⟨rfl, helements value hvalue⟩)
    | function => exact .function rfl rfl
  fits_identical := by
    rintro _ _ _ _ _ ⟨rfl, _⟩ ⟨rfl, _⟩
    rfl
  fits_function literal params body hholds hnames :=
    ⟨by rw [hholds.scope], .function ⟨fun hname => hnames _ hname rfl, hholds.reached⟩⟩
  fits_names hf name hname heq := hf.2.of_function.1 (heq ▸ hname)
  natives hholds := hholds.natives
  makeArray {_ _ _ elements} hholds helements := by
    obtain ⟨rfl, hspares⟩ := pairing_fitsAll helements
    obtain ⟨happart, hsame⟩ := hholds.makeArray elements
    exact .ok (pairing_step happart) ⟨hsame, .array hspares⟩
  print text hholds := pairing_step (hholds.print text)
  observe event hholds := pairing_step (hholds.observe event event)
  get {session session' name} hholds hname := by
    obtain ⟨happart, hvalue, hspares⟩ := hholds.get hname
    refine ⟨pairing_step happart, ?_⟩
    rw [hvalue]
    cases hfound : (session.get name).1 with
    | none => exact .none
    | some value => exact .some ⟨rfl, hspares value hfound⟩
  set hholds hname hvalue := by
    obtain ⟨rfl, hspares⟩ := hvalue
    exact pairing_step (hholds.set hname hspares)
  opened hholds hf := by
    obtain ⟨hsame, hspares⟩ := hf
    cases hsame
    exact pairing_step (hholds.opened hspares.of_function.2)
  leave hholds _ hlast := pairing_step (hholds.leave hlast)

/-- A session with a further binding in the current scope, of a name that no function within
reach mentions. -/
theorem apart_set (session : Session) {name : String} (value : Value)
    (hscope : session.scope < session.store.size)
    (hfinds : ∀ f, session.store.Finds session.scope f → name ∉ f.names) :
    Apart ⟨name, value, session.scope, session.store.Conceals session.scope⟩ session
      (session.set name value) where
  scope := rfl
  natives := rfl
  births := rfl
  output := rfl
  size := Store.size_set _ _ _ _
  scopes id := by
    rw [Session.store_set, Store.scopes_set_getElem?]
    cases session.store.scopes[id]? with
    | none => split <;> exact .none
    | some scope =>
        split
        next hhome =>
          refine .some ⟨rfl, fun {other} hother => ?_⟩
          have hne : (other == name) = false :=
            beq_false_of_ne fun heq => hother ⟨hhome.symm, heq⟩
          simp only [List.lookup_cons, hne]
        next => exact .some (.refl _ scope)
  bound := by
    obtain ⟨scope, hhome⟩ : ∃ scope, session.store.scopes[session.scope]? = some scope :=
      ⟨_, Array.getElem?_eq_getElem hscope⟩
    rw [Session.store_set, Store.scopes_set_getElem?, if_pos rfl, hhome]
    exact ⟨_, rfl, by simp⟩
  reached hhidden := hhidden.2 .root
  old hhidden := hhidden.1
  parent hid hscope hparent hhidden :=
    hhidden.2 (.parent (Store.sees_of_not_conceals hid hscope) hscope hparent)
  binding {id scope other bound} hid hscope hbound := by
    have hsees := Store.sees_of_not_conceals hid hscope
    refine Value.every_of_has fun f hf => ⟨?_, fun hhidden => ?_⟩
    · exact hfinds f ⟨id, scope, other, bound, hsees, hscope, hbound, hf⟩
    · exact hhidden.2 (.captured hsees hscope hbound hf)

/-- Evaluating a program without the name comes to the same value, and keeps sessions apart. -/
theorem Apart.evaluate (h : bystander.Apart session session')
    (hdepth : session'.depth = session.depth) {program : Program Nat}
    (hnames : bystander.name ∉ Item.namesAll program) :
    bystander.Apart (session.evaluate program).2 (session'.evaluate program).2 ∧
      (session'.evaluate program).1 = (session.evaluate program).1 := by
  obtain ⟨hstep, hvalue⟩ := bystander.pairing_kept.evaluate
    (fun _ message => ⟨rfl, .error message⟩) (fun _ hmem heq => hnames (heq ▸ hmem)) h hdepth
  refine ⟨hstep.holds, ?_⟩
  generalize (session.evaluate program).1 = value?, (session'.evaluate program).1 = value?'
    at hvalue ⊢
  cases hvalue with
  | none => rfl
  | some hsame => rw [hsame.1]

/-- All other names have the same values in sessions that are apart. -/
theorem Apart.get?_eq (h : bystander.Apart session session') {name : String}
    (hname : name ≠ bystander.name) (id : ScopeId) :
    session'.store.get? id name = session.store.get? id name := by
  rw [Store.get?, Store.get?, Store.search, Store.search, h.size, h.searchWithin hname]

/-- The name has its value. -/
theorem Apart.get?_home (h : bystander.Apart session session') :
    session'.store.get? bystander.home bystander.name = some bystander.value := by
  obtain ⟨scope, hhome, hbound⟩ := h.bound
  have hsize : 0 < session'.store.size :=
    Nat.zero_lt_of_lt (Array.getElem?_eq_some_iff.mp hhome).1
  obtain ⟨limit, hlimit⟩ := Nat.exists_eq_add_one_of_ne_zero (Nat.ne_of_gt hsize)
  rw [Store.get?, Store.search, hlimit, Store.searchWithin, hhome]
  simp only [hbound]

/-- Running a text without the name, and without functions that mention it, comes to the
same with a further binding of it as without. -/
theorem apart_run (session : Session) {name : String} (value : Value) (text : String)
    (hscope : session.scope < session.store.size)
    (htext : name ∉ Item.namesAll (Parsed.ofText text).program)
    (hfinds : ∀ f, session.store.Finds session.scope f → name ∉ f.names) :
    Apart ⟨name, value, session.scope, session.store.Conceals session.scope⟩
        (session.run text).2 ((session.set name value).run text).2 ∧
      ((session.set name value).run text).1 = (session.run text).1 := by
  unfold Session.run
  dsimp only
  split
  · have hload : (session.set name value).load (Parsed.ofText text).program =
        ((session.load (Parsed.ofText text).program).1,
          (session.load (Parsed.ofText text).program).2.set name value) := rfl
    have happart := apart_set (session.load (Parsed.ofText text).program).2 value hscope hfinds
    have hnames : name ∉ Item.namesAll (session.load (Parsed.ofText text).program).1 :=
      (Item.namesAll_numberEach (Parsed.ofText text).program session.literals).symm ▸ htext
    obtain ⟨hlast, hvalue⟩ := happart.evaluate rfl hnames
    rw [hload]
    exact ⟨hlast, congrArg Except.ok hvalue⟩
  · exact ⟨apart_set session value hscope hfinds, rfl⟩

end Bystander

namespace Session

/-- Between runs, to bind a value to a name globally makes no difference to a text if no
identifier of the text is the name, nor any of a function that can be got at from the
global scope: the errors of syntax or the value are the same, the same is printed, all
other names are bound to the same values globally, and the name still has its value. -/
theorem run_set_of_unmentioned {natives : Natives} {session : Session}
    (h : Reachable natives session) {name : String} (value : Value) (text : String)
    (htext : name ∉ Item.namesAll (Parsed.ofText text).program)
    (hfinds : ∀ f, session.store.Finds 0 f → name ∉ f.names) :
    let plain := session.run text
    let bound := (session.set name value).run text
    bound.1 = plain.1 ∧ bound.2.output = plain.2.output ∧
      (∀ other, other ≠ name → bound.2.store.get? 0 other = plain.2.store.get? 0 other) ∧
      bound.2.store.get? 0 name = some value := by
  intro plain bound
  have hglobal := h.atRest.scope
  rw [← hglobal] at hfinds
  obtain ⟨happart, hvalue⟩ :=
    Bystander.apart_run session value text h.wellFormed.scope htext hfinds
  refine ⟨hvalue, happart.output, fun other hother => happart.get?_eq hother 0, ?_⟩
  have hhome := happart.get?_home
  rwa [hglobal] at hhome

/-- Where a function is bound that does not measure anything, a text that calls it does not
mind what a native name is bound to. -/
theorem run_set_of_unmentioned_native :
    let f : Closure := ⟨0, ["x"], [.expr (.binary (.var "x") .add (.lit (.int 1)))], 0⟩
    let session := (Session.start .standard false).set "g" (.function f)
    let text := "let y = g(1); puts([y])"
    let bound := (session.set "len" (.text "none")).run text
    Reachable .standard session ∧ "len" ∉ Item.namesAll (Parsed.ofText text).program ∧
      (∀ f', session.store.Finds 0 f' → "len" ∉ f'.names) ∧
      bound.2.output = "[2]\n" ∧ bound.2.store.get? 0 "len" = some (.text "none") := by
  intro f session text bound
  have hreachable : Reachable .standard session :=
    .set "g" (.start false) (.function Nat.zero_lt_one)
  have htext : "len" ∉ Item.namesAll (Parsed.ofText text).program := by decide +kernel
  have hfinds : ∀ f', session.store.Finds 0 f' → "len" ∉ f'.names := by
    rintro f' ⟨id, scope, name, value, -, hid, hbound, hf⟩
    have hscopes : session.store.scopes = #[⟨none, [("g", .function f)]⟩] := rfl
    rw [hscopes] at hid
    obtain rfl : scope = ⟨none, [("g", .function f)]⟩ := by
      rcases id with _ | id <;> simp_all
    rw [List.lookup_cons] at hbound
    split at hbound
    · cases hbound
      cases hf
      decide +kernel
    · cases hbound
  have hprints : (session.run text).2.output = "[2]\n" := by decide +kernel
  obtain ⟨-, houtput, -, hname⟩ :=
    run_set_of_unmentioned hreachable (.text "none") text htext hfinds
  exact ⟨hreachable, htext, hfinds, houtput.trans hprints, hname⟩

end Session

end Scriptlet
