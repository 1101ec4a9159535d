import Scriptlet.Proofs.Session.Frame
import Scriptlet.Session.Run

/-!
# Well-formed sessions

In a well-formed session the current scope and the scopes of all functions at hand
exist, and the parent of a scope is older than the scope. Evaluation keeps that, so it
holds of every session that a host can reach by running texts, binding values and
calling functions.
-/

namespace Scriptlet

namespace Store

/-- Some scope binds a name to the value. -/
def Binds (store : Store) (value : Value) : Prop :=
  ∃ (id : ScopeId) (scope : Scope) (name : String),
    store.scopes[id]? = some scope ∧ (name, value) ∈ scope.bindings

variable {store : Store} {value other : Value}

/-- What a search finds is bound. -/
theorem binds_of_searchWithin {name : String} {limit : Nat} {id : ScopeId}
    (hfound : (store.searchWithin name limit id).value? = some value) : store.Binds value := by
  induction limit generalizing id with
  | zero => cases hfound
  | succ limit ih =>
      unfold searchWithin at hfound
      cases hid : store.scopes[id]? with
      | none =>
          rw [hid] at hfound
          cases hfound
      | some scope =>
          rw [hid] at hfound
          dsimp only at hfound
          cases hlookup : scope.bindings.lookup name with
          | some found =>
              rw [hlookup] at hfound
              cases hfound
              obtain ⟨before, after, hbindings, _⟩ := List.lookup_eq_some_iff.mp hlookup
              have hmem : (name, value) ∈ scope.bindings := by
                rw [hbindings]
                exact List.mem_append_right _ List.mem_cons_self
              exact ⟨id, scope, name, hid, hmem⟩
          | none =>
              rw [hlookup] at hfound
              cases hparent : scope.parent with
              | none =>
                  rw [hparent] at hfound
                  cases hfound
              | some parent =>
                  rw [hparent] at hfound
                  exact ih hfound

theorem Binds.of_set {id : ScopeId} {name : String} (h : (store.set id name value).Binds other) :
    other = value ∨ store.Binds other := by
  obtain ⟨id', scope, name', hid', hmem⟩ := h
  rw [scopes_set_getElem?] at hid'
  split at hid'
  · obtain ⟨before, hbefore, rfl⟩ := Option.map_eq_some_iff.mp hid'
    rcases List.mem_cons.mp hmem with heq | hmem
    · exact .inl (Prod.mk.inj heq).2
    · exact .inr ⟨id', before, name', hbefore, hmem⟩
  · exact .inr ⟨id', scope, name', hid', hmem⟩

theorem Binds.of_create {parent : Option ScopeId} (h : (store.create parent).2.Binds value) :
    store.Binds value := by
  obtain ⟨id, scope, name, hid, hmem⟩ := h
  rw [scopes_create_getElem?] at hid
  split at hid
  · cases hid
    cases hmem
  · exact ⟨id, scope, name, hid, hmem⟩

theorem not_binds_empty : ¬empty.Binds value := by
  rintro ⟨id, scope, name, hid, _⟩
  cases hid

end Store

/-- Every function in a value, also inside arrays, has the property. -/
inductive Value.Every (p : Closure → Prop) : Value → Prop where
  | plain {value : Value} (h : value.IsPlain) : Every p value
  | error (message : String) : Every p (.error message)
  | array {birth : Nat} {elements : List Value} (h : ∀ value ∈ elements, Every p value) :
      Every p (.array birth elements)
  | function {f : Closure} (h : p f) : Every p (.function f)

namespace Value

variable {p q : Closure → Prop} {value : Value}

theorem Every.mono (hpq : ∀ f, p f → q f) (h : value.Every p) : value.Every q := by
  induction h with
  | plain h => exact .plain h
  | error message => exact .error message
  | array _ ih => exact .array ih
  | function h => exact .function (hpq _ h)

theorem Every.element {birth : Nat} {elements : List Value} (h : Every p (.array birth elements))
    (hvalue : value ∈ elements) : value.Every p := by
  cases h with
  | plain h => cases h
  | array h => exact h value hvalue

theorem Every.of_function {f : Closure} (h : Every p (.function f)) : p f := by
  cases h with
  | plain h => cases h
  | function h => exact h

/-- The scopes of all functions in a value are among the first `size`. -/
def FitsIn (size : Nat) (value : Value) : Prop :=
  value.Every fun f => f.scope < size

theorem FitsIn.mono {size size' : Nat} (h : value.FitsIn size) (hsize : size ≤ size') :
    value.FitsIn size' :=
  Every.mono (fun _ hf => Nat.lt_of_lt_of_le hf hsize) h

end Value

namespace Session

/-- Scopes exist where they are referred to, and parents are older than their children. -/
structure WellFormed (session : Session) : Prop where
  scope : session.scope < session.store.size
  parent {id : ScopeId} {scope : Scope} {parent : ScopeId} :
    session.store.scopes[id]? = some scope → scope.parent = some parent → parent < id
  binding {id : ScopeId} {scope : Scope} {name : String} {value : Value} :
    session.store.scopes[id]? = some scope → (name, value) ∈ scope.bindings →
      value.FitsIn session.store.size

theorem size_opened (session : Session) (f : Closure) :
    session.store.size ≤ (session.opened f).store.size := by
  simp [opened]

namespace WellFormed

variable {session other : Session}

theorem of_eq (h : session.WellFormed) (hstore : other.store = session.store)
    (hscope : other.scope = session.scope) : other.WellFormed := by
  constructor
  · rw [hstore, hscope]
    exact h.scope
  · rw [hstore]
    exact h.parent
  · rw [hstore]
    exact h.binding

theorem binds (h : session.WellFormed) {value : Value} (hvalue : session.store.Binds value) :
    value.FitsIn session.store.size := by
  obtain ⟨_, _, _, hid, hmem⟩ := hvalue
  exact h.binding hid hmem

theorem set (h : session.WellFormed) (name : String) {value : Value}
    (hvalue : value.FitsIn session.store.size) : (session.set name value).WellFormed := by
  constructor
  · rw [store_set, Store.size_set]
    exact h.scope
  · intro id scope parent hid hparent
    rw [store_set, Store.scopes_set_getElem?] at hid
    split at hid
    · obtain ⟨before, hbefore, rfl⟩ := Option.map_eq_some_iff.mp hid
      exact h.parent hbefore hparent
    · exact h.parent hid hparent
  · intro id scope name' value' hid hmem
    rw [store_set, Store.size_set]
    rcases Store.Binds.of_set ⟨id, scope, name', hid, hmem⟩ with rfl | hbinds
    · exact hvalue
    · exact h.binds hbinds

/-- The found value of a name fits, because it is bound in some scope. -/
theorem search (h : session.WellFormed) {name : String} {value : Value} {limit : Nat}
    {id : ScopeId} (hfound : (session.store.searchWithin name limit id).value? = some value) :
    value.FitsIn session.store.size :=
  h.binds (Store.binds_of_searchWithin hfound)

/-- Opening a scope inside one that exists keeps a session well-formed. -/
theorem opened (h : session.WellFormed) {f : Closure} (hf : f.scope < session.store.size) :
    (session.opened f).WellFormed := by
  have hsize : (session.opened f).store.size = session.store.size + 1 := Store.size_create _ _
  constructor
  · rw [hsize]
    exact Nat.lt_succ_self _
  · intro id scope parent hid hparent
    simp only [Session.opened, Store.scopes_create_getElem?] at hid
    split at hid
    · rename_i hnew
      cases hid
      cases hparent
      exact hnew ▸ hf
    · exact h.parent hid hparent
  · intro id scope name value hid hmem
    rw [hsize]
    have hbinds := Store.Binds.of_create ⟨id, scope, name, hid, hmem⟩
    exact (h.binds hbinds).mono (Nat.le_succ _)

theorem leave (h : session.WellFormed) {caller : ScopeId} (hcaller : caller < session.store.size) :
    (session.leave caller).WellFormed :=
  ⟨hcaller, h.parent, h.binding⟩

end WellFormed

end Session

namespace Law

/-- Sessions stay well-formed with so many calls in progress, and the values at hand fit. -/
def wellFormed (depth : Nat) : Law where
  holds session := session.WellFormed ∧ session.depth = depth
  moves start session := start.store.size ≤ session.store.size
  fits session value := value.FitsIn session.store.size
  binds _ := True

theorem wellFormed_kept (depth : Nat) : (wellFormed depth).Kept where
  refl _ := Nat.le_refl _
  trans := Nat.le_trans
  fits_mono hmoves hvalue := hvalue.mono hmoves
  fits_plain := .plain
  fits_element harray := harray.element
  fits_function _ _ _ hholds := .function hholds.1.scope
  makeArray hholds hvalues :=
    ⟨⟨hholds.1.of_eq rfl rfl, hholds.2⟩, Nat.le_refl _, .array hvalues⟩
  print _ hholds := ⟨⟨hholds.1.of_eq rfl rfl, hholds.2⟩, Nat.le_refl _, True.intro⟩
  observe _ hholds := ⟨⟨hholds.1.of_eq rfl rfl, hholds.2⟩, Nat.le_refl _, True.intro⟩
  found hholds hfound := hholds.1.search hfound
  set {_ name _} hholds _ hvalue :=
    ⟨⟨hholds.1.set name hvalue, hholds.2⟩, Nat.le_of_eq (Store.size_set _ _ _ _).symm, True.intro⟩

theorem wellFormed_opens (depth : Nat) : (wellFormed depth).Opens (wellFormed (depth + 1)) where
  binds _ := True.intro
  opened {session f} hholds hf := by
    refine ⟨⟨hholds.1.opened hf.of_function, ?_⟩, fun value hvalue => ?_⟩
    · exact congrArg (· + 1) hholds.2
    · exact hvalue.mono (session.size_opened f)
  leave {session last f} hholds _ hlast hmoves := by
    have hsize : session.store.size ≤ last.store.size :=
      Nat.le_trans (session.size_opened f) hmoves
    have hdepth : (last.leave session.scope).depth = depth := by
      simp [Session.leave, hlast.2]
    have hwell := hlast.1.leave (Nat.lt_of_lt_of_le hholds.1.scope hsize)
    exact ⟨⟨hwell, hdepth⟩, hsize, fun _ hvalue => hvalue⟩

theorem wellFormed_keptBy (depth levels : Nat) :
    (wellFormed depth).KeptBy (callWithin levels) :=
  keptBy_callWithin (· + 1) wellFormed_kept wellFormed_opens depth levels

end Law

section Programs

variable {depth : Nat} {rule : CallRule} {start : Session}

theorem Expr.eval_wellFormed (hkept : (Law.wellFormed depth).KeptBy rule) (e : Expr Nat)
    (hholds : (Law.wellFormed depth).holds start) :
    (Law.wellFormed depth).Outcome (Law.wellFormed depth).fits start (e.eval rule start) :=
  Expr.eval_keeps (Law.wellFormed_kept depth) hkept e (fun _ _ => True.intro) hholds

theorem Item.eval_wellFormed (hkept : (Law.wellFormed depth).KeptBy rule) (item : Item Nat)
    (hholds : (Law.wellFormed depth).holds start) :
    (Law.wellFormed depth).Outcome
      (fun session last => ∀ value ∈ last, (Law.wellFormed depth).fits session value) start
      (item.eval rule start) :=
  Item.eval_keeps (Law.wellFormed_kept depth) hkept item (fun _ _ => True.intro) hholds

theorem Expr.evalAll_wellFormed (hkept : (Law.wellFormed depth).KeptBy rule)
    (es : List (Expr Nat)) (hholds : (Law.wellFormed depth).holds start) :
    (Law.wellFormed depth).Outcome
      (fun session values => ∀ value ∈ values, (Law.wellFormed depth).fits session value) start
      (Expr.evalAll rule es start) :=
  Expr.evalAll_keeps (Law.wellFormed_kept depth) hkept es (fun _ _ => True.intro) hholds

theorem Item.evalAll_wellFormed (hkept : (Law.wellFormed depth).KeptBy rule)
    (items : List (Item Nat)) (hholds : (Law.wellFormed depth).holds start) :
    (Law.wellFormed depth).Outcome
      (fun session last => ∀ value ∈ last, (Law.wellFormed depth).fits session value) start
      (Item.evalAll rule none items start) :=
  Item.evalAll_keeps (Law.wellFormed_kept depth) hkept items none (fun _ _ => True.intro) hholds
    (by simp)

end Programs

namespace Session

/-- What running a text leaves, by whether it has errors of syntax. -/
theorem run_snd (session : Session) (text : String) :
    (session.run text).2 =
      if (Parsed.ofText text).errors.isEmpty then
        ((session.load (Parsed.ofText text).program).2.evaluate
          (session.load (Parsed.ofText text).program).1).2
      else session := by
  unfold run
  dsimp only
  split <;> rfl

variable {session : Session}

theorem not_binds_start (natives : Natives) (recording : Bool) (value : Value) :
    ¬(Session.start natives recording).store.Binds value :=
  fun h => Store.not_binds_empty (Store.Binds.of_create h)

theorem WellFormed.start (natives : Natives) (recording : Bool) :
    (Session.start natives recording).WellFormed := by
  constructor
  · exact Nat.zero_lt_one
  · intro id scope parent hid hparent
    simp only [Session.start, Store.scopes_create_getElem?, Store.empty] at hid
    split at hid
    · cases hid
      cases hparent
    · cases hid
  · intro id scope name value hid hmem
    exact absurd ⟨id, scope, name, hid, hmem⟩ (not_binds_start natives recording value)

theorem WellFormed.evaluate (h : session.WellFormed) (program : Program Nat) :
    (session.evaluate program).2.WellFormed ∧
      ∀ value ∈ (session.evaluate program).1,
        value.FitsIn (session.evaluate program).2.store.size := by
  have hkept := Law.wellFormed_kept session.depth
  obtain ⟨hlast, _, hvalue⟩ := hkept.evaluate (Law.wellFormed_keptBy _ _)
    (fun _ message => .error message) program (fun _ _ => True.intro) ⟨h, rfl⟩
  exact ⟨hlast.1, hvalue⟩

theorem WellFormed.call (h : session.WellFormed) {callee : Value} {args : List Value}
    (hcallee : callee.FitsIn session.store.size)
    (hargs : ∀ value ∈ args, value.FitsIn session.store.size) :
    (Law.wellFormed session.depth).Outcome (Law.wellFormed session.depth).fits session
      (session.call callee args) :=
  (Law.wellFormed_kept session.depth).call (Law.wellFormed_keptBy _ _) ⟨h, rfl⟩ hcallee hargs

/-- The sessions that a host reaches from the start by running texts, binding values in
the current scope, calling values, making arrays, and collecting what was printed. It may
use any values whose functions have scopes in the session. -/
inductive Reachable (natives : Natives) : Session → Prop where
  | start (recording : Bool) : Reachable natives (Session.start natives recording)
  | run {session : Session} (text : String) (h : Reachable natives session) :
      Reachable natives (session.run text).2
  | set {session : Session} (name : String) {value : Value} (h : Reachable natives session)
      (hvalue : value.FitsIn session.store.size) : Reachable natives (session.set name value)
  | call {session : Session} {callee : Value} {args : List Value}
      (h : Reachable natives session) (hcallee : callee.FitsIn session.store.size)
      (hargs : ∀ value ∈ args, value.FitsIn session.store.size) :
      Reachable natives (Eval.last (session.call callee args))
  | makeArray {session : Session} (elements : List Value) (h : Reachable natives session) :
      Reachable natives (session.makeArray elements).2
  | takeReport {session : Session} (h : Reachable natives session) :
      Reachable natives session.takeReport.2

/-- Between the actions of a host no call is in progress, and the current scope is the
global one: the first, which has no parent. -/
structure AtRest (natives : Natives) (session : Session) : Prop where
  scope : session.scope = 0
  depth : session.depth = 0
  natives : session.natives = natives
  outermost : ∃ bindings, session.store.scopes[0]? = some ⟨none, bindings⟩

theorem AtRest.confined {natives : Natives} {binds : String → Prop} {last : Session}
    (h : session.AtRest natives) (hconfined : session.Confined binds last) :
    last.AtRest natives := by
  obtain ⟨bindings, hglobal⟩ := h.outermost
  obtain ⟨added, hadded, _⟩ := hconfined.scopes hglobal
  exact ⟨hconfined.scope.trans h.scope, hconfined.depth.trans h.depth,
    hconfined.natives.trans h.natives, ⟨added ++ bindings, hadded⟩⟩

namespace Reachable

variable {natives : Natives}

theorem wellFormed (h : Reachable natives session) : session.WellFormed := by
  induction h with
  | start recording => exact WellFormed.start natives recording
  | @run session text _ ih =>
      rw [run_snd]
      split
      · have hloaded : (session.load (Parsed.ofText text).program).2.WellFormed := ih.of_eq rfl rfl
        exact (hloaded.evaluate _).1
      · exact ih
  | set name _ hvalue ih => exact ih.set name hvalue
  | call _ hcallee hargs ih => exact (ih.call hcallee hargs).last.1.1
  | makeArray elements _ ih => exact ih.of_eq rfl rfl
  | takeReport _ ih => exact ih.of_eq rfl rfl

theorem atRest (h : Reachable natives session) : session.AtRest natives := by
  induction h with
  | start recording => exact ⟨rfl, rfl, rfl, ⟨[], rfl⟩⟩
  | @run session text _ ih =>
      rw [run_snd]
      split
      · have hloaded : (session.load (Parsed.ofText text).program).2.AtRest natives :=
          ⟨ih.scope, ih.depth, ih.natives, ih.outermost⟩
        exact hloaded.confined (evaluate_confined _ _)
      · exact ih
  | @set session name value _ _ ih =>
      have hset : session.Confined (fun _ => True) (session.set name value) :=
        .set True.intro session value
      exact ih.confined hset
  | call _ _ _ ih => exact ih.confined (Session.call_confined _ _ _)
  | makeArray elements _ ih => exact ⟨ih.scope, ih.depth, ih.natives, ih.outermost⟩
  | takeReport _ ih => exact ⟨ih.scope, ih.depth, ih.natives, ih.outermost⟩

end Reachable

end Session

end Scriptlet
