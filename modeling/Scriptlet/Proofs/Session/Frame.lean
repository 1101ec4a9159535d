import Scriptlet.Proofs.Session.Law

/-!
# What evaluation leaves as it was

An evaluation adds bindings to the current scope, of names that the evaluated code
binds outside its function literals, and makes new scopes. Everything else about the
scopes there were stays as it was, and so do the current scope and the number of calls
in progress. A call adds nothing to any scope there was.
-/

namespace Scriptlet

namespace Session

@[simp]
theorem store_set (session : Session) (name : String) (value : Value) :
    (session.set name value).store = session.store.set session.scope name value := rfl

/-- The later session differs from the earlier one, as to scopes, in new scopes and in
bindings added to the current scope, of allowed names only. -/
structure Confined (binds : String → Prop) (start session : Session) : Prop where
  scope : session.scope = start.scope
  depth : session.depth = start.depth
  natives : session.natives = start.natives
  size : start.store.size ≤ session.store.size
  scopes {id : ScopeId} {scope : Scope} :
    start.store.scopes[id]? = some scope →
      ∃ added, session.store.scopes[id]? = some ⟨scope.parent, added ++ scope.bindings⟩ ∧
        ∀ binding ∈ added, id = start.scope ∧ binds binding.1

namespace Confined

variable {binds : String → Prop} {start middle session : Session}

/-- Whatever leaves scopes, depth and natives alone is confined. -/
theorem of_eq (hstore : session.store = start.store) (hscope : session.scope = start.scope)
    (hdepth : session.depth = start.depth) (hnatives : session.natives = start.natives) :
    Confined binds start session := by
  have hsize : start.store.size ≤ session.store.size :=
    Nat.le_of_eq (congrArg Store.size hstore.symm)
  refine ⟨hscope, hdepth, hnatives, hsize, fun hid => ⟨[], ?_, by simp⟩⟩
  rw [hstore]
  exact hid

/-- A scope to which nothing may be added stays as it is. -/
theorem unchanged (h : Confined binds start session) {id : ScopeId} {scope : Scope}
    (hid : start.store.scopes[id]? = some scope) (hnone : id = start.scope → ∀ name, ¬binds name) :
    session.store.scopes[id]? = some scope := by
  obtain ⟨added, hadded, hbinds⟩ := h.scopes hid
  have hempty : added = [] := by
    refine List.eq_nil_iff_forall_not_mem.mpr fun binding hbinding => ?_
    obtain ⟨hcurrent, hname⟩ := hbinds binding hbinding
    exact hnone hcurrent binding.1 hname
  rw [hadded, hempty]
  rfl

theorem trans (h : Confined binds start middle) (h' : Confined binds middle session) :
    Confined binds start session := by
  refine ⟨h'.scope.trans h.scope, h'.depth.trans h.depth, h'.natives.trans h.natives,
    Nat.le_trans h.size h'.size, fun {id scope} hid => ?_⟩
  obtain ⟨added, hadded, hbinds⟩ := h.scopes hid
  obtain ⟨more, hmore, hbinds'⟩ := h'.scopes hadded
  refine ⟨more ++ added, by rw [hmore, List.append_assoc], fun binding hbinding => ?_⟩
  rcases List.mem_append.mp hbinding with hbinding | hbinding
  · have hcurrent := hbinds' binding hbinding
    exact ⟨hcurrent.1.trans h.scope, hcurrent.2⟩
  · exact hbinds binding hbinding

theorem set {name : String} (hname : binds name) (start : Session) (value : Value) :
    Confined binds start (start.set name value) := by
  refine ⟨rfl, rfl, rfl, by simp, fun {id scope} hid => ?_⟩
  rw [store_set, Store.scopes_set_getElem?]
  by_cases hcurrent : start.scope = id
  · refine ⟨[(name, value)], by simp [hcurrent, hid], fun binding hbinding => ?_⟩
    rw [List.mem_singleton.mp hbinding]
    exact ⟨hcurrent.symm, hname⟩
  · exact ⟨[], by simp [hcurrent, hid], by simp⟩

/-- A call that has come back to the scope of its caller adds no bindings to the scopes
there were before it. -/
theorem leave {f : Closure} (h : Confined binds (start.opened f) session)
    (allowed : String → Prop) :
    Confined allowed start (session.leave start.scope) := by
  have hsize := h.size
  refine ⟨rfl, ?_, h.natives, ?_, fun {id scope} hid => ?_⟩
  · have hdepth := h.depth
    simp only [opened] at hdepth
    simp [Session.leave, hdepth]
  · simp only [opened, Store.size_create] at hsize
    exact Nat.le_of_succ_le hsize
  · have hlt : id < start.store.size := (Array.getElem?_eq_some_iff.mp hid).1
    have hopened : (start.opened f).store.scopes[id]? = some scope := by
      simp only [opened, Store.scopes_create_getElem?]
      rw [if_neg (Nat.ne_of_lt hlt)]
      exact hid
    -- The body may only have added to its own scope, which is new.
    have hlast := h.unchanged hopened fun heq => absurd heq (Nat.ne_of_lt hlt)
    exact ⟨[], hlast, by simp⟩

end Confined

end Session

namespace Law

/-- Evaluation is confined, whatever the session and the values are. -/
def confined (binds : String → Prop) : Law where
  holds _ := True
  moves := Session.Confined binds
  fits _ _ := True
  binds := binds

theorem confined_kept (binds : String → Prop) : (confined binds).Kept where
  refl _ := .of_eq rfl rfl rfl rfl
  trans := .trans
  fits_mono _ _ := True.intro
  fits_plain _ := True.intro
  fits_element _ _ := True.intro
  fits_function _ _ _ _ := True.intro
  makeArray _ _ := ⟨True.intro, .of_eq rfl rfl rfl rfl, True.intro⟩
  print _ _ := ⟨True.intro, .of_eq rfl rfl rfl rfl, True.intro⟩
  observe _ _ := ⟨True.intro, .of_eq rfl rfl rfl rfl, True.intro⟩
  found _ _ := True.intro
  set _ hname _ := ⟨True.intro, .set hname _ _, True.intro⟩

/-- Calls are confined to new scopes, so it does not matter which names are allowed. -/
theorem confined_opens (binds : String → Prop) :
    (confined binds).Opens (confined fun _ => True) where
  binds _ := True.intro
  opened _ _ := ⟨True.intro, fun _ _ => True.intro⟩
  leave _ _ _ hbody := ⟨True.intro, .leave hbody binds, fun _ _ => True.intro⟩

theorem confined_keptBy (binds : String → Prop) (levels : Nat) :
    (confined binds).KeptBy (callWithin levels) :=
  keptBy_callWithin (fun _ _ => True) confined_kept confined_opens binds levels

/-- Binding parameters is confined to the scope of the call. -/
theorem enter_confined (session : Session) (f : Closure) (args : List Value) :
    (session.opened f).Confined (fun _ => True) (session.enter f args) :=
  ((confined_kept fun _ => True).enter (fun _ => True.intro) True.intro
    fun _ _ => True.intro).2.1

end Law

section Evaluations

variable (levels : Nat) (start : Session)

theorem Expr.eval_confined (e : Expr Nat) :
    start.Confined (· ∈ e.letNames) (Eval.last (e.eval (callWithin levels) start)) :=
  (Expr.eval_keeps (Law.confined_kept _) (Law.confined_keptBy _ levels) e
    (fun _ hname => hname) True.intro).last.2

theorem Item.eval_confined (item : Item Nat) :
    start.Confined (· ∈ item.letNames) (Eval.last (item.eval (callWithin levels) start)) :=
  (Item.eval_keeps (Law.confined_kept _) (Law.confined_keptBy _ levels) item
    (fun _ hname => hname) True.intro).last.2

theorem Expr.evalAll_confined (es : List (Expr Nat)) :
    start.Confined (· ∈ Expr.letNamesAll es)
      (Eval.last (Expr.evalAll (callWithin levels) es start)) :=
  (Expr.evalAll_keeps (Law.confined_kept _) (Law.confined_keptBy _ levels) es
    (fun _ hname => hname) True.intro).last.2

theorem Item.evalAll_confined (last : Option Value) (items : List (Item Nat)) :
    start.Confined (· ∈ Item.letNamesAll items)
      (Eval.last (Item.evalAll (callWithin levels) last items start)) :=
  (Item.evalAll_keeps (Law.confined_kept _) (Law.confined_keptBy _ levels) items last
    (fun _ hname => hname) True.intro fun _ _ => True.intro).last.2

theorem callWithin_confined (f : Closure) (args : List Value) :
    start.Confined (fun _ => False) (Eval.last (callWithin levels f args start)) :=
  (Law.confined_keptBy (fun _ => False) levels start f args True.intro True.intro
    fun _ _ => True.intro).last.2

theorem Routine.run_confined (routine : Routine) (args : List Value) :
    start.Confined (fun _ => False) (Eval.last (routine.run args start)) :=
  have hrun : (Law.confined fun _ => False).Outcome (fun _ _ => True) start
      (routine.run args start) :=
    (Law.confined_kept _).run routine True.intro fun _ _ => True.intro
  hrun.last.2

theorem Session.evaluate_confined (program : Program Nat) :
    start.Confined (· ∈ Item.letNamesAll program) (start.evaluate program).2 :=
  have hkept := Law.confined_kept (· ∈ Item.letNamesAll program)
  (hkept.evaluate (Law.confined_keptBy _ _) (fun _ _ => True.intro) program
    (fun _ hname => hname) True.intro).2.1

theorem Eval.ofExcept_confined {α : Type} (result : Except Fault α) :
    start.Confined (fun _ => False) (Eval.last (Eval.ofExcept result start)) := by
  cases result <;> exact .of_eq rfl rfl rfl rfl

theorem Session.call_confined (callee : Value) (args : List Value) :
    start.Confined (fun _ => False) (Eval.last (start.call callee args)) :=
  ((Law.confined_kept _).call (Law.confined_keptBy _ _) True.intro True.intro
    fun _ _ => True.intro).last.2

end Evaluations

namespace Session

/-- Of the scopes there were, the later session has changed the current one at most. It
has the same parent and every binding still, and only names of the list have another
binding there than before. -/
def WritesOnly (names : List String) (start session : Session) : Prop :=
  ∀ id scope, start.store.scopes[id]? = some scope →
    (id ≠ start.scope → session.store.scopes[id]? = some scope) ∧
    ∃ scope', session.store.scopes[id]? = some scope' ∧ scope'.parent = scope.parent ∧
      ∀ name, ((scope.bindings.lookup name).isSome → (scope'.bindings.lookup name).isSome) ∧
        (scope'.bindings.lookup name ≠ scope.bindings.lookup name → name ∈ names)

variable {start session : Session}

theorem Confined.writesOnly {names : List String} (h : start.Confined (· ∈ names) session) :
    start.WritesOnly names session := by
  intro id scope hid
  obtain ⟨added, hadded, hbinds⟩ := h.scopes hid
  refine ⟨fun hother => h.unchanged hid fun heq => absurd heq hother,
    ⟨scope.parent, added ++ scope.bindings⟩, hadded, rfl, fun name => ?_⟩
  · rw [List.lookup_append]
    constructor
    · intro hbound
      cases hadd : added.lookup name with
      | none => simpa using hbound
      | some value => simp
    · intro hdiffers
      by_cases hname : ∃ binding ∈ added, binding.1 = name
      · obtain ⟨binding, hbinding, rfl⟩ := hname
        exact (hbinds binding hbinding).2
      · have hnone : added.lookup name = none := by
          refine List.lookup_eq_none_iff.mpr fun binding hbinding => ?_
          simp only [bne_iff_ne]
          intro heq
          exact hname ⟨binding, hbinding, heq.symm⟩
        rw [hnone] at hdiffers
        exact absurd rfl hdiffers

/-- What is confined without any name allowed leaves the scopes there were as they were. -/
theorem Confined.getElem?_eq (h : start.Confined (fun _ => False) session) {id : ScopeId}
    (hid : id < start.store.size) : session.store.scopes[id]? = start.store.scopes[id]? := by
  have hscope : start.store.scopes[id]? = some start.store.scopes[id] :=
    Array.getElem?_eq_getElem hid
  rw [hscope]
  exact h.unchanged hscope fun _ _ hname => hname

/-- Evaluation writes the current scope only, and there the names that the code binds
outside its function literals, whether it ends with a value, a fault or a return. A call,
of whatever value and from wherever, changes no scope there was. -/
theorem evaluation_writesOnly (start : Session) (levels : Nat) :
    (∀ e : Expr Nat,
      start.WritesOnly e.letNames (Eval.last (e.eval (callWithin levels) start))) ∧
    (∀ (last : Option Value) (items : List (Item Nat)),
      start.WritesOnly (Item.letNamesAll items)
        (Eval.last (Item.evalAll (callWithin levels) last items start))) ∧
    (∀ (f : Closure) (args : List Value), ∀ id < start.store.size,
      (Eval.last (callWithin levels f args start)).store.scopes[id]? =
        start.store.scopes[id]?) ∧
    (∀ (callee : Value) (args : List Value), ∀ id < start.store.size,
      (Eval.last (start.call callee args)).store.scopes[id]? = start.store.scopes[id]?) := by
  refine ⟨fun e => ?_, fun last items => ?_, fun f args id hid => ?_, fun callee args id hid => ?_⟩
  · exact (Expr.eval_confined levels start e).writesOnly
  · exact (Item.evalAll_confined levels start last items).writesOnly
  · exact (callWithin_confined levels start f args).getElem?_eq hid
  · exact (call_confined start callee args).getElem?_eq hid

end Session

end Scriptlet
