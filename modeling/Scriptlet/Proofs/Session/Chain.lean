import Scriptlet.Proofs.Session.Frame

/-!
# Chains of scopes

A scope with the scopes around it, from the inside out. A scope has one chain at most.
What happens to a session later adds scopes and bindings but leaves parents alone, so the
chains there are stay as they are.
-/

namespace Scriptlet

namespace Store

/-- A scope and the scopes around it, up to one that has no parent. -/
inductive Chain (store : Store) : ScopeId → List ScopeId → Prop where
  | outermost {id : ScopeId} {scope : Scope} (hid : store.scopes[id]? = some scope)
      (hparent : scope.parent = none) : Chain store id [id]
  | inside {id parent : ScopeId} {scope : Scope} {ids : List ScopeId}
      (hid : store.scopes[id]? = some scope) (hparent : scope.parent = some parent)
      (hchain : Chain store parent ids) : Chain store id (id :: ids)

/-- The chain of a scope has so many scopes. -/
def ChainLength (store : Store) (id : ScopeId) (length : Nat) : Prop :=
  ∃ ids, store.Chain id ids ∧ ids.length = length

/-- Every scope has a chain, which visits no scope twice and ends in the first. -/
def Rooted (store : Store) : Prop :=
  ∀ id < store.size, ∃ ids, store.Chain id ids ∧ ids.Nodup ∧ ids.getLast? = some 0

/-- The scopes there were are still there, with the same parents. -/
def KeepsParents (store later : Store) : Prop :=
  ∀ (id : ScopeId) (scope : Scope), store.scopes[id]? = some scope →
    ∃ scope', later.scopes[id]? = some scope' ∧ scope'.parent = scope.parent

variable {store later : Store} {id : ScopeId} {ids ids' : List ScopeId}

theorem Chain.unique (h : store.Chain id ids) (h' : store.Chain id ids') : ids = ids' := by
  induction h generalizing ids' with
  | outermost hid hparent =>
      cases h' with
      | outermost => rfl
      | inside hid' hparent' =>
          cases hid.symm.trans hid'
          cases hparent.symm.trans hparent'
  | inside hid hparent _ ih =>
      cases h' with
      | outermost hid' hparent' =>
          cases hid.symm.trans hid'
          cases hparent.symm.trans hparent'
      | inside hid' hparent' hchain' =>
          cases hid.symm.trans hid'
          cases hparent.symm.trans hparent'
          rw [ih hchain']

theorem Chain.lt_size (h : store.Chain id ids) : ∀ other ∈ ids, other < store.size := by
  induction h with
  | outermost hid =>
      intro other hother
      rw [List.mem_singleton.mp hother]
      exact (Array.getElem?_eq_some_iff.mp hid).1
  | inside hid _ _ ih =>
      intro other hother
      rcases List.mem_cons.mp hother with rfl | hother
      · exact (Array.getElem?_eq_some_iff.mp hid).1
      · exact ih other hother

theorem Chain.mono (hkeeps : store.KeepsParents later) (h : store.Chain id ids) :
    later.Chain id ids := by
  induction h with
  | outermost hid hparent =>
      obtain ⟨scope', hid', hparent'⟩ := hkeeps _ _ hid
      exact .outermost hid' (hparent'.trans hparent)
  | inside hid hparent _ ih =>
      obtain ⟨scope', hid', hparent'⟩ := hkeeps _ _ hid
      exact .inside hid' (hparent'.trans hparent) ih

theorem Chain.mem_self (h : store.Chain id ids) : id ∈ ids := by
  cases h <;> exact List.mem_cons_self

/-- A search goes on no further than the chain does. -/
theorem Chain.hops_lt (h : store.Chain id ids) (name : String) (limit : Nat) :
    (store.searchWithin name limit id).hops < ids.length := by
  induction h generalizing limit with
  | @outermost id scope hid hparent =>
      cases limit with
      | zero => exact Nat.zero_lt_one
      | succ limit =>
          simp only [searchWithin, hid, hparent]
          cases scope.bindings.lookup name <;> exact Nat.zero_lt_one
  | @inside id parent scope ids hid hparent _ ih =>
      cases limit with
      | zero => exact Nat.zero_lt_succ _
      | succ limit =>
          simp only [searchWithin, hid, hparent]
          cases scope.bindings.lookup name with
          | some value => exact Nat.zero_lt_succ _
          | none => exact Nat.succ_lt_succ (ih limit)

namespace ChainLength

variable {length length' : Nat}

theorem mono (hkeeps : store.KeepsParents later) (h : store.ChainLength id length) :
    later.ChainLength id length := by
  obtain ⟨ids, hchain, hlength⟩ := h
  exact ⟨ids, hchain.mono hkeeps, hlength⟩

theorem lt_size (h : store.ChainLength id length) : id < store.size := by
  obtain ⟨ids, hchain, _⟩ := h
  exact hchain.lt_size id hchain.mem_self

theorem pos (h : store.ChainLength id length) : 0 < length := by
  obtain ⟨ids, hchain, rfl⟩ := h
  cases hchain <;> exact Nat.zero_lt_succ _

/-- The chain of the parent is shorter by one scope. -/
theorem parent {scope : Scope} {parent : ScopeId} (h : store.ChainLength id (length + 1))
    (hid : store.scopes[id]? = some scope) (hparent : scope.parent = some parent) :
    store.ChainLength parent length := by
  obtain ⟨ids, hchain, hlength⟩ := h
  cases hchain with
  | outermost hid' hparent' =>
      cases hid.symm.trans hid'
      cases hparent.symm.trans hparent'
  | inside hid' hparent' hchain =>
      cases hid.symm.trans hid'
      cases hparent.symm.trans hparent'
      exact ⟨_, hchain, Nat.succ.inj hlength⟩

end ChainLength

theorem KeepsParents.refl (store : Store) : store.KeepsParents store :=
  fun _ _ hid => ⟨_, hid, rfl⟩

theorem KeepsParents.set (store : Store) (id : ScopeId) (name : String) (value : Value) :
    store.KeepsParents (store.set id name value) := by
  intro other scope hother
  rw [scopes_set_getElem?]
  by_cases heq : id = other
  · exact ⟨⟨scope.parent, (name, value) :: scope.bindings⟩, by simp [heq, hother], rfl⟩
  · exact ⟨scope, by simp [heq, hother], rfl⟩

theorem KeepsParents.create (store : Store) (parent : Option ScopeId) :
    store.KeepsParents (store.create parent).2 := by
  intro other scope hother
  have hlt : other < store.size := (Array.getElem?_eq_some_iff.mp hother).1
  exact ⟨scope, by rw [scopes_create_getElem?, if_neg (Nat.ne_of_lt hlt), hother], rfl⟩

theorem KeepsParents.trans {middle : Store} (h : store.KeepsParents middle)
    (h' : middle.KeepsParents later) : store.KeepsParents later := by
  intro id scope hid
  obtain ⟨scope', hid', hparent⟩ := h _ _ hid
  obtain ⟨scope'', hid'', hparent'⟩ := h' _ _ hid'
  exact ⟨scope'', hid'', hparent'.trans hparent⟩

/-- A scope made inside another has one scope more around it. -/
theorem Chain.create (h : store.Chain id ids) :
    (store.create (some id)).2.Chain store.size (store.size :: ids) := by
  have hnew : (store.create (some id)).2.scopes[store.size]? = some ⟨some id, []⟩ := by
    rw [scopes_create_getElem?, if_pos rfl]
  exact .inside hnew rfl (h.mono (.create store (some id)))

theorem ChainLength.create {length : Nat} (h : store.ChainLength id length) :
    (store.create (some id)).2.ChainLength store.size (length + 1) := by
  obtain ⟨ids, hchain, rfl⟩ := h
  exact ⟨_, hchain.create, rfl⟩

theorem Rooted.set (h : store.Rooted) (id : ScopeId) (name : String) (value : Value) :
    (store.set id name value).Rooted := by
  intro other hother
  rw [size_set] at hother
  obtain ⟨ids, hchain, hends⟩ := h other hother
  exact ⟨ids, hchain.mono (.set store id name value), hends⟩

theorem Rooted.create (h : store.Rooted) (hid : id < store.size) :
    (store.create (some id)).2.Rooted := by
  intro other hother
  rw [size_create] at hother
  rcases Nat.lt_succ_iff_lt_or_eq.mp hother with hold | rfl
  · obtain ⟨ids, hchain, hends⟩ := h other hold
    exact ⟨ids, hchain.mono (.create store (some id)), hends⟩
  · obtain ⟨ids, hchain, hnodup, hlast⟩ := h id hid
    refine ⟨store.size :: ids, hchain.create, List.nodup_cons.mpr ⟨fun hmem => ?_, hnodup⟩, ?_⟩
    · exact Nat.lt_irrefl _ (hchain.lt_size _ hmem)
    · cases hchain <;> simpa using hlast

end Store

theorem Session.Confined.keepsParents {binds : String → Prop} {start session : Session}
    (h : start.Confined binds session) : start.store.KeepsParents session.store := by
  intro id scope hid
  obtain ⟨added, hadded, _⟩ := h.scopes hid
  exact ⟨_, hadded, rfl⟩

end Scriptlet
