import Scriptlet.Value

/-!
# Scopes

A store holds scopes, numbered in order of creation. A scope binds names and may
have a parent; a name that it does not bind itself is looked up there. Binding a
name writes one scope only and hides what the parents bind to it.
-/

namespace Scriptlet

/-- A scope: its parent, and its bindings with the latest first. -/
structure Scope where
  parent : Option ScopeId
  bindings : List (String × Value)

/-- All scopes made so far. -/
structure Store where
  scopes : Array Scope

/-- What looking up a name found. -/
structure Lookup where
  value? : Option Value
  /-- How many times the search went on to a parent. -/
  hops : Nat

namespace Store

def empty : Store := ⟨#[]⟩

/-- The number of the next scope to be made. -/
def size (store : Store) : Nat := store.scopes.size

/-- A new scope without bindings. -/
def create (store : Store) (parent : Option ScopeId) : ScopeId × Store :=
  (store.size, ⟨store.scopes.push ⟨parent, []⟩⟩)

/-- Binds a name in one scope. -/
def set (store : Store) (id : ScopeId) (name : String) (value : Value) : Store :=
  ⟨store.scopes.modify id fun scope =>
    { scope with bindings := (name, value) :: scope.bindings }⟩

/-- Gives a scope another parent, or none. -/
def setParent (store : Store) (id : ScopeId) (parent : Option ScopeId) : Store :=
  ⟨store.scopes.modify id fun scope => { scope with parent := parent }⟩

@[simp]
theorem size_create (store : Store) (parent : Option ScopeId) :
    (store.create parent).2.size = store.size + 1 := by
  simp [create, size]

@[simp]
theorem size_set (store : Store) (id : ScopeId) (name : String) (value : Value) :
    (store.set id name value).size = store.size := by
  simp [set, size]

@[simp]
theorem size_setParent (store : Store) (id : ScopeId) (parent : Option ScopeId) :
    (store.setParent id parent).size = store.size := by
  simp [setParent, size]

/-- A new scope is the last, and the others stay as they are. -/
theorem scopes_create_getElem? (store : Store) (parent : Option ScopeId) (id : ScopeId) :
    (store.create parent).2.scopes[id]? =
      if id = store.size then some ⟨parent, []⟩ else store.scopes[id]? := by
  simp only [create, size, Array.getElem?_push]
  rfl

/-- Binding a name changes one scope. -/
theorem scopes_set_getElem? (store : Store) (id : ScopeId) (name : String) (value : Value)
    (other : ScopeId) :
    (store.set id name value).scopes[other]? =
      if id = other then
        store.scopes[other]?.map fun scope =>
          { scope with bindings := (name, value) :: scope.bindings }
      else store.scopes[other]? := by
  simp [set, Array.getElem?_modify]

/-- Giving a scope another parent changes that scope. -/
theorem scopes_setParent_getElem? (store : Store) (id : ScopeId) (parent : Option ScopeId)
    (other : ScopeId) :
    (store.setParent id parent).scopes[other]? =
      if id = other then store.scopes[other]?.map fun scope => { scope with parent := parent }
      else store.scopes[other]? := by
  simp [setParent, Array.getElem?_modify]

/-- Searches a scope and its parents, so many scopes at most. -/
def searchWithin (store : Store) (name : String) : Nat → ScopeId → Lookup
  | 0, _ => ⟨none, 0⟩
  | limit + 1, id =>
      match store.scopes[id]? with
      | none => ⟨none, 0⟩
      | some scope =>
          match scope.bindings.lookup name, scope.parent with
          | some value, _ => ⟨some value, 0⟩
          | none, none => ⟨none, 0⟩
          | none, some parent =>
              let found := searchWithin store name limit parent
              ⟨found.value?, found.hops + 1⟩

/-- Looks a name up from a scope outwards. Without cycles of parents there are
no more scopes to search than the store has. -/
def search (store : Store) (id : ScopeId) (name : String) : Lookup :=
  store.searchWithin name store.size id

/-- The value of a name as seen from a scope. -/
def get? (store : Store) (id : ScopeId) (name : String) : Option Value :=
  (store.search id name).value?

end Store

end Scriptlet
