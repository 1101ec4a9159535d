import Scriptlet.Proofs.Session.Pairing
import Scriptlet.Proofs.Session.WellFormed

/-!
# Other numbers for scopes and arrays

Scopes and arrays are numbered in order of their making, so the numbers depend on what was
made before. They matter for identity only: where a session has other numbers for its
scopes and arrays, different ones for different ones, evaluation does the same as before
and what it makes there has the numbers that correspond.
-/

namespace Scriptlet

/-- Other numbers for scopes and arrays. -/
structure Renaming where
  scope : ScopeId → ScopeId
  birth : Nat → Nat
  scope_injective : Function.Injective scope
  birth_injective : Function.Injective birth

def Closure.rename (ρ : Renaming) (f : Closure) : Closure :=
  { f with scope := ρ.scope f.scope }

namespace Value

mutual

/-- The same value with other numbers for the scopes and arrays in it. -/
def rename (ρ : Renaming) : Value → Value
  | .array birth elements => .array (ρ.birth birth) (renameEach ρ elements)
  | .function f => .function (f.rename ρ)
  | .int n => .int n
  | .text s => .text s
  | .bool b => .bool b
  | .null => .null
  | .native f => .native f
  | .error message => .error message

def renameEach (ρ : Renaming) : List Value → List Value
  | [] => []
  | value :: values => rename ρ value :: renameEach ρ values

end

variable (ρ : Renaming)

@[simp]
theorem renameEach_eq_map (values : List Value) : renameEach ρ values = values.map (rename ρ) := by
  induction values with
  | nil => simp [renameEach]
  | cons value values ih => simp [renameEach, ih]

@[simp]
theorem rename_array (birth : Nat) (elements : List Value) :
    (Value.array birth elements).rename ρ =
      .array (ρ.birth birth) (elements.map (rename ρ)) := by
  simp [rename]

@[simp]
theorem rename_function (f : Closure) : (Value.function f).rename ρ = .function (f.rename ρ) := by
  simp [rename]

theorem IsPlain.rename_eq {value : Value} (h : value.IsPlain) : value.rename ρ = value := by
  cases h <;> simp [rename]

/-- Identity does not depend on the numbers. -/
theorem identical_rename (value other : Value) :
    (value.rename ρ).identical (other.rename ρ) = value.identical other := by
  cases value <;> cases other <;>
    simp [rename, identical, Closure.rename, Closure.same, ρ.scope_injective.beq_eq,
      ρ.birth_injective.beq_eq]

end Value

/-- The same scope with other numbers. -/
def Scope.rename (ρ : Renaming) (scope : Scope) : Scope where
  parent := scope.parent.map ρ.scope
  bindings := scope.bindings.map fun binding => (binding.1, binding.2.rename ρ)

theorem Scope.lookup_rename (ρ : Renaming) (scope : Scope) (name : String) :
    (scope.rename ρ).bindings.lookup name = (scope.bindings.lookup name).map (Value.rename ρ) := by
  unfold Scope.rename
  induction scope.bindings with
  | nil => rfl
  | cons binding bindings ih =>
      obtain ⟨other, value⟩ := binding
      simp only [List.map_cons, List.lookup_cons]
      cases name == other with
      | true => rfl
      | false => exact ih

namespace Renaming

variable {ρ : Renaming} {session session' : Session}

/-- What one session has the other has too, with other numbers, and what is made next gets
the numbers that correspond. -/
structure Sends (ρ : Renaming) (session session' : Session) : Prop where
  wellFormed : session.WellFormed
  size : session.store.size ≤ session'.store.size
  nextScope (i : Nat) : ρ.scope (session.store.size + i) = session'.store.size + i
  nextBirth (i : Nat) : ρ.birth (session.births + i) = session'.births + i
  scope : session'.scope = ρ.scope session.scope
  natives : session'.natives = session.natives
  scopes (id : ScopeId) :
    session'.store.scopes[ρ.scope id]? = session.store.scopes[id]?.map (Scope.rename ρ)

namespace Sends

/-- Looking a name up finds what corresponds, after as many steps. -/
theorem searchWithin (h : ρ.Sends session session') (name : String) {limit limit' : Nat}
    {id : ScopeId} (hlimit : id < limit) (hlimit' : id < limit') :
    session'.store.searchWithin name limit' (ρ.scope id) =
      ⟨(session.store.searchWithin name limit id).value?.map (Value.rename ρ),
        (session.store.searchWithin name limit id).hops⟩ := by
  -- The limits are not reached, because a search goes to older and older scopes.
  induction limit generalizing id limit' with
  | zero => exact absurd hlimit (Nat.not_lt_zero id)
  | succ limit ih =>
      obtain ⟨limit', rfl⟩ := Nat.exists_eq_succ_of_ne_zero (Nat.ne_zero_of_lt hlimit')
      unfold Store.searchWithin
      rw [h.scopes id]
      cases hid : session.store.scopes[id]? with
      | none => rfl
      | some scope =>
          dsimp only [Option.map_some]
          rw [Scope.lookup_rename]
          cases scope.bindings.lookup name with
          | some value => rfl
          | none =>
              dsimp only [Option.map_none, Scope.rename]
              cases hparent : scope.parent with
              | none => rfl
              | some parent =>
                  have holder := h.wellFormed.parent hid hparent
                  have hfound := ih (Nat.lt_of_lt_of_le holder (Nat.le_of_lt_succ hlimit))
                    (Nat.lt_of_lt_of_le holder (Nat.le_of_lt_succ hlimit'))
                  dsimp only [Option.map_some]
                  rw [hfound]

theorem print (h : ρ.Sends session session') (text text' : String) :
    ρ.Sends (session.print text) (session'.print text') :=
  ⟨h.wellFormed.of_eq rfl rfl, h.size, h.nextScope, h.nextBirth, h.scope, h.natives, h.scopes⟩

theorem observe (h : ρ.Sends session session') (event event' : Event) :
    ρ.Sends (session.observe event) (session'.observe event') :=
  ⟨h.wellFormed.of_eq rfl rfl, h.size, h.nextScope, h.nextBirth, h.scope, h.natives, h.scopes⟩

theorem makeArray (h : ρ.Sends session session') (elements elements' : List Value) :
    ρ.Sends (session.makeArray elements).2 (session'.makeArray elements').2 where
  wellFormed := h.wellFormed.of_eq rfl rfl
  size := h.size
  nextScope := h.nextScope
  nextBirth i := by
    have hnext := h.nextBirth (1 + i)
    simpa only [Session.makeArray, ← Nat.add_assoc] using hnext
  scope := h.scope
  natives := h.natives
  scopes := h.scopes

theorem get (h : ρ.Sends session session') (name : String) :
    ρ.Sends (session.get name).2 (session'.get name).2 ∧
      (session'.get name).1 = (session.get name).1.map (Value.rename ρ) ∧
      ∀ value ∈ (session.get name).1, value.FitsIn session.store.size := by
  have hscope := h.wellFormed.scope
  have hfound := h.searchWithin name hscope (Nat.lt_of_lt_of_le hscope h.size)
  refine ⟨h.observe _ _, ?_, fun value hvalue => h.wellFormed.search hvalue⟩
  simp only [Session.get, Store.search, h.scope, hfound]

theorem set (h : ρ.Sends session session') (name : String) {value : Value}
    (hvalue : value.FitsIn session.store.size) :
    ρ.Sends (session.set name value) (session'.set name (value.rename ρ)) where
  wellFormed := h.wellFormed.set name hvalue
  size := by simpa using h.size
  nextScope := by simpa using h.nextScope
  nextBirth := h.nextBirth
  scope := h.scope
  natives := h.natives
  scopes id := by
    simp only [Session.store_set, Store.scopes_set_getElem?, h.scope, h.scopes id,
      ρ.scope_injective.eq_iff]
    split
    · cases session.store.scopes[id]? <;> rfl
    · rfl

theorem opened (h : ρ.Sends session session') {f : Closure}
    (hf : f.scope < session.store.size) :
    ρ.Sends (session.opened f) (session'.opened (f.rename ρ)) where
  wellFormed := h.wellFormed.opened hf
  size := by simpa [Session.opened] using h.size
  nextScope i := by
    have hnext := h.nextScope (1 + i)
    simpa only [Session.opened, Store.size_create, ← Nat.add_assoc] using hnext
  nextBirth := h.nextBirth
  scope := (h.nextScope 0).symm
  natives := h.natives
  scopes id := by
    have hnew : ρ.scope id = session'.store.size ↔ id = session.store.size := by
      rw [← Nat.add_zero session'.store.size, ← h.nextScope 0, ρ.scope_injective.eq_iff]
      rfl
    simp only [Session.opened, Store.scopes_create_getElem?, h.scopes id, hnew]
    split <;> rfl

theorem leave {last last' : Session} (h : ρ.Sends session session')
    (hlast : ρ.Sends last last') (hsize : session.store.size ≤ last.store.size) :
    ρ.Sends (last.leave session.scope) (last'.leave session'.scope) where
  wellFormed := hlast.wellFormed.leave (Nat.lt_of_lt_of_le h.wellFormed.scope hsize)
  size := hlast.size
  nextScope := hlast.nextScope
  nextBirth := hlast.nextBirth
  scope := h.scope
  natives := hlast.natives
  scopes := hlast.scopes

end Sends

/-- Whatever is printed in one session is printed in the other too, after what was printed
before. -/
def PrintsAlike (before before' : String) (session session' : Session) : Prop :=
  ∃ printed, session.output = before ++ printed ∧ session'.output = before' ++ printed

theorem PrintsAlike.print {before before' : String}
    (h : PrintsAlike before before' session session') (text : String) :
    PrintsAlike before before' (session.print text) (session'.print text) := by
  obtain ⟨printed, houtput, houtput'⟩ := h
  refine ⟨printed ++ text, ?_, ?_⟩
  · rw [← String.append_assoc, ← houtput]
    rfl
  · rw [← String.append_assoc, ← houtput']
    rfl

/-- A session with another that has other numbers. Both print the same, after what each
has printed before. -/
def pairing (ρ : Renaming) (before before' : String) : Pairing where
  holds session session' :=
    ρ.Sends session session' ∧ PrintsAlike before before' session session'
  moves start session := start.store.size ≤ session.store.size
  fits session value value' := value' = value.rename ρ ∧ value.FitsIn session.store.size

section Pairing

variable {before before' : String}

theorem pairing_fitsAll {values values' : List Value} :
    (ρ.pairing before before').fitsAll session values values' ↔
      values' = values.map (Value.rename ρ) ∧
        ∀ value ∈ values, value.FitsIn session.store.size := by
  constructor
  · intro h
    induction h with
    | nil => exact ⟨rfl, by simp⟩
    | cons hhead _ ih =>
        obtain ⟨rfl, hfits⟩ := hhead
        exact ⟨by rw [ih.1, List.map_cons], List.forall_mem_cons.mpr ⟨hfits, ih.2⟩⟩
  · rintro ⟨rfl, hfits⟩
    exact List.forall₂_map_right_iff.mpr
      (List.forall₂_same.mpr fun value hvalue => ⟨rfl, hfits value hvalue⟩)

theorem pairing_matches {value : Value} (h : value.FitsIn session.store.size) :
    value.Matches ((ρ.pairing before before').fits session) (value.rename ρ) := by
  cases h with
  | plain hplain =>
      rw [hplain.rename_eq]
      exact .plain hplain
  | error message =>
      rw [Value.rename]
      exact .error message
  | array helements =>
      rw [Value.rename_array]
      exact .array (pairing_fitsAll.mpr ⟨rfl, helements⟩)
  | function =>
      rw [Value.rename_function]
      exact .function rfl rfl

theorem pairing_step {last last' : Session} (hsends : ρ.Sends last last')
    (hprints : PrintsAlike before before' last last')
    (hsize : session.store.size ≤ last.store.size) :
    (ρ.pairing before before').Step session last last' :=
  ⟨⟨hsends, hprints⟩, hsize⟩

theorem pairing_kept (ρ : Renaming) (before before' : String) :
    (ρ.pairing before before').Kept where
  refl _ := Nat.le_refl _
  trans := Nat.le_trans
  fits_mono hmoves hvalue := ⟨hvalue.1, hvalue.2.mono hmoves⟩
  fits_plain hplain := ⟨(hplain.rename_eq ρ).symm, .plain hplain⟩
  fits_matches hvalue := by
    obtain ⟨rfl, hfits⟩ := hvalue
    exact pairing_matches hfits
  fits_identical hvalue hother := by
    rw [hvalue.1, hother.1]
    exact Value.identical_rename ρ _ _
  fits_function literal params body hholds _ := by
    refine ⟨?_, .function hholds.1.wellFormed.scope⟩
    rw [Value.rename_function, hholds.1.scope]
    rfl
  fits_names _ _ _ := True.intro
  natives hholds := hholds.1.natives
  makeArray {session session' elements elements'} hholds helements := by
    obtain ⟨rfl, hfits⟩ := pairing_fitsAll.mp helements
    have hsends := hholds.1.makeArray elements (elements.map (Value.rename ρ))
    refine .ok (pairing_step hsends hholds.2 (Nat.le_refl _)) ⟨?_, .array hfits⟩
    rw [Value.rename_array, ← Nat.add_zero session'.births, ← hholds.1.nextBirth 0]
    rfl
  print text hholds :=
    pairing_step (hholds.1.print text text) (hholds.2.print text) (Nat.le_refl _)
  observe event hholds := pairing_step (hholds.1.observe event event) hholds.2 (Nat.le_refl _)
  get {session session' name} hholds _ := by
    obtain ⟨hsends, hvalue, hfits⟩ := hholds.1.get name
    refine ⟨pairing_step hsends hholds.2 (Nat.le_refl _), ?_⟩
    rw [hvalue]
    cases hfound : (session.get name).1 with
    | none => exact .none
    | some value => exact .some ⟨rfl, hfits value hfound⟩
  set {session _ value _ name} hholds _ hvalue := by
    obtain ⟨rfl, hfits⟩ := hvalue
    have hsize := Store.size_set session.store session.scope name value
    exact pairing_step (hholds.1.set name hfits) hholds.2 (Nat.le_of_eq hsize.symm)
  opened {session session' f f'} hholds hf := by
    obtain ⟨hrename, hfits⟩ := hf
    rw [Value.rename_function] at hrename
    cases hrename
    exact pairing_step (hholds.1.opened hfits.of_function) hholds.2 (session.size_opened f)
  leave hholds hmoves hlast :=
    pairing_step (hholds.1.leave hlast.1 hmoves) hlast.2 (Nat.le_refl _)

end Pairing

end Renaming

end Scriptlet
