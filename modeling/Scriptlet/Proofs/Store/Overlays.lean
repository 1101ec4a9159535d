import Mathlib.Data.Fintype.EquivFin
import Mathlib.Data.List.Perm.Subperm
import Mathlib.Logic.Relation
import Scriptlet.Proofs.Session.Chain

/-!
# Scopes as overlays

Scopes are made, written to and given other parents in any order, and a parent may be younger
than its child. What a name means in a scope then depends on two things only: on the latest
write of the name to each scope, and on the parents as they are now. A look-up takes the first
scope on the chain of parents to which the name was ever written. Where parents do not run in
circles every chain ends, and so does every look-up. Main result:
`Store.History.overlays`.
-/

namespace Scriptlet

namespace Store

/-- Looking a name up scope by scope, for as long as it takes. -/
inductive LooksUp (store : Store) (name : String) : ScopeId → Option Value → Prop where
  | here {id : ScopeId} {scope : Scope} {value : Value} (hid : store.scopes[id]? = some scope)
      (hvalue : scope.bindings.lookup name = some value) : LooksUp store name id (some value)
  | outside {id parent : ScopeId} {scope : Scope} {value? : Option Value}
      (hid : store.scopes[id]? = some scope) (hvalue : scope.bindings.lookup name = none)
      (hparent : scope.parent = some parent) (h : LooksUp store name parent value?) :
      LooksUp store name id value?
  | nowhere {id : ScopeId} {scope : Scope} (hid : store.scopes[id]? = some scope)
      (hvalue : scope.bindings.lookup name = none) (hparent : scope.parent = none) :
      LooksUp store name id none

/-- There is one thing at most to find. -/
theorem LooksUp.unique {store : Store} {name : String} {id : ScopeId}
    {value? value?' : Option Value} (h : store.LooksUp name id value?)
    (h' : store.LooksUp name id value?') : value? = value?' := by
  induction h with
  | here hid hvalue => cases h' <;> grind
  | outside hid hvalue hparent _ ih => cases h' <;> grind
  | nowhere hid hvalue hparent => cases h' <;> grind

/-- What a scope itself binds a name to. -/
def bound? (store : Store) (name : String) (id : ScopeId) : Option Value :=
  store.scopes[id]?.bind fun scope => scope.bindings.lookup name

theorem bound?_eq {store : Store} {id : ScopeId} {scope : Scope}
    (hid : store.scopes[id]? = some scope) (name : String) :
    store.bound? name id = scope.bindings.lookup name := by
  rw [bound?, hid, Option.bind_some]

/-- One step of a search: a scope comes before its parent. -/
theorem searchWithin_succ {store : Store} {id : ScopeId} {scope : Scope}
    (hid : store.scopes[id]? = some scope) (name : String) (limit : Nat) :
    (store.searchWithin name (limit + 1) id).value? =
      (store.bound? name id).or
        (scope.parent.bind fun parent => (store.searchWithin name limit parent).value?) := by
  rw [bound?_eq hid]
  simp only [searchWithin, hid]
  cases scope.bindings.lookup name with
  | some value => rfl
  | none => cases scope.parent <;> rfl

namespace Chain

variable {store : Store} {id : ScopeId} {ids : List ScopeId}

/-- A look-up ends on a chain, with what the first scope binds that binds the name. -/
theorem looksUp (h : store.Chain id ids) (name : String) :
    store.LooksUp name id (ids.findSome? (store.bound? name)) := by
  induction h with
  | @outermost id scope hid hparent =>
      rw [List.findSome?_cons, bound?_eq hid]
      cases hvalue : scope.bindings.lookup name with
      | some value => exact .here hid hvalue
      | none => exact .nowhere hid hvalue hparent
  | @inside id parent scope ids hid hparent _ ih =>
      rw [List.findSome?_cons, bound?_eq hid]
      cases hvalue : scope.bindings.lookup name with
      | some value => exact .here hid hvalue
      | none => exact .outside hid hvalue hparent ih

/-- So does a search that may visit as many scopes as there are on the chain. -/
theorem searchWithin_eq (h : store.Chain id ids) (name : String) {limit : Nat}
    (hlimit : ids.length ≤ limit) :
    (store.searchWithin name limit id).value? = ids.findSome? (store.bound? name) := by
  induction h generalizing limit with
  | outermost hid hparent =>
      obtain ⟨limit, rfl⟩ := Nat.exists_eq_add_one_of_ne_zero (Nat.ne_of_gt hlimit)
      rw [searchWithin_succ hid, hparent, List.findSome?_cons]
      cases store.bound? name _ <;> rfl
  | inside hid hparent _ ih =>
      obtain ⟨limit, rfl⟩ := Nat.exists_eq_add_one_of_ne_zero (Nat.ne_zero_of_lt hlimit)
      rw [searchWithin_succ hid, hparent, Option.bind_some, ih (Nat.le_of_succ_le_succ hlimit),
        List.findSome?_cons]
      cases store.bound? name _ <;> rfl

/-- From a scope on a chain on, the chain is the chain of that scope. -/
theorem of_mem (h : store.Chain id ids) {other : ScopeId} (hmem : other ∈ ids) :
    ∃ ids', store.Chain other ids' ∧ ids' <:+ ids := by
  induction h with
  | outermost hid hparent =>
      rw [List.mem_singleton.mp hmem]
      exact ⟨_, .outermost hid hparent, List.suffix_rfl⟩
  | inside hid hparent hchain ih =>
      rcases List.mem_cons.mp hmem with rfl | hmem
      · exact ⟨_, .inside hid hparent hchain, List.suffix_rfl⟩
      · obtain ⟨ids', hother, hsuffix⟩ := ih hmem
        exact ⟨ids', hother, hsuffix.trans (List.suffix_cons _ _)⟩

/-- A chain that ends passes no scope twice. -/
theorem nodup (h : store.Chain id ids) : ids.Nodup := by
  induction h with
  | outermost => exact List.nodup_singleton _
  | @inside id parent scope ids hid hparent hchain ih =>
      refine List.nodup_cons.mpr ⟨fun hmem => ?_, ih⟩
      -- Otherwise the chain of the scope would be a part of what is behind it.
      obtain ⟨ids', hother, hsuffix⟩ := hchain.of_mem hmem
      rw [← (Chain.inside hid hparent hchain).unique hother] at hsuffix
      exact Nat.not_succ_le_self _ hsuffix.length_le

/-- A chain has no more scopes than there are. -/
theorem length_le (h : store.Chain id ids) : ids.length ≤ store.size := by
  have hsubset : ids ⊆ List.range store.size :=
    fun other hother => List.mem_range.mpr (h.lt_size other hother)
  simpa using (List.subperm_of_subset h.nodup hsubset).length_le

/-- What a name means in a scope that has a chain. -/
theorem get?_eq (h : store.Chain id ids) (name : String) :
    store.get? id name = ids.findSome? (store.bound? name) :=
  h.searchWithin_eq name h.length_le

end Chain

/-- What is done to scopes, the latest last. So many scopes have been made, and only they can
be written to or be parents. -/
inductive History : Nat → Type where
  | start : History 0
  /-- A new scope, inside another one or not. -/
  | create {size : Nat} (history : History size) (parent : Option (Fin size)) :
      History (size + 1)
  | set {size : Nat} (history : History size) (id : Fin size) (name : String) (value : Value) :
      History size
  | setParent {size : Nat} (history : History size) (id : Fin size) (parent : Option (Fin size)) :
      History size

/-- From one scope on, each the parent of the one before, up to a scope without a parent. -/
inductive Outwards (parent? : ScopeId → Option ScopeId) : ScopeId → List ScopeId → Prop where
  | outermost {id : ScopeId} (h : parent? id = none) : Outwards parent? id [id]
  | inside {id parent : ScopeId} {ids : List ScopeId} (h : parent? id = some parent)
      (hmore : Outwards parent? parent ids) : Outwards parent? id (id :: ids)

/-- A chain is made by the parents of the scopes on it. -/
theorem Outwards.congr {parent? parent?' : ScopeId → Option ScopeId} {id : ScopeId}
    {ids : List ScopeId} (h : Outwards parent? id ids)
    (hsame : ∀ on ∈ ids, parent?' on = parent? on) :
    Outwards parent?' id ids := by
  induction h with
  | outermost hparent => exact .outermost ((hsame _ List.mem_cons_self).trans hparent)
  | inside hparent _ ih =>
      exact .inside ((hsame _ List.mem_cons_self).trans hparent)
        (ih fun on hon => hsame on (List.mem_cons_of_mem _ hon))

/-- What is found first depends on the scopes that are searched. -/
theorem findSome?_congr {ids : List ScopeId} {latest? latest?' : ScopeId → Option Value}
    (hsame : ∀ on ∈ ids, latest?' on = latest? on) :
    ids.findSome? latest?' = ids.findSome? latest? := by
  induction ids with
  | nil => rfl
  | cons on ids ih =>
      rw [List.findSome?_cons, List.findSome?_cons, hsame on List.mem_cons_self,
        ih fun on hon => hsame on (List.mem_cons_of_mem _ hon)]

namespace History

/-- The scopes after all that was done. -/
def store : {size : Nat} → History size → Store
  | _, .start => .empty
  | _, .create history parent => (history.store.create (parent.map Fin.val)).2
  | _, .set history id name value => history.store.set id name value
  | _, .setParent history id parent => history.store.setParent id (parent.map Fin.val)

/-- The value that a name was last given on a scope itself. -/
def latest? (name : String) : {size : Nat} → History size → ScopeId → Option Value
  | _, .start, _ => none
  | _, .create history _, id => history.latest? name id
  | _, .set history written name' value, id =>
      if written = id ∧ name' = name then some value else history.latest? name id
  | _, .setParent history _ _, id => history.latest? name id

/-- The parent that a scope was last given. -/
def parent? : {size : Nat} → History size → ScopeId → Option ScopeId
  | _, .start, _ => none
  | size + 1, .create history parent, id =>
      if id = size then parent.map Fin.val else history.parent? id
  | _, .set history _ _ _, id => history.parent? id
  | _, .setParent history moved parent, id =>
      if moved = id then parent.map Fin.val else history.parent? id

variable {size : Nat}

/-- No scope is around itself. -/
def Acyclic (history : History size) : Prop :=
  ∀ id, ¬Relation.TransGen (fun child parent => history.parent? child = some parent) id id

theorem size_store (history : History size) : history.store.size = size := by
  induction history with
  | start => rfl
  | create history parent ih => rw [store, size_create, ih]
  | set history id name value ih => rw [store, size_set, ih]
  | setParent history id parent ih => rw [store, size_setParent, ih]

theorem latest?_set_of_not (history : History size) {written : Fin size} {name name' : String}
    {id : ScopeId} (h : ¬(written.val = id ∧ name' = name)) (value : Value) :
    (history.set written name' value).latest? name id = history.latest? name id :=
  if_neg h

theorem parent?_setParent_of_ne (history : History size) {moved : Fin size} {id : ScopeId}
    (h : moved.val ≠ id) (parent : Option (Fin size)) :
    (history.setParent moved parent).parent? id = history.parent? id :=
  if_neg h

/-- Nothing was written to scopes that are not there yet. -/
theorem latest?_of_le (history : History size) (name : String) {id : ScopeId} (hid : size ≤ id) :
    history.latest? name id = none := by
  induction history with
  | start => rfl
  | create history parent ih => exact ih (Nat.le_of_succ_le hid)
  | set history written name' value ih =>
      have hne : written.val ≠ id := Nat.ne_of_lt (written.isLt.trans_le hid)
      rw [history.latest?_set_of_not fun h => hne h.1, ih hid]
  | setParent history moved parent ih => exact ih hid

/-- Parents are scopes that are there. -/
theorem parent?_lt (history : History size) {id parent : ScopeId}
    (h : history.parent? id = some parent) : parent < size := by
  have hlast {size : Nat} {last : Option (Fin size)} (h : last.map Fin.val = some parent) :
      parent < size := by
    obtain ⟨last, -, rfl⟩ := Option.map_eq_some_iff.mp h
    exact last.isLt
  induction history with
  | start => nomatch h
  | create history last ih =>
      rw [parent?] at h
      split at h
      · exact (hlast h).trans (Nat.lt_succ_self _)
      · exact (ih h).trans (Nat.lt_succ_self _)
  | set history written name value ih => exact ih h
  | setParent history moved last ih =>
      rw [parent?] at h
      split at h
      · exact hlast h
      · exact ih h

/-- A scope has the parent that it was last given, and of each name the value that was last
written to it. -/
theorem scopes_store (history : History size) {id : ScopeId} (hid : id < size) :
    ∃ bindings, history.store.scopes[id]? = some ⟨history.parent? id, bindings⟩ ∧
      ∀ name, bindings.lookup name = history.latest? name id := by
  induction history with
  | start => exact absurd hid (Nat.not_lt_zero id)
  | @create size history parent ih =>
      rw [store, scopes_create_getElem?, size_store, parent?]
      split
      case isTrue hnew => exact ⟨[], rfl, fun name => (history.latest?_of_le name hnew.ge).symm⟩
      case isFalse hold => exact ih (Nat.lt_of_le_of_ne (Nat.le_of_lt_succ hid) hold)
  | set history written name value ih =>
      obtain ⟨bindings, hscope, hlookup⟩ := ih hid
      rw [store, scopes_set_getElem?, hscope]
      split
      case isTrue hwritten =>
        refine ⟨(name, value) :: bindings, rfl, fun name' => ?_⟩
        rw [List.lookup_cons, latest?, hlookup]
        grind
      case isFalse hother =>
        refine ⟨bindings, rfl, fun name' => ?_⟩
        rw [history.latest?_set_of_not (fun h => hother h.1), hlookup]
  | setParent history moved parent ih =>
      obtain ⟨bindings, hscope, hlookup⟩ := ih hid
      rw [store, scopes_setParent_getElem?, hscope, parent?]
      split
      case isTrue => exact ⟨bindings, rfl, hlookup⟩
      case isFalse => exact ⟨bindings, rfl, hlookup⟩

theorem bound?_store (history : History size) (name : String) (id : ScopeId) :
    history.store.bound? name id = history.latest? name id := by
  by_cases hid : id < size
  · obtain ⟨bindings, hscope, hlookup⟩ := history.scopes_store hid
    rw [bound?_eq hscope, hlookup]
  · have hnone : history.store.scopes[id]? = none :=
      Array.getElem?_eq_none (history.size_store.trans_le (Nat.not_lt.mp hid))
    rw [bound?, hnone, history.latest?_of_le name (Nat.not_lt.mp hid), Option.bind_none]

/-- The parents that scopes were last given make their chains. -/
theorem chain (history : History size) {id : ScopeId} {ids : List ScopeId}
    (h : Outwards history.parent? id ids) (hid : id < size) : history.store.Chain id ids := by
  induction h with
  | outermost hparent =>
      obtain ⟨bindings, hscope, -⟩ := history.scopes_store hid
      exact .outermost hscope hparent
  | inside hparent _ ih =>
      obtain ⟨bindings, hscope, -⟩ := history.scopes_store hid
      exact .inside hscope hparent (ih (history.parent?_lt hparent))

/-- A scope has one chain at most. -/
theorem outwards_unique (history : History size) {id : ScopeId} {ids ids' : List ScopeId}
    (h : Outwards history.parent? id ids) (h' : Outwards history.parent? id ids')
    (hid : id < size) : ids = ids' :=
  (history.chain h hid).unique (history.chain h' hid)

/-- Without a scope around itself every chain comes to an end, as there are only so many
scopes. -/
theorem Acyclic.outwards {history : History size} (h : history.Acyclic) (id : Fin size) :
    ∃ ids, Outwards history.parent? id ids := by
  let Around (outer inner : Fin size) : Prop :=
    Relation.TransGen (fun child parent => history.parent? child = some parent) inner.val outer
  have htrans : IsTrans (Fin size) Around := ⟨fun _ _ _ houter hinner => hinner.trans houter⟩
  have hirrefl : Std.Irrefl Around := ⟨fun inner => h inner⟩
  induction id using (Finite.wellFounded_of_trans_of_irrefl Around).induction with
  | _ id ih =>
      cases hparent : history.parent? id with
      | none => exact ⟨_, .outermost hparent⟩
      | some parent =>
          obtain ⟨ids, hmore⟩ := ih ⟨parent, history.parent?_lt hparent⟩ (.single hparent)
          exact ⟨_, .inside hparent hmore⟩

/-- After a history, looking a name up in a scope ends, with this and nothing else. -/
def Shows (history : History size) (id : ScopeId) (name : String) (value? : Option Value) : Prop :=
  (∀ found?, history.store.LooksUp name id found? ↔ found? = value?) ∧
    history.store.get? id name = value?

/-- A look-up takes the first scope outwards to which the name was ever written. -/
theorem shows_of_outwards (history : History size) {id : ScopeId} {ids : List ScopeId}
    (h : Outwards history.parent? id ids) (hid : id < size) (name : String) :
    history.Shows id name (ids.findSome? (history.latest? name)) := by
  have hchain := history.chain h hid
  have hbound : history.store.bound? name = history.latest? name :=
    funext fun id => history.bound?_store name id
  have hlookup := hchain.looksUp name
  rw [hbound] at hlookup
  refine ⟨fun found? => ⟨fun hfound => hfound.unique hlookup, fun heq => heq ▸ hlookup⟩, ?_⟩
  rw [hchain.get?_eq, hbound]

variable {history later : History size} {id : ScopeId} {ids : List ScopeId}

/-- No scope is around itself if the parents of scopes go down in some order. -/
theorem Acyclic.of_rank (rank : ScopeId → Nat)
    (h : ∀ child parent, history.parent? child = some parent → rank parent < rank child) :
    history.Acyclic := by
  intro id hcycle
  have hdown {inner outer : ScopeId}
      (haround : Relation.TransGen
        (fun child parent => history.parent? child = some parent) inner outer) :
      rank outer < rank inner := by
    induction haround with
    | single hparent => exact h _ _ hparent
    | tail _ hparent ih => exact (h _ _ hparent).trans ih
  exact Nat.lt_irrefl _ (hdown hcycle)

/-- A name shows the same value as before where the chain is the same and the same is found on
it. -/
theorem Shows.of_findSome? {name : String} {value? : Option Value}
    (h : history.Shows id name value?) (hid : id < size) (hbefore : Outwards history.parent? id ids)
    (hlater : Outwards later.parent? id ids)
    (hsame : ids.findSome? (later.latest? name) = ids.findSome? (history.latest? name)) :
    later.Shows id name value? := by
  have hvalue : value? = ids.findSome? (history.latest? name) :=
    h.2.symm.trans (history.shows_of_outwards hbefore hid name).2
  rw [hvalue, ← hsame]
  exact later.shows_of_outwards hlater hid name

/-- A look-up in a scope ends, however parents were given on the way here, if they do not run in
circles now. It takes the value that the name was last given on the first scope outwards on which
it was given any. So writing to a scope or giving it another parent makes no difference to scopes
that do not have it on their chain, nor does writing a name to what other names mean or to
what the name means in scopes with a nearer one that binds it. -/
theorem overlays (history : History size) (hacyclic : history.Acyclic) (id : Fin size) :
    ∃ chain, Outwards history.parent? id chain ∧
      (∀ name, history.Shows id name (chain.findSome? (history.latest? name))) ∧
      ∀ (other : Fin size) (name : String) (value? : Option Value),
        history.Shows id name value? →
          (other.val ∉ chain →
            (∀ written value, (history.set other written value).Shows id name value?) ∧
              ∀ parent, (history.setParent other parent).Shows id name value?) ∧
          (∀ written ≠ name, ∀ value,
            (history.set other written value).Shows id name value?) ∧
          ∀ before after, chain = before ++ other.val :: after →
            (∃ nearer ∈ before, history.latest? name nearer ≠ none) →
              ∀ value, (history.set other name value).Shows id name value? := by
  obtain ⟨chain, houtwards⟩ := hacyclic.outwards id
  refine ⟨chain, houtwards, history.shows_of_outwards houtwards id.isLt,
    fun other name value? hshows => ⟨fun hother => ⟨fun written value => ?_, fun parent => ?_⟩,
      fun written hwritten value => ?_, fun before after hsplit hnearer value => ?_⟩⟩
  · refine hshows.of_findSome? id.isLt houtwards houtwards (findSome?_congr fun on hon => ?_)
    exact history.latest?_set_of_not (fun h => hother (h.1 ▸ hon)) value
  · refine hshows.of_findSome? id.isLt houtwards (houtwards.congr fun on hon => ?_) rfl
    exact history.parent?_setParent_of_ne (fun h => hother (h ▸ hon)) parent
  · refine hshows.of_findSome? id.isLt houtwards houtwards (findSome?_congr fun on _ => ?_)
    exact history.latest?_set_of_not (fun h => hwritten h.2) value
  · refine hshows.of_findSome? id.isLt houtwards houtwards ?_
    -- The search stops before it comes to the scope that is written to.
    have hnodup : (before ++ other.val :: after).Nodup :=
      hsplit ▸ (history.chain houtwards id.isLt).nodup
    have hother : other.val ∉ before := fun hmem =>
      (List.nodup_append.mp hnodup).2.2 _ hmem _ List.mem_cons_self rfl
    have hbefore : before.findSome? ((history.set other name value).latest? name) =
        before.findSome? (history.latest? name) :=
      findSome?_congr fun on hon =>
        history.latest?_set_of_not (fun h => hother (h.1 ▸ hon)) value
    have hfound : (before.findSome? (history.latest? name)).isSome := by
      obtain ⟨nearer, hmem, hbinds⟩ := hnearer
      exact List.findSome?_isSome_iff.mpr ⟨nearer, hmem, Option.isSome_iff_ne_none.mpr hbinds⟩
    rw [hsplit, List.findSome?_append, List.findSome?_append, hbefore,
      Option.or_of_isSome hfound, Option.or_of_isSome hfound]

/-- Three scopes, each inside the one before, whose outermost is then put inside the innermost
and the one between out into the open. -/
def turned : History 3 :=
  (((((start.create none).create (some 0)).create (some 1)).set 1 "x" (.bool true)).setParent 0
    (some 2)).setParent 1 none

theorem overlays_turned : turned.Acyclic ∧ turned.Shows 0 "x" (some (.bool true)) ∧
    (turned.set 2 "x" .null).Shows 1 "x" (some (.bool true)) := by
  have hacyclic : turned.Acyclic := by
    refine .of_rank (fun id => if id = 0 then 2 else if id = 2 then 1 else 0)
      fun child parent hparent => ?_
    simp only [turned, parent?] at hparent
    grind
  obtain ⟨chain, hchain, hinside, -⟩ := overlays turned hacyclic 0
  obtain ⟨chain', hchain', houtside, hsame⟩ := overlays turned hacyclic 1
  obtain rfl : chain = [0, 2, 1] :=
    turned.outwards_unique hchain (.inside rfl (.inside rfl (.outermost rfl))) (by decide)
  obtain rfl : chain' = [1] := turned.outwards_unique hchain' (.outermost rfl) (by decide)
  have hother : (2 : Fin 3).val ∉ [1] := by decide
  exact ⟨hacyclic, hinside "x", ((hsame 2 "x" _ (houtside "x")).1 hother).1 "x" .null⟩

end History

end Store

end Scriptlet
