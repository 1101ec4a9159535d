import Scriptlet.Proofs.Session.Account

/-!
# Where functions and arrays were made

No node is evaluated twice in one scope: a body has a new scope for every call, a program has
a root of its own for every run, and on the way through a program no node comes twice. So the
function that a literal yields in a scope was made once, and every array has the number of
its own making. Evaluation with an account is shown to keep that, for all functions and arrays
at hand.
-/

namespace Scriptlet

/-- The evaluation of a node begins or ends. -/
inductive Stage where
  | begun | ended
  deriving DecidableEq

/-- A stage of the evaluation of a node in a scope. -/
structure Visit where
  stage : Stage
  scope : ScopeId
  node : Node
  deriving DecidableEq

namespace Happening

def visit? : Happening → Option Visit
  | .begins scope node _ => some ⟨.begun, scope, node⟩
  | .yields scope node _ _ => some ⟨.ended, scope, node⟩
  | .applies _ _ | .offers _ => none

/-- The node that is evaluated, with the expression that stands there. -/
def site? : Happening → Option (Node × Expr Nat)
  | .begins _ node e | .yields _ node e _ => some (node, e)
  | .applies _ _ | .offers _ => none

/-- A function literal makes a function of the scope that it is evaluated in; an array is
made by an array literal, by the two native bodies that answer with new ones, or by the
host. -/
inductive Makes : Happening → Value → Prop where
  | function {scope : ScopeId} {node : Node} {literal : Nat} {params : List String}
      {body : Program Nat} :
      Makes (.yields scope node (.fn literal params body)
        (.function ⟨literal, params, body, scope⟩)) (.function ⟨literal, params, body, scope⟩)
  | array {scope : ScopeId} {node : Node} {es : List (Expr Nat)} {birth : Nat}
      {elements : List Value} :
      Makes (.yields scope node (.array es) (.array birth elements)) (.array birth elements)
  | rest {birth : Nat} {elements : List Value} :
      Makes (.applies .rest (.array birth elements)) (.array birth elements)
  | push {birth : Nat} {elements : List Value} :
      Makes (.applies .push (.array birth elements)) (.array birth elements)
  | host {birth : Nat} {elements : List Value} :
      Makes (.offers (.array birth elements)) (.array birth elements)

/-- Two happenings do not make arrays with the same number. -/
def Apart (happening other : Happening) : Prop :=
  ∀ birth elements elements',
    happening.Makes (.array birth elements) → ¬other.Makes (.array birth elements')

end Happening

/-- Every function in a value, and every array, was made in the history. -/
inductive Value.Stems (history : List Happening) : Value → Prop where
  | plain {value : Value} (h : value.IsPlain) : Stems history value
  | error (message : String) : Stems history (.error message)
  | function {f : Closure} {happening : Happening} (hmem : happening ∈ history)
      (hmakes : happening.Makes (.function f)) : Stems history (.function f)
  | array {birth : Nat} {elements : List Value} {happening : Happening}
      (hmem : happening ∈ history) (hmakes : happening.Makes (.array birth elements))
      (helements : ∀ element ∈ elements, Stems history element) :
      Stems history (.array birth elements)

namespace Value.Stems

variable {history later : List Happening} {value : Value}

theorem mono (h : value.Stems history) (hlater : history ⊆ later) : value.Stems later := by
  induction h with
  | plain h => exact .plain h
  | error message => exact .error message
  | function hmem hmakes => exact .function (hlater hmem) hmakes
  | array hmem hmakes _ ih => exact .array (hlater hmem) hmakes ih

theorem element {birth : Nat} {elements : List Value} (h : Stems history (.array birth elements))
    (hvalue : value ∈ elements) : value.Stems history := by
  cases h with
  | plain h => cases h
  | array _ _ helements => exact helements value hvalue

theorem oneOf {args : List Value} (hargs : ∀ arg ∈ args, arg.Stems history)
    (h : value.OneOf args) : value.Stems history := by
  rcases h with hmem | ⟨birth, elements, harray, hmem⟩
  · exact hargs value hmem
  · exact (hargs _ harray).element hmem

theorem getD_null {value? : Option Value} (h : ∀ value ∈ value?, value.Stems history) :
    (value?.getD .null).Stems history := by
  cases value? with
  | none => exact .plain .null
  | some value => exact h value rfl

theorem made_function {f : Closure} (h : Stems history (.function f)) :
    ∃ happening ∈ history, happening.Makes (.function f) := by
  cases h with
  | plain h => cases h
  | function hmem hmakes => exact ⟨_, hmem, hmakes⟩

theorem made_array {birth : Nat} {elements : List Value}
    (h : Stems history (.array birth elements)) :
    ∃ happening ∈ history, happening.Makes (.array birth elements) := by
  cases h with
  | plain h => cases h
  | array hmem hmakes => exact ⟨_, hmem, hmakes⟩

end Value.Stems

namespace Session

/-- The later session has the same scopes, and binds no values but those there were and the
given ones. -/
structure Binding (more : List Value) (start session : Session) : Prop where
  scope : session.scope = start.scope
  size : session.store.size = start.store.size
  births : session.births = start.births
  binds {value : Value} : session.store.Binds value → value ∈ more ∨ start.store.Binds value

namespace Binding

variable {start session : Session} {more : List Value}

theorem of_store_eq (hstore : session.store = start.store) (hscope : session.scope = start.scope)
    (hbirths : session.births = start.births) : Binding [] start session :=
  ⟨hscope, congrArg Store.size hstore, hbirths, fun h => .inr (hstore ▸ h)⟩

theorem set (start : Session) (name : String) (value : Value) :
    Binding [value] start (start.set name value) where
  scope := rfl
  size := Store.size_set _ _ _ _
  births := rfl
  binds h := (Store.Binds.of_set h).imp_left List.mem_singleton.mpr

theorem trans {middle : Session} (h : Binding more start middle)
    (h' : Binding more middle session) : Binding more start session where
  scope := h'.scope.trans h.scope
  size := h'.size.trans h.size
  births := h'.births.trans h.births
  binds hvalue := (h'.binds hvalue).elim .inl h.binds

theorem mono {more' : List Value} (h : Binding more start session) (hmore : more ⊆ more') :
    Binding more' start session :=
  ⟨h.scope, h.size, h.births, fun hvalue => (h.binds hvalue).imp_left fun hmem => hmore hmem⟩

theorem refl (start : Session) : Binding more start start :=
  ⟨rfl, rfl, rfl, .inr⟩

/-- Steps that bind no other values do not, one after the other. -/
theorem foldl {α : Type} {step : Session → α → Session} (as : List α)
    (h : ∀ a ∈ as, ∀ session, Binding more session (step session a)) :
    Binding more start (as.foldl step start) := by
  induction as generalizing start with
  | nil => exact .refl start
  | cons a as ih =>
      have hfirst := h a List.mem_cons_self start
      exact hfirst.trans (ih fun b hb => h b (List.mem_cons_of_mem a hb))

theorem enter (start : Session) (f : Closure) (args : List Value) :
    Binding args (start.opened f) (start.enter f args) := by
  have hset : Binding args (start.opened f)
      ((f.params.zip args).foldl (fun session arg => session.set arg.1 arg.2)
        (start.opened f)) := by
    refine foldl _ fun arg harg session => (set session arg.1 arg.2).mono fun value hvalue => ?_
    rw [List.mem_singleton.mp hvalue]
    exact (List.of_mem_zip harg).2
  exact ⟨hset.scope, hset.size, hset.births, hset.binds⟩

theorem print (start : Session) (args : List Value) :
    Binding [] start
      (args.foldl (fun session arg => session.print (arg.render ++ "\n")) start) :=
  foldl args fun _ _ _ => .of_store_eq rfl rfl rfl

end Binding

end Session

namespace Account

/-- The stages of evaluations that have been visited. -/
def visits (account : Account) : List Visit :=
  account.history.filterMap Happening.visit?

def withSession (account : Account) (session : Session) : Account :=
  { account with session }

/-- One thing more has happened. -/
def noted (account : Account) (happening : Happening) : Account :=
  { account with history := account.history ++ [happening] }

/-- No stage of an evaluation is visited twice in a scope, arrays have numbers of their own,
and whatever is at hand was made in the history. -/
structure Traces (sites : List (Node × Expr Nat)) (account : Account) : Prop where
  scope : account.session.scope < account.session.store.size
  visits : account.visits.Nodup
  visited : ∀ visit ∈ account.visits, visit.scope < account.session.store.size
  sites : ∀ happening ∈ account.history, ∀ site ∈ happening.site?, site ∈ sites
  begun {scope : ScopeId} {node : Node} {e : Expr Nat} {value : Value} :
    .yields scope node e value ∈ account.history → .begins scope node e ∈ account.history
  apart : account.history.Pairwise Happening.Apart
  births {happening : Happening} {birth : Nat} {elements : List Value} :
    happening ∈ account.history → happening.Makes (.array birth elements) →
      birth < account.session.births
  yielded {scope : ScopeId} {node : Node} {e : Expr Nat} {value : Value} :
    .yields scope node e value ∈ account.history → value.Stems account.history
  bound {value : Value} : account.session.store.Binds value → value.Stems account.history

/-- The happening comes to a value that may be noted: if it makes an array, then a new one. -/
structure Allows (account : Account) (happening : Happening) (value : Value) : Prop where
  births {birth : Nat} {elements : List Value} : happening.Makes (.array birth elements) →
    birth < account.session.births ∧
      ∀ other ∈ account.history, ∀ elements', ¬other.Makes (.array birth elements')
  stems : value.Stems (account.history ++ [happening])

/-- In the current scope no node of the region has been visited. -/
def Free (region : Node → Prop) (account : Account) : Prop :=
  ∀ visit ∈ account.visits, visit.scope = account.session.scope → ¬region visit.node

/-- More has happened: in the current scope at nodes of the region, and in new scopes. -/
structure Grows (region : Node → Prop) (start account : Account) : Prop where
  scope : account.session.scope = start.session.scope
  size : start.session.store.size ≤ account.session.store.size
  sources : account.sources = start.sources
  history : start.history ⊆ account.history
  visits : ∀ visit ∈ account.visits, visit ∈ start.visits ∨
    (visit.scope = start.session.scope ∧ region visit.node) ∨
      start.session.store.size ≤ visit.scope

variable {sites : List (Node × Expr Nat)} {region part : Node → Prop} {start account : Account}

@[simp]
theorem visits_noted (account : Account) (happening : Happening) :
    (account.noted happening).visits = account.visits ++ happening.visit?.toList := by
  simp only [visits, noted, List.filterMap_append, List.filterMap_cons, List.filterMap_nil]
  cases happening.visit? <;> rfl

theorem Traces.withSession {session : Session} (h : account.Traces sites)
    (hscope : session.scope < session.store.size)
    (hsize : account.session.store.size ≤ session.store.size)
    (hbirths : account.session.births ≤ session.births)
    (hbound : ∀ value, session.store.Binds value → value.Stems account.history) :
    (account.withSession session).Traces sites where
  scope := hscope
  visits := h.visits
  visited visit hvisit := Nat.lt_of_lt_of_le (h.visited visit hvisit) hsize
  sites := h.sites
  begun := h.begun
  apart := h.apart
  births hmem hmakes := Nat.lt_of_lt_of_le (h.births hmem hmakes) hbirths
  yielded := h.yielded
  bound := hbound _

theorem Traces.binding {session : Session} {more : List Value} (h : account.Traces sites)
    (hbinding : Session.Binding more account.session session)
    (hmore : ∀ value ∈ more, value.Stems account.history) :
    (account.withSession session).Traces sites := by
  refine h.withSession ?_ (Nat.le_of_eq hbinding.size.symm) (Nat.le_of_eq hbinding.births.symm)
    fun value hvalue => ?_
  · rw [hbinding.scope, hbinding.size]
    exact h.scope
  · exact (hbinding.binds hvalue).elim (hmore value) h.bound

theorem Traces.makeArray (h : account.Traces sites) (elements : List Value) :
    (account.withSession (account.session.makeArray elements).2).Traces sites :=
  h.withSession h.scope (Nat.le_refl _) (Nat.le_succ _) fun _ => h.bound

theorem Traces.noted {happening : Happening} {value : Value} (h : account.Traces sites)
    (hvisit : ∀ visit ∈ happening.visit?,
      visit ∉ account.visits ∧ visit.scope < account.session.store.size)
    (hsite : ∀ site ∈ happening.site?, site ∈ sites)
    (hbegun : ∀ {scope node e out}, happening = .yields scope node e out →
      .begins scope node e ∈ account.history ∧ out = value)
    (hallows : account.Allows happening value) : (account.noted happening).Traces sites where
  scope := h.scope
  visits := by
    rw [visits_noted, List.nodup_append]
    refine ⟨h.visits, ?_, fun visit hmem visit' hvisit' heq => ?_⟩
    · cases happening.visit? <;> simp
    · exact (hvisit visit' (Option.mem_toList.mp hvisit')).1 (heq ▸ hmem)
  visited visit hmem := by
    rw [visits_noted] at hmem
    rcases List.mem_append.mp hmem with hmem | hmem
    · exact h.visited visit hmem
    · exact (hvisit visit (Option.mem_toList.mp hmem)).2
  sites := List.forall_mem_append.mpr ⟨h.sites, by simpa using hsite⟩
  begun hmem := by
    rcases List.mem_append.mp hmem with hmem | hmem
    · exact List.mem_append_left _ (h.begun hmem)
    · exact List.mem_append_left _ (hbegun (List.mem_singleton.mp hmem).symm).1
  apart := by
    refine List.pairwise_append.mpr ⟨h.apart, List.pairwise_singleton _ _, ?_⟩
    intro other hother _ heq birth elements elements' hmakes hmakes'
    rw [List.mem_singleton.mp heq] at hmakes'
    exact (hallows.births hmakes').2 other hother elements hmakes
  births hmem hmakes := by
    rcases List.mem_append.mp hmem with hmem | hmem
    · exact h.births hmem hmakes
    · rw [List.mem_singleton.mp hmem] at hmakes
      exact (hallows.births hmakes).1
  yielded hmem := by
    rcases List.mem_append.mp hmem with hmem | hmem
    · exact (h.yielded hmem).mono (List.subset_append_left _ _)
    · rw [(hbegun (List.mem_singleton.mp hmem).symm).2]
      exact hallows.stems
  bound hvalue := (h.bound hvalue).mono (List.subset_append_left _ _)

theorem Allows.of_stems {happening : Happening} {value : Value}
    (hmakes : ∀ made, ¬happening.Makes made) (h : value.Stems account.history) :
    account.Allows happening value :=
  ⟨fun hmade => absurd hmade (hmakes _), h.mono (List.subset_append_left _ _)⟩

/-- An array that was just made is new. -/
theorem Traces.allows_array {happening : Happening} {elements : List Value}
    (h : account.Traces sites)
    (hmakes : happening.Makes (.array account.session.births elements))
    (hmade : ∀ made, happening.Makes made → made = .array account.session.births elements)
    (helements : ∀ element ∈ elements, element.Stems account.history) :
    (account.withSession (account.session.makeArray elements).2).Allows happening
      (.array account.session.births elements) where
  births hother := by
    cases hmade _ hother
    exact ⟨Nat.lt_succ_self _, fun other hmem _ hmakes' =>
      absurd (h.births hmem hmakes') (Nat.lt_irrefl _)⟩
  stems := .array (List.mem_append_right _ List.mem_cons_self) hmakes fun element helement =>
    (helements element helement).mono (List.subset_append_left _ _)

theorem Free.mono (h : account.Free region) (hpart : ∀ node, part node → region node) :
    account.Free part :=
  fun visit hvisit hscope hnode => h visit hvisit hscope (hpart _ hnode)

/-- What has happened elsewhere leaves a region free. -/
theorem Free.after (h : start.Free region) (hstart : start.Traces sites)
    (hgrows : Grows part start account) (hdisjoint : ∀ node, part node → ¬region node) :
    account.Free region := by
  intro visit hvisit hscope
  rw [hgrows.scope] at hscope
  rcases hgrows.visits visit hvisit with hvisit | ⟨_, hpart⟩ | hsize
  · exact h visit hvisit hscope
  · exact hdisjoint _ hpart
  · exact absurd (hscope ▸ hstart.scope) (Nat.not_lt_of_le hsize)

namespace Grows

variable {middle : Account}

theorem refl (start : Account) : Grows region start start :=
  ⟨rfl, Nat.le_refl _, rfl, List.Subset.refl _, fun _ => .inl⟩

theorem trans (h : Grows region start middle) (h' : Grows region middle account) :
    Grows region start account where
  scope := h'.scope.trans h.scope
  size := Nat.le_trans h.size h'.size
  sources := h'.sources.trans h.sources
  history := List.Subset.trans h.history h'.history
  visits visit hvisit := by
    rcases h'.visits visit hvisit with hvisit | ⟨hscope, hnode⟩ | hsize
    · exact h.visits visit hvisit
    · exact .inr (.inl ⟨hscope.trans h.scope, hnode⟩)
    · exact .inr (.inr (Nat.le_trans h.size hsize))

theorem mono (h : Grows part start account) (hpart : ∀ node, part node → region node) :
    Grows region start account :=
  ⟨h.scope, h.size, h.sources, h.history, fun visit hvisit =>
    (h.visits visit hvisit).imp_right (Or.imp_left (And.imp_right (hpart _)))⟩

theorem withSession {session : Session} (hscope : session.scope = start.session.scope)
    (hsize : start.session.store.size ≤ session.store.size) :
    Grows region start (start.withSession session) :=
  ⟨hscope, hsize, rfl, List.Subset.refl _, fun _ => .inl⟩

theorem noted {happening : Happening}
    (h : ∀ visit ∈ happening.visit?, visit.scope = start.session.scope ∧ region visit.node) :
    Grows region start (start.noted happening) where
  scope := rfl
  size := Nat.le_refl _
  sources := rfl
  history := List.subset_append_left _ _
  visits visit hvisit := by
    rw [visits_noted] at hvisit
    rcases List.mem_append.mp hvisit with hvisit | hvisit
    · exact .inl hvisit
    · exact .inr (.inl (h visit (Option.mem_toList.mp hvisit)))

end Grows

end Account

end Scriptlet
