import Scriptlet.Proofs.Program.Nesting
import Scriptlet.Proofs.Session.Bracketing
import Scriptlet.Proofs.Session.Chain

/-!
# Code runs as deep as it stands

Code that stands inside so many function literals is evaluated in a scope that has as
many scopes around it. The number of calls in progress has nothing to do with it: a call
opens its scope inside the one that the function was made in. Here every step of the
machine is shown to keep this, for the code at hand, for what waits in the frames, and for
every function bound anywhere.
-/

namespace Scriptlet

/-- The expressions that stand in the sources, each with the number of function literals
around it. -/
def sourceParts (sources : List (Program Nat)) : List (Nat × Expr Nat) :=
  sources.flatMap (Item.partsAll 0)

/-- A function comes from a literal among the sites, and the chain of its scope is longer
by one than the literal stands deep. -/
def Closure.Mirrors (sites : List (Nat × Expr Nat)) (store : Store) (f : Closure) : Prop :=
  ∃ depth, (depth, .fn f.literal f.params f.body) ∈ sites ∧
    Item.partsAll (depth + 1) f.body ⊆ sites ∧ store.ChainLength f.scope (depth + 1)

/-- Every function in a value mirrors its literal. -/
def Value.Mirrors (sites : List (Nat × Expr Nat)) (store : Store) (value : Value) : Prop :=
  value.Every (Closure.Mirrors sites store)

variable {sites more : List (Nat × Expr Nat)} {store later : Store}

theorem Closure.Mirrors.mono {f : Closure} (h : f.Mirrors sites store) (hparts : sites ⊆ more)
    (hkeeps : store.KeepsParents later) : f.Mirrors more later := by
  obtain ⟨depth, hliteral, hbody, hscope⟩ := h
  exact ⟨depth, hparts hliteral, fun _ hpart => hparts (hbody hpart), hscope.mono hkeeps⟩

theorem Value.Mirrors.mono {value : Value} (h : value.Mirrors sites store) (hparts : sites ⊆ more)
    (hkeeps : store.KeepsParents later) : value.Mirrors more later :=
  Every.mono (fun _ hf => hf.mono hparts hkeeps) h

theorem Value.Mirrors.getD_null {value? : Option Value}
    (h : ∀ value ∈ value?.toList, value.Mirrors sites store) :
    (value?.getD .null).Mirrors sites store := by
  cases value? with
  | none => exact .plain .null
  | some value => exact h value List.mem_cons_self

theorem Value.Mirrors.oneOf {args : List Value} {value : Value}
    (hargs : ∀ arg ∈ args, arg.Mirrors sites store) (h : value.OneOf args) :
    value.Mirrors sites store := by
  rcases h with hmem | ⟨birth, elements, harray, hmem⟩
  · exact hargs value hmem
  · exact (hargs _ harray).element hmem

namespace Session

/-- The scopes of a session form chains, and every function bound in one mirrors its
literal. -/
structure Lexical (sites : List (Nat × Expr Nat)) (session : Session) : Prop where
  rooted : session.store.Rooted
  bound {id : ScopeId} {scope : Scope} {name : String} {value : Value} :
    session.store.scopes[id]? = some scope → (name, value) ∈ scope.bindings →
      value.Mirrors sites session.store

namespace Lexical

variable {session other : Session}

theorem of_eq (h : session.Lexical sites) (hstore : other.store = session.store) :
    other.Lexical sites := by
  constructor
  · rw [hstore]
    exact h.rooted
  · rw [hstore]
    exact h.bound

theorem mono (h : session.Lexical sites) (hparts : sites ⊆ more) : session.Lexical more :=
  ⟨h.rooted, fun hid hmem => (h.bound hid hmem).mono hparts (.refl _)⟩

theorem set (h : session.Lexical sites) (name : String) {value : Value}
    (hvalue : value.Mirrors sites session.store) : (session.set name value).Lexical sites := by
  have hkeeps : session.store.KeepsParents (session.set name value).store := .set _ _ _ _
  constructor
  · exact h.rooted.set _ _ _
  · intro id scope name' value' hid hmem
    rw [store_set, Store.scopes_set_getElem?] at hid
    by_cases hcurrent : session.scope = id
    · rw [if_pos hcurrent, Option.map_eq_some_iff] at hid
      obtain ⟨before, hbefore, rfl⟩ := hid
      rcases List.mem_cons.mp hmem with heq | hmem
      · cases heq
        exact hvalue.mono (List.Subset.refl _) hkeeps
      · exact (h.bound hbefore hmem).mono (List.Subset.refl _) hkeeps
    · rw [if_neg hcurrent] at hid
      exact (h.bound hid hmem).mono (List.Subset.refl _) hkeeps

theorem opened (h : session.Lexical sites) {f : Closure} (hf : f.Mirrors sites session.store) :
    (session.opened f).Lexical sites := by
  obtain ⟨_, _, _, hscope⟩ := hf
  constructor
  · exact h.rooted.create hscope.lt_size
  · intro id scope name value hid hmem
    simp only [Session.opened, Store.scopes_create_getElem?] at hid
    split at hid
    · cases hid
      cases hmem
    · exact (h.bound hid hmem).mono (List.Subset.refl _) (.create _ _)

/-- Binding parameters keeps what is bound as it should be. -/
theorem bindAll (args : List (String × Value)) (h : session.Lexical sites)
    (hargs : ∀ arg ∈ args, arg.2.Mirrors sites session.store) :
    (args.foldl (fun session arg => session.set arg.1 arg.2) session).Lexical sites := by
  induction args generalizing session with
  | nil => exact h
  | cons arg args ih =>
      refine ih (h.set arg.1 (hargs arg List.mem_cons_self)) fun other hother => ?_
      have hvalue := hargs other (List.mem_cons_of_mem arg hother)
      exact hvalue.mono (List.Subset.refl _) (.set _ _ _ _)

theorem enter (h : session.Lexical sites) {f : Closure} {args : List Value}
    (hf : f.Mirrors sites session.store) (hargs : ∀ arg ∈ args, arg.Mirrors sites session.store) :
    (session.enter f args).Lexical sites := by
  have hbound := (h.opened hf).bindAll (f.params.zip args) fun arg harg =>
    (hargs arg.2 (List.of_mem_zip harg).2).mono (List.Subset.refl _) (.create _ _)
  exact hbound.of_eq rfl

end Lexical

/-- The scope of a call has one scope more around it than the function was made in. -/
theorem enter_chainLength (session : Session) (f : Closure) (args : List Value) {length : Nat}
    (h : session.store.ChainLength f.scope length) :
    session.store.KeepsParents (session.enter f args).store ∧
      (session.enter f args).store.ChainLength (session.enter f args).scope (length + 1) := by
  have hconfined := Law.enter_confined session f args
  have hcreate : session.store.KeepsParents (session.opened f).store := .create _ _
  refine ⟨hcreate.trans hconfined.keepsParents, ?_⟩
  rw [hconfined.scope]
  exact h.create.mono hconfined.keepsParents

end Session

namespace Machine

/-- The expressions that stand in what is to be done next. -/
def Control.parts (depth : Nat) : Control → List (Nat × Expr Nat)
  | .expr e => e.parts depth
  | .exprs es => Expr.partsAll depth es
  | .item i => i.parts depth
  | .items _ is => Item.partsAll depth is
  | .lookup name _ _ => [(depth, .var name)]
  | .call _ _ | .value _ | .values _ | .ended _ | .unwinding _ => []

/-- The values that have come out last. -/
def Control.held : Control → List Value
  | .items last _ => last.toList
  | .call f args => .function f :: args
  | .value v => [v]
  | .values vs => vs
  | .ended last => last.toList
  | .unwinding (.returned v) => [v]
  | .unwinding (.fault _) | .expr _ | .exprs _ | .item _ | .lookup _ _ _ => []

/-- The expressions that a frame has still to evaluate. -/
def Frame.parts (depth : Nat) : Frame → List (Nat × Expr Nat)
  | .right _ e => e.parts depth
  | .choice yes no => Item.partsAll depth yes ++ Item.partsElse depth no
  | .arguments args => Expr.partsAll depth args
  | .position e => e.parts depth
  | .others es => Expr.partsAll depth es
  | .items is => Item.partsAll depth is
  | _ => []

/-- The values that a frame keeps. -/
def Frame.held : Frame → List Value
  | .binary left _ => [left]
  | .function f => [.function f]
  | .index base => [base]
  | .cons v => [v]
  | _ => []

/-- A body in progress, that of a program or of a function, and the number of function
literals it stands in. -/
structure Place where
  level : Nat
  body : Program Nat

/-- The expressions that stand in a body. -/
def Place.parts (place : Place) : List (Nat × Expr Nat) :=
  Item.partsAll place.level place.body

/-- What waits in the frames belongs to the bodies in progress: to the innermost one up to
the innermost call, and then to those of the callers. -/
inductive Stack (sites : List (Nat × Expr Nat)) (store : Store) :
    Place → List Place → List Frame → Prop where
  | nil (place : Place) : Stack sites store place [] []
  | frame {place : Place} {callers : List Place} {frame : Frame} {frames : List Frame}
      (hcaller : frame.isCaller = false) (hparts : frame.parts place.level ⊆ place.parts)
      (hvalues : ∀ value ∈ frame.held, value.Mirrors sites store)
      (hrest : Stack sites store place callers frames) :
      Stack sites store place callers (frame :: frames)
  | caller {place outer : Place} {callers : List Place} {scope : ScopeId} {frames : List Frame}
      (hbody : outer.parts ⊆ sites) (hscope : store.ChainLength scope (outer.level + 1))
      (hrest : Stack sites store outer callers frames) :
      Stack sites store place (outer :: callers) (.caller scope :: frames)

theorem Stack.mono {place : Place} {callers : List Place} {frames : List Frame}
    (h : Stack sites store place callers frames) (hkeeps : store.KeepsParents later) :
    Stack sites later place callers frames := by
  induction h with
  | nil place => exact .nil place
  | frame hcaller hparts hvalues _ ih =>
      exact .frame hcaller hparts
        (fun value hvalue => (hvalues value hvalue).mono (List.Subset.refl _) hkeeps) ih
  | caller hbody hscope _ ih => exact .caller hbody (hscope.mono hkeeps) ih

/-- The code at hand belongs to the body in progress, and the current scope has as many
scopes around it as the body has function literals; so it is, outwards, for the callers. A
look-up has visited what is not left of the chain. -/
structure Config.Lexical (sites : List (Nat × Expr Nat)) (place : Place) (callers : List Place)
    (config : Config) : Prop where
  session : config.session.Lexical sites
  scope : config.session.store.ChainLength config.session.scope (place.level + 1)
  body : place.parts ⊆ sites
  code : config.control.parts place.level ⊆ place.parts
  values : ∀ value ∈ config.control.held, value.Mirrors sites config.session.store
  lookup {name : String} {id : ScopeId} {hops : Nat} :
    config.control = .lookup name id hops →
      ∃ rest, config.session.store.ChainLength id rest ∧ hops + rest = place.level + 1
  frames : Stack sites config.session.store place callers config.frames

/-- What a step does to the bodies in progress: it stays within the innermost, enters the
body of a function, which stands one literal deeper than the function, or leaves for the
body of the caller. -/
inductive Config.Follows (sites : List (Nat × Expr Nat)) (place : Place) (callers : List Place)
    (config next : Config) : Prop where
  | within (hcallers : next.callers = config.callers) (h : next.Lexical sites place callers)
  | enter {f : Closure} {args : List Value} {depth : Nat} (hcall : config.control = .call f args)
      (hcallers : next.callers = config.callers + 1)
      (hliteral : (depth, .fn f.literal f.params f.body) ∈ sites)
      (h : next.Lexical sites ⟨depth + 1, f.body⟩ (place :: callers))
  | leave {outer : Place} {rest : List Place} (hstack : callers = outer :: rest)
      (hcallers : next.callers + 1 = config.callers) (h : next.Lexical sites outer rest)

section Steps

variable {place : Place} {callers : List Place} {control control' : Control}
variable {frames frames' : List Frame} {session session' : Session}

/-- A step that leaves the scopes alone. -/
theorem Config.Lexical.next (h : Config.Lexical sites place callers ⟨control, frames, session⟩)
    (hstore : session'.store = session.store) (hscope : session'.scope = session.scope)
    (hcode : control'.parts place.level ⊆ place.parts)
    (hvalues : ∀ value ∈ control'.held, value.Mirrors sites session.store)
    (hlookup : ∀ {name id hops}, control' = .lookup name id hops →
      ∃ rest, session.store.ChainLength id rest ∧ hops + rest = place.level + 1)
    (hframes : Stack sites session.store place callers frames') :
    Config.Lexical sites place callers ⟨control', frames', session'⟩ where
  session := h.session.of_eq hstore
  scope := by
    simp only [hstore, hscope]
    exact h.scope
  body := h.body
  code := hcode
  values := by
    simp only [hstore]
    exact hvalues
  lookup := by
    simp only [hstore]
    exact hlookup
  frames := by
    simp only [hstore]
    exact hframes

/-- A value that comes out. -/
theorem Config.Lexical.value (h : Config.Lexical sites place callers ⟨control, frames, session⟩)
    (hstore : session'.store = session.store) (hscope : session'.scope = session.scope)
    {value : Value} (hvalue : value.Mirrors sites session.store)
    (hframes : Stack sites session.store place callers frames') :
    Config.Lexical sites place callers ⟨.value value, frames', session'⟩ :=
  h.next hstore hscope (List.nil_subset _)
    (fun other hother => List.mem_singleton.mp hother ▸ hvalue) (by simp) hframes

theorem Config.Lexical.fault (h : Config.Lexical sites place callers ⟨control, frames, session⟩)
    (hstore : session'.store = session.store) (hscope : session'.scope = session.scope)
    (fault : Fault) (hframes : Stack sites session.store place callers frames') :
    Config.Lexical sites place callers ⟨.unwinding (.fault fault), frames', session'⟩ :=
  h.next hstore hscope (List.nil_subset _) (by simp [Control.held]) (by simp) hframes

/-- Code to be evaluated next. -/
theorem Config.Lexical.begin (h : Config.Lexical sites place callers ⟨control, frames, session⟩)
    (hcode : control'.parts place.level ⊆ place.parts) (hvalues : control'.held = [])
    (hlookup : ∀ {name id hops}, control' ≠ .lookup name id hops)
    (hframes : Stack sites session.store place callers frames') :
    Config.Lexical sites place callers ⟨control', frames', session⟩ :=
  h.next rfl rfl hcode (by simp [hvalues]) (fun heq => absurd heq hlookup) hframes

theorem lexical_beginExpr {e : Expr Nat}
    (h : Config.Lexical sites place callers ⟨.expr e, frames, session⟩) :
    (beginExpr frames session e).Lexical sites place callers := by
  have hcode := h.code
  have hframes := h.frames
  cases e with
  | var name =>
      refine h.next rfl rfl hcode (by simp [Control.held]) (fun heq => ?_) hframes
      cases heq
      exact ⟨place.level + 1, h.scope, Nat.zero_add _⟩
  | lit literal => exact h.value rfl rfl (.plain (Value.isPlain_ofLiteral literal)) hframes
  | unary op operand =>
      simp only [Control.parts, Expr.parts, List.cons_subset] at hcode
      exact h.begin hcode.2 rfl (by simp)
        (.frame rfl (List.nil_subset _) (by simp [Frame.held]) hframes)
  | binary left op right =>
      simp only [Control.parts, Expr.parts, List.cons_subset, List.append_subset] at hcode
      exact h.begin hcode.2.1 rfl (by simp) (.frame rfl hcode.2.2 (by simp [Frame.held]) hframes)
  | cond test yes no =>
      simp only [Control.parts, Expr.parts, List.cons_subset, List.append_subset] at hcode
      refine h.begin hcode.2.1 rfl (by simp) (.frame rfl ?_ (by simp [Frame.held]) hframes)
      exact List.append_subset.mpr hcode.2.2
  | fn literal params body =>
      simp only [Control.parts, Expr.parts, List.cons_subset] at hcode
      have hmirrors : Closure.Mirrors sites session.store ⟨literal, params, body, session.scope⟩ :=
        ⟨place.level, h.body hcode.1, fun _ hpart => h.body (hcode.2 hpart), h.scope⟩
      exact h.value rfl rfl (.function hmirrors) hframes
  | call callee args =>
      simp only [Control.parts, Expr.parts, List.cons_subset, List.append_subset] at hcode
      exact h.begin hcode.2.1 rfl (by simp) (.frame rfl hcode.2.2 (by simp [Frame.held]) hframes)
  | array elements =>
      simp only [Control.parts, Expr.parts, List.cons_subset] at hcode
      exact h.begin hcode.2 rfl (by simp)
        (.frame rfl (List.nil_subset _) (by simp [Frame.held]) hframes)
  | index base position =>
      simp only [Control.parts, Expr.parts, List.cons_subset, List.append_subset] at hcode
      exact h.begin hcode.2.1 rfl (by simp) (.frame rfl hcode.2.2 (by simp [Frame.held]) hframes)

theorem lexical_beginItem {item : Item Nat}
    (h : Config.Lexical sites place callers ⟨.item item, frames, session⟩) :
    (beginItem frames session item).Lexical sites place callers := by
  have hcode := h.code
  cases item with
  | expr | bind | ret =>
      exact h.begin hcode rfl (by simp)
        (.frame rfl (List.nil_subset _) (by simp [Frame.held]) h.frames)
  | block items => exact h.begin hcode rfl (by simp) h.frames

theorem Config.Lexical.observe (h : Config.Lexical sites place callers ⟨control, frames, session⟩)
    (event : Event) : Config.Lexical sites place callers ⟨control, frames, session.observe event⟩ :=
  ⟨h.session.of_eq rfl, h.scope, h.body, h.code, h.values, h.lookup, h.frames⟩

theorem lexical_unbound (h : Config.Lexical sites place callers ⟨control, frames, session⟩)
    (name : String) (hops : Nat) :
    (unbound name hops frames session).Lexical sites place callers := by
  have h := h.observe (.get name hops)
  unfold unbound
  dsimp only
  split
  · exact h.value rfl rfl (.plain (.native _)) h.frames
  · exact h.fault rfl rfl _ h.frames

/-- What a look-up finds mirrors its literals, because it is bound; and going on to the
parent shortens what is left of the chain. -/
theorem lexical_lookup {name : String} {id : ScopeId} {hops : Nat}
    (h : Config.Lexical sites place callers ⟨.lookup name id hops, frames, session⟩) :
    (lookup name id hops frames session).Lexical sites place callers := by
  unfold lookup
  cases hid : session.store.scopes[id]? with
  | none => exact lexical_unbound h name hops
  | some scope =>
      dsimp only
      cases hlookup : scope.bindings.lookup name with
      | some value =>
          obtain ⟨before, after, hbindings, _⟩ := List.lookup_eq_some_iff.mp hlookup
          have hmem : (name, value) ∈ scope.bindings := by simp [hbindings]
          have h := h.observe (.get name hops)
          exact h.value rfl rfl (h.session.bound hid hmem) h.frames
      | none =>
          cases hparent : scope.parent with
          | none => exact lexical_unbound h name hops
          | some parent =>
              refine h.next rfl rfl h.code (by simp [Control.held]) (fun heq => ?_) h.frames
              cases heq
              obtain ⟨rest, hchain, hrest⟩ := h.lookup rfl
              obtain ⟨length, rfl⟩ := Nat.exists_eq_succ_of_ne_zero (Nat.ne_of_gt hchain.pos)
              exact ⟨length, hchain.parent hid hparent, by omega⟩

/-- Entering a call, the code at hand is the body of the function. -/
theorem follows_call {admits : Nat → Bool} {f : Closure} {args : List Value}
    (h : Config.Lexical sites place callers ⟨.call f args, frames, session⟩) :
    Config.Follows sites place callers ⟨.call f args, frames, session⟩
      (call admits f args frames session) := by
  have hmirrors : f.Mirrors sites session.store := (h.values _ List.mem_cons_self).of_function
  have hargs : ∀ arg ∈ args, arg.Mirrors sites session.store :=
    fun arg harg => h.values arg (List.mem_cons_of_mem _ harg)
  by_cases harity : args.length = f.params.length
  · cases hopen : admits session.depth with
    | false =>
        rw [call_of_full harity hopen]
        exact .within rfl (h.fault rfl rfl _ h.frames)
    | true =>
        rw [call_of_open harity hopen]
        obtain ⟨depth, hliteral, hbody, hscope⟩ := hmirrors
        obtain ⟨hkeeps, hinside⟩ := session.enter_chainLength f args hscope
        refine .enter rfl (List.countP_cons_of_pos (by rfl)) hliteral ?_
        exact {
          session := h.session.enter ⟨depth, hliteral, hbody, hscope⟩ hargs
          scope := hinside
          body := hbody
          code := List.Subset.refl _
          values := by simp [Control.held]
          lookup := by simp
          frames := .caller h.body (h.scope.mono hkeeps) (h.frames.mono hkeeps) }
  · rw [call_of_length_ne harity]
    exact .within rfl (h.fault rfl rfl _ h.frames)

theorem lexical_ofExcept (h : Config.Lexical sites place callers ⟨control, frames, session⟩)
    {result : Except Fault Value}
    (hok : ∀ value, result = .ok value → value.Mirrors sites session.store)
    (hframes : Stack sites session.store place callers frames') :
    (Config.ofResult .value frames' (Eval.ofExcept result session)).Lexical sites place
      callers := by
  cases result with
  | ok value => exact h.value rfl rfl (hok value rfl) hframes
  | error fault => exact h.fault rfl rfl fault hframes

/-- Leaving a call, the code at hand is the body of the caller again. -/
theorem follows_leave {scope : ScopeId}
    (h : Config.Lexical sites place callers ⟨control, .caller scope :: frames, session⟩)
    (hcode : ∀ depth, control'.parts depth = [])
    (hvalues : ∀ value ∈ control'.held, value.Mirrors sites session.store)
    (hlookup : ∀ {name id hops}, control' ≠ .lookup name id hops) :
    Config.Follows sites place callers ⟨control, .caller scope :: frames, session⟩
      ⟨control', frames, session.leave scope⟩ := by
  cases h.frames with
  | frame hcaller => cases hcaller
  | caller hbody hscope hrest =>
      refine .leave rfl (List.countP_cons_of_pos (by rfl)).symm ?_
      exact {
        session := h.session.of_eq rfl
        scope := hscope
        body := hbody
        code := by simp [hcode]
        values := hvalues
        lookup := fun heq => absurd heq hlookup
        frames := hrest }

/-- What stays in place when a frame that stands for no call has its turn. -/
theorem Stack.tail {frame : Frame} (h : Stack sites store place callers (frame :: frames))
    (hcaller : frame.isCaller = false) :
    frame.parts place.level ⊆ place.parts ∧ (∀ value ∈ frame.held, value.Mirrors sites store) ∧
      Stack sites store place callers frames := by
  cases h with
  | frame _ hparts hvalues hrest => exact ⟨hparts, hvalues, hrest⟩
  | caller => cases hcaller

/-- A step that neither opens nor ends a call. -/
theorem Config.Lexical.stays {config : Config} {frame : Frame} (hcaller : frame.isCaller = false)
    (hframes : config.callers = frames.countP Frame.isCaller)
    (h : config.Lexical sites place callers) :
    Config.Follows sites place callers ⟨control, frame :: frames, session⟩ config := by
  refine .within ?_ h
  rw [hframes, Config.callers, List.countP_cons_of_neg (by simp [hcaller])]

theorem Config.callers_ofResult {α : Type} (out : α → Control)
    (result : EStateM.Result Unwind Session α) :
    (Config.ofResult out frames result).callers = frames.countP Frame.isCaller := by
  cases result <;> rfl

theorem lexical_ended (h : Config.Lexical sites place callers ⟨control, frames, session⟩)
    {last : Option Value} (hlast : ∀ value ∈ last.toList, value.Mirrors sites session.store)
    (hframes : Stack sites session.store place callers frames') :
    Config.Lexical sites place callers ⟨.ended last, frames', session⟩ :=
  h.next rfl rfl (List.nil_subset _) hlast (by simp) hframes

/-- A value handed to a frame of the body at hand. -/
theorem lexical_resume {value : Value} {frame : Frame} {next : Config}
    (h : Config.Lexical sites place callers ⟨.value value, frame :: frames, session⟩)
    (hcaller : frame.isCaller = false) (hstep : resume value frames session frame = some next) :
    next.Lexical sites place callers ∧ next.callers = frames.countP Frame.isCaller := by
  obtain ⟨hparts, hheld, hframes⟩ := h.frames.tail hcaller
  have hvalue : value.Mirrors sites session.store := h.values value List.mem_cons_self
  cases frame with
  | unary op =>
      cases hstep
      refine ⟨lexical_ofExcept h (fun result hok => ?_) hframes, Config.callers_ofResult _ _⟩
      exact .plain (UnaryOp.apply_isPlain hok)
  | binary left op =>
      cases hstep
      refine ⟨lexical_ofExcept h (fun result hok => ?_) hframes, Config.callers_ofResult _ _⟩
      exact .plain (BinaryOp.apply_isPlain hok)
  | index base =>
      cases hstep
      refine ⟨lexical_ofExcept h (fun result hok => ?_) hframes, Config.callers_ofResult _ _⟩
      rcases Value.atIndex_eq_ok hok with rfl | ⟨birth, elements, rfl, helement⟩
      · exact .plain .null
      · exact (hheld _ List.mem_cons_self).element helement
  | right op right =>
      cases hstep
      have hwaits : ∀ left ∈ (Frame.binary value op).held, left.Mirrors sites session.store :=
        fun left hleft => List.mem_singleton.mp hleft ▸ hvalue
      exact ⟨h.begin hparts rfl (by simp) (.frame rfl (List.nil_subset _) hwaits hframes), rfl⟩
  | position position =>
      cases hstep
      have hwaits : ∀ base ∈ (Frame.index value).held, base.Mirrors sites session.store :=
        fun base hbase => List.mem_singleton.mp hbase ▸ hvalue
      exact ⟨h.begin hparts rfl (by simp) (.frame rfl (List.nil_subset _) hwaits hframes), rfl⟩
  | others es =>
      cases hstep
      have hwaits : ∀ first ∈ (Frame.cons value).held, first.Mirrors sites session.store :=
        fun first hfirst => List.mem_singleton.mp hfirst ▸ hvalue
      exact ⟨h.begin hparts rfl (by simp) (.frame rfl (List.nil_subset _) hwaits hframes), rfl⟩
  | choice yes no =>
      have hbranch : Stack sites session.store place callers (.branch :: frames) :=
        .frame rfl (List.nil_subset _) (by simp [Frame.held]) hframes
      obtain ⟨hyes, hno⟩ := List.append_subset.mp hparts
      simp only [resume] at hstep
      split at hstep
      · cases hstep
        exact ⟨h.begin hyes rfl (by simp) hbranch, rfl⟩
      · cases no with
        | none =>
            cases hstep
            exact ⟨h.value rfl rfl (.plain .null) hframes, rfl⟩
        | some items =>
            cases hstep
            exact ⟨h.begin hno rfl (by simp) hbranch, rfl⟩
  | arguments args =>
      cases value with
      | function f =>
          cases hstep
          have hwaits : ∀ callee ∈ (Frame.function f).held, callee.Mirrors sites session.store :=
            fun callee hcallee => List.mem_singleton.mp hcallee ▸ hvalue
          exact ⟨h.begin hparts rfl (by simp) (.frame rfl (List.nil_subset _) hwaits hframes), rfl⟩
      | native f =>
          cases hstep
          have hwaits : Stack sites session.store place callers (.native f :: frames) :=
            .frame rfl (List.nil_subset _) (by simp [Frame.held]) hframes
          exact ⟨h.begin hparts rfl (by simp) hwaits, rfl⟩
      | int | text | bool | null | array | error =>
          cases hstep
          exact ⟨h.fault rfl rfl _ hframes, rfl⟩
  | statement =>
      cases hstep
      refine ⟨lexical_ended h (fun last hlast => ?_) hframes, rfl⟩
      exact List.mem_singleton.mp hlast ▸ hvalue
  | bind name =>
      cases hstep
      have hkeeps : session.store.KeepsParents (session.set name value).store := .set _ _ _ _
      refine ⟨?_, rfl⟩
      exact {
        session := h.session.set name hvalue
        scope := h.scope.mono hkeeps
        body := h.body
        code := List.nil_subset _
        values := by simp [Control.held]
        lookup := by simp
        frames := hframes.mono hkeeps }
  | ret =>
      cases hstep
      have hreturned : ∀ returned ∈ (Control.unwinding (.returned value)).held,
          returned.Mirrors sites session.store :=
        fun returned hreturned => List.mem_singleton.mp hreturned ▸ hvalue
      exact ⟨h.next rfl rfl (List.nil_subset _) hreturned (by simp) hframes, rfl⟩
  | branch | function | native | array | cons | items => cases hstep
  | caller => cases hcaller

/-- Printing leaves the scopes alone. -/
theorem printAll_store (args : List Value) (session : Session) :
    let printed := args.foldl (fun session arg => session.print (arg.render ++ "\n")) session
    printed.store = session.store ∧ printed.scope = session.scope := by
  induction args generalizing session with
  | nil => exact ⟨rfl, rfl⟩
  | cons arg args ih => exact ih (session.print (arg.render ++ "\n"))

theorem lexical_makeArray (h : Config.Lexical sites place callers ⟨control, frames, session⟩)
    {elements : List Value} (helements : ∀ value ∈ elements, value.Mirrors sites session.store)
    (hframes : Stack sites session.store place callers frames') :
    (Config.ofResult .value frames' (Eval.makeArray elements session)).Lexical sites place
      callers :=
  h.value (by rfl) (by rfl) (.array helements) hframes

/-- A native body that has its arguments. -/
theorem lexical_native {f : Native} {args : List Value}
    (h : Config.Lexical sites place callers ⟨control, frames, session⟩)
    (hargs : ∀ arg ∈ args, arg.Mirrors sites session.store)
    (hframes : Stack sites session.store place callers frames') :
    (Config.ofResult .value frames' (f.routine.run args session)).Lexical sites place callers := by
  have hanswers := f.routine.run_answers args session
  generalize f.routine.run args session = result at hanswers ⊢
  cases hanswers with
  | wrongArity | unsupported => exact h.fault rfl rfl _ hframes
  | plain hplain => exact h.value rfl rfl (.plain hplain) hframes
  | given hvalue => exact h.value rfl rfl (.oneOf hargs hvalue) hframes
  | made helements =>
      exact lexical_makeArray h (fun value hvalue => .oneOf hargs (helements value hvalue)) hframes
  | printed =>
      obtain ⟨hstore, hscope⟩ := printAll_store args session
      exact h.value hstore hscope (.plain .null) hframes

theorem lexical_resumeAll {values : List Value} {frame : Frame} {next : Config}
    (h : Config.Lexical sites place callers ⟨.values values, frame :: frames, session⟩)
    (hcaller : frame.isCaller = false)
    (hstep : resumeAll values frames session frame = some next) :
    next.Lexical sites place callers ∧ next.callers = frames.countP Frame.isCaller := by
  obtain ⟨_, hheld, hframes⟩ := h.frames.tail hcaller
  have hvalues : ∀ value ∈ values, value.Mirrors sites session.store := h.values
  cases frame with
  | function f =>
      cases hstep
      refine ⟨h.next rfl rfl (List.nil_subset _) (fun value hvalue => ?_) (by simp) hframes, rfl⟩
      rcases List.mem_cons.mp hvalue with rfl | hvalue
      · exact hheld _ List.mem_cons_self
      · exact hvalues value hvalue
  | native f =>
      cases hstep
      exact ⟨lexical_native h hvalues hframes, Config.callers_ofResult _ _⟩
  | array =>
      cases hstep
      exact ⟨lexical_makeArray h hvalues hframes, rfl⟩
  | cons first =>
      cases hstep
      refine ⟨h.next rfl rfl (List.nil_subset _) (fun value hvalue => ?_) (by simp) hframes, rfl⟩
      rcases List.mem_cons.mp hvalue with rfl | hvalue
      · exact hheld value List.mem_cons_self
      · exact hvalues value hvalue
  | _ => cases hstep

theorem follows_resumeEnded {last : Option Value} {frame : Frame} {next : Config}
    (h : Config.Lexical sites place callers ⟨.ended last, frame :: frames, session⟩)
    (hstep : resumeEnded last frames session frame = some next) :
    Config.Follows sites place callers ⟨.ended last, frame :: frames, session⟩ next := by
  have hlast : ∀ value ∈ last.toList, value.Mirrors sites session.store := h.values
  cases frame with
  | branch =>
      cases hstep
      obtain ⟨_, _, hframes⟩ := h.frames.tail rfl
      exact (h.value rfl rfl (.getD_null hlast) hframes).stays rfl rfl
  | items items =>
      cases hstep
      obtain ⟨hparts, _, hframes⟩ := h.frames.tail rfl
      have hnext : Config.Lexical sites place callers ⟨.items last items, frames, session⟩ :=
        h.next rfl rfl hparts hlast (by simp) hframes
      exact hnext.stays rfl rfl
  | caller scope =>
      cases hstep
      refine follows_leave h (fun _ => rfl) (fun value hvalue => ?_) (by simp)
      exact List.mem_singleton.mp hvalue ▸ .getD_null hlast
  | _ => cases hstep

theorem follows_dropFrame {unwind : Unwind} {frame : Frame}
    (h : Config.Lexical sites place callers ⟨.unwinding unwind, frame :: frames, session⟩) :
    Config.Follows sites place callers ⟨.unwinding unwind, frame :: frames, session⟩
      (dropFrame unwind frames session frame) := by
  cases hframe : frame.isCaller with
  | true =>
      cases frame with
      | caller scope =>
          cases unwind with
          | returned value => exact follows_leave h (fun _ => rfl) h.values (by simp)
          | fault fault => exact follows_leave h (fun _ => rfl) h.values (by simp)
      | _ => cases hframe
  | false =>
      obtain ⟨_, _, hframes⟩ := h.frames.tail hframe
      have hdrop :
          dropFrame unwind frames session frame = ⟨.unwinding unwind, frames, session⟩ := by
        cases frame with
        | caller => cases hframe
        | _ => rfl
      rw [hdrop]
      exact (h.next rfl rfl (List.nil_subset _) h.values (by simp) hframes).stays hframe rfl

theorem callers_beginExpr (e : Expr Nat) :
    (beginExpr frames session e).callers = frames.countP Frame.isCaller := by
  cases e <;> rfl

theorem callers_beginItem (item : Item Nat) :
    (beginItem frames session item).callers = frames.countP Frame.isCaller := by
  cases item <;> rfl

theorem callers_unbound (name : String) (hops : Nat) :
    (unbound name hops frames session).callers = frames.countP Frame.isCaller := by
  unfold unbound
  dsimp only
  split <;> rfl

theorem callers_lookup (name : String) (id : ScopeId) (hops : Nat) :
    (lookup name id hops frames session).callers = frames.countP Frame.isCaller := by
  unfold lookup
  split
  · exact callers_unbound name hops
  · split
    · rfl
    · rfl
    · exact callers_unbound name hops

/-- Every step keeps code as deep as it stands, whatever calls may be opened. -/
theorem follows_step {admits : Nat → Bool} {config next : Config}
    (h : config.Lexical sites place callers) (hstep : step admits config = some next) :
    Config.Follows sites place callers config next := by
  obtain ⟨control, frames, session⟩ := config
  cases control with
  | expr e =>
      cases hstep
      exact .within (callers_beginExpr e) (lexical_beginExpr h)
  | exprs es =>
      cases es with
      | nil =>
          cases hstep
          exact .within rfl (h.begin (List.nil_subset _) rfl (by simp) h.frames)
      | cons e es =>
          cases hstep
          obtain ⟨he, hes⟩ := List.append_subset.mp h.code
          have hframes : Stack sites session.store place callers (.others es :: frames) :=
            .frame rfl hes (by simp [Frame.held]) h.frames
          exact .within rfl (h.begin he rfl (by simp) hframes)
  | item item =>
      cases hstep
      exact .within (callers_beginItem item) (lexical_beginItem h)
  | items last items =>
      cases items with
      | nil =>
          cases hstep
          exact .within rfl (lexical_ended h h.values h.frames)
      | cons item items =>
          cases hstep
          obtain ⟨hitem, hitems⟩ := List.append_subset.mp h.code
          refine .within rfl (h.begin hitem rfl (by simp) ?_)
          exact .frame rfl hitems (by simp [Frame.held]) h.frames
  | lookup name id hops =>
      cases hstep
      exact .within (callers_lookup name id hops) (lexical_lookup h)
  | call f args =>
      cases hstep
      exact follows_call h
  | value value =>
      cases frames with
      | nil => cases hstep
      | cons frame frames =>
          cases hframe : frame.isCaller with
          | true =>
              cases frame with
              | caller => cases hstep
              | _ => cases hframe
          | false =>
              obtain ⟨hnext, hcallers⟩ := lexical_resume h hframe hstep
              exact hnext.stays hframe hcallers
  | values values =>
      cases frames with
      | nil => cases hstep
      | cons frame frames =>
          cases hframe : frame.isCaller with
          | true =>
              cases frame with
              | caller => cases hstep
              | _ => cases hframe
          | false =>
              obtain ⟨hnext, hcallers⟩ := lexical_resumeAll h hframe hstep
              exact hnext.stays hframe hcallers
  | ended last =>
      cases frames with
      | nil => cases hstep
      | cons frame frames => exact follows_resumeEnded h hstep
  | unwinding unwind =>
      cases frames with
      | nil => cases hstep
      | cons frame frames =>
          cases hstep
          exact follows_dropFrame h

end Steps

end Machine

end Scriptlet
