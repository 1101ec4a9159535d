import Scriptlet.Proofs.Session.Origins

/-!
# Evaluation keeps origins

The induction over programs and calls for what `Account.Traces` says. A node is free while
nothing at or below it has been visited in the current scope; to evaluate it takes it and what
stands in it, and nothing else in this scope.
-/

namespace Scriptlet

/-- An element of an array among arguments, or null where there is none. -/
theorem Value.isPlain_or_oneOf {args elements : List Value} {birth : Nat} {value? : Option Value}
    (harray : .array birth elements ∈ args) (hvalue : ∀ value ∈ value?, value ∈ elements) :
    (value?.getD .null).IsPlain ∨ (value?.getD .null).OneOf args := by
  cases value? with
  | none => exact .inl .null
  | some value => exact .inr (.inr ⟨birth, elements, harray, hvalue value rfl⟩)

/-- What a native body answers is a new array, from the two bodies that make one, or a value
at hand that it has not made. -/
theorem Routine.run_makes {routine : Routine} {args : List Value} {session later : Session}
    {value : Value} (h : routine.run args session = .ok value later) :
    (∃ elements, (∀ element ∈ elements, element.OneOf args) ∧
      later = (session.makeArray elements).2 ∧ value = .array session.births elements ∧
        (routine = .rest ∨ routine = .push)) ∨
    ((∀ made, ¬(Happening.applies routine value).Makes made) ∧
      (value.IsPlain ∨ value.OneOf args) ∧ Session.Binding [] session later) := by
  replace h : routine.answer args session = .ok value later := by
    unfold run at h
    cases harity : routine.arity? with
    | none => simpa only [harity] using h
    | some want =>
        rw [harity] at h
        dsimp only at h
        split at h
        · exact h
        · cases h
  unfold answer at h
  split at h <;> cases h
  · exact .inr ⟨nofun, .inl (.int _), .refl _⟩
  · exact .inr ⟨nofun, .inl (.int _), .refl _⟩
  · refine .inr ⟨nofun, Value.isPlain_or_oneOf List.mem_cons_self ?_, .refl _⟩
    exact fun _ => List.mem_of_mem_head?
  · refine .inr ⟨nofun, Value.isPlain_or_oneOf List.mem_cons_self ?_, .refl _⟩
    exact fun _ => List.mem_of_mem_getLast?
  · exact .inr ⟨nofun, .inl .null, .refl _⟩
  · refine .inl ⟨_, fun element helement => .inr ⟨_, _, List.mem_cons_self, ?_⟩, rfl, rfl, .inl rfl⟩
    exact List.mem_cons_of_mem _ helement
  · refine .inl ⟨_, fun element helement => ?_, rfl, rfl, .inr rfl⟩
    rcases List.mem_append.mp helement with helement | helement
    · exact .inr ⟨_, _, List.mem_cons_self, helement⟩
    · exact .inl (List.mem_cons_of_mem _ helement)
  · exact .inr ⟨nofun, .inl .null, .print _ _⟩
  · exact .inr ⟨nofun, .inl .null, .refl _⟩

/-- A native body fails without having done anything. -/
theorem Routine.run_eq_error {routine : Routine} {args : List Value} {session later : Session}
    {unwind : Unwind} (h : routine.run args session = .error unwind later) :
    later = session ∧ ∃ fault, unwind = .fault fault := by
  have hanswers := routine.run_answers args session
  rw [h] at hanswers
  cases hanswers with
  | wrongArity got want => exact ⟨rfl, _, rfl⟩
  | unsupported routine kind => exact ⟨rfl, _, rfl⟩

namespace Account

variable {α β : Type} {sites : List (Node × Expr Nat)} {region part : Node → Prop}
variable {start account : Account}

theorem visit_eq (node : Node) (e : Expr Nat) (p : Accounted Value) (start : Account) :
    Accounted.visit node e p start =
      match p (start.noted (.begins start.session.scope node e)) with
      | .ok value account => .ok value (account.noted (.yields start.session.scope node e value))
      | .error unwind account => .error unwind account := by
  change EStateM.bind p _ (start.noted _) = _
  unfold EStateM.bind
  cases p (start.noted (.begins start.session.scope node e)) <;> rfl

theorem apply_eq (routine : Routine) (args : List Value) (start : Account) :
    Accounted.apply routine args start =
      match routine.run args start.session with
      | .ok value session =>
          .ok value ((start.withSession session).noted (.applies routine value))
      | .error unwind session => .error unwind (start.withSession session) := by
  change EStateM.bind (Accounted.plain (routine.run args)) _ start = _
  unfold EStateM.bind Accounted.plain
  cases routine.run args start.session <;> rfl

/-- What is at hand was made in the history of the account. -/
def Fits (account : Account) (value : Value) : Prop :=
  value.Stems account.history

/-- A free node has no stage yet in the current scope. -/
theorem Free.not_mem {node : Node} (h : start.Free node.Under) (stage : Stage) :
    ⟨stage, start.session.scope, node⟩ ∉ start.visits :=
  fun hmem => h _ hmem rfl (.refl node)

/-- When the evaluation of a free node has begun, what stands in it is free. -/
theorem Traces.begins {node : Node} {e : Expr Nat} (h : start.Traces sites)
    (hfree : start.Free node.Under) (hsite : (node, e) ∈ sites) :
    (start.noted (.begins start.session.scope node e)).Traces sites ∧
      (start.noted (.begins start.session.scope node e)).Free node.Inside ∧
        Grows node.Under start (start.noted (.begins start.session.scope node e)) := by
  refine ⟨h.noted (fun visit hvisit => ?_) (by simpa [Happening.site?] using hsite) nofun
    (.of_stems nofun (.plain .null)), fun visit hvisit hscope => ?_, .noted ?_⟩
  · cases Option.mem_some_iff.mp hvisit
    exact ⟨hfree.not_mem _, h.scope⟩
  · rw [visits_noted] at hvisit
    rcases List.mem_append.mp hvisit with hvisit | hvisit
    · exact fun hinside => hfree visit hvisit hscope hinside.under
    · cases List.mem_singleton.mp hvisit
      exact node.not_inside_self
  · simpa [Happening.visit?] using Node.Under.refl node

/-- Nothing that has happened in a node since its evaluation began has ended it. -/
theorem Traces.yields {node : Node} {e : Expr Nat} {value : Value} (h : start.Traces sites)
    (hfree : start.Free node.Under) (hsite : (node, e) ∈ sites) (haccount : account.Traces sites)
    (hgrows : Grows node.Inside (start.noted (.begins start.session.scope node e)) account)
    (hallows : account.Allows (.yields start.session.scope node e value) value) :
    (account.noted (.yields start.session.scope node e value)).Traces sites ∧
      Grows node.Under start (account.noted (.yields start.session.scope node e value)) := by
  have hmoved : Grows node.Under start account :=
    (h.begins hfree hsite).2.2.trans (hgrows.mono fun _ => Node.Inside.under)
  refine ⟨haccount.noted (fun visit hvisit => ?_) (by simpa [Happening.site?] using hsite)
    ?_ hallows, hmoved.trans (.noted ?_)⟩
  · cases Option.mem_some_iff.mp hvisit
    refine ⟨fun hmem => ?_, Nat.lt_of_lt_of_le h.scope hmoved.size⟩
    rcases hgrows.visits _ hmem with hmem | ⟨_, hnode⟩ | hsize
    · rw [visits_noted] at hmem
      rcases List.mem_append.mp hmem with hmem | hmem
      · exact hfree.not_mem _ hmem
      · cases List.mem_singleton.mp hmem
    · exact node.not_inside_self hnode
    · exact Nat.not_lt_of_le hsize h.scope
  · intro scope node' e' out heq
    cases heq
    exact ⟨hgrows.history (List.mem_append_right _ List.mem_cons_self), rfl⟩
  · rw [hmoved.scope]
    simpa [Happening.visit?] using Node.Under.refl node

/-- An evaluation has kept origins, has visited new nodes only in the region, and its result is
as it should be. -/
def Outcome (sites : List (Node × Expr Nat)) (region : Node → Prop) (post : Account → α → Prop)
    (start : Account) : EStateM.Result Unwind Account α → Prop
  | .ok a account => account.Traces sites ∧ Grows region start account ∧ post account a
  | .error unwind account =>
      account.Traces sites ∧ Grows region start account ∧
        ∀ value, unwind = .returned value → account.Fits value

namespace Outcome

variable {post : Account → α → Prop} {post' : Account → β → Prop}

theorem last {result : EStateM.Result Unwind Account α}
    (h : Outcome sites region post start result) :
    (Account.last result).Traces sites ∧ Grows region start (Account.last result) := by
  cases result <;> exact ⟨h.1, h.2.1⟩

/-- An outcome after something has happened, in a part of the region. -/
theorem after {result : EStateM.Result Unwind Account α} (hgrows : Grows region start account)
    (h : Outcome sites part post account result) (hpart : ∀ node, part node → region node) :
    Outcome sites region post start result := by
  cases result with
  | ok a last => exact ⟨h.1, hgrows.trans (h.2.1.mono hpart), h.2.2⟩
  | error unwind last => exact ⟨h.1, hgrows.trans (h.2.1.mono hpart), h.2.2⟩

theorem pure (h : start.Traces sites) {a : α} (ha : post start a) :
    Outcome sites region post start ((Pure.pure a : Accounted α) start) :=
  ⟨h, .refl start, ha⟩

theorem fault (h : start.Traces sites) (fault : Fault) :
    Outcome sites region post start ((throw (.fault fault) : Accounted α) start) :=
  ⟨h, .refl start, nofun⟩

theorem bind {p : Accounted α} {f : α → Accounted β}
    (hp : Outcome sites part post start (p start)) (hpart : ∀ node, part node → region node)
    (hf : ∀ a account, account.Traces sites → Grows part start account → post account a →
      Outcome sites region post' account (f a account)) :
    Outcome sites region post' start ((p >>= f) start) := by
  change Outcome sites region post' start (EStateM.bind p f start)
  unfold EStateM.bind
  cases hresult : p start with
  | ok a account =>
      rw [hresult] at hp
      obtain ⟨haccount, hgrows, hpost⟩ := hp
      exact (hf a account haccount hgrows hpost).after (hgrows.mono hpart) fun _ => id
  | error unwind account =>
      rw [hresult] at hp
      exact ⟨hp.1, hp.2.1.mono hpart, hp.2.2⟩

theorem ofExcept (h : start.Traces sites) {result : Except Fault α}
    (hok : ∀ a, result = .ok a → post start a) :
    Outcome sites region post start (Accounted.plain (Eval.ofExcept result) start) := by
  cases result with
  | ok a => exact pure h (hok a rfl)
  | error reason => exact fault h reason

/-- The value of a name is bound, or a native function. -/
theorem var (h : start.Traces sites) (name : String) :
    Outcome sites region Fits start (Accounted.plain (Eval.var name) start) := by
  have hobserve (event : Event) : (start.withSession (start.session.observe event)).Traces sites :=
    h.binding (.of_store_eq rfl rfl rfl) (by simp)
  have hgrows (event : Event) :
      Grows region start (start.withSession (start.session.observe event)) :=
    .withSession rfl (Nat.le_refl _)
  unfold Accounted.plain Eval.var Session.get
  dsimp only
  cases hvalue : (start.session.store.search start.session.scope name).value? with
  | some value =>
      exact ⟨hobserve _, hgrows _, h.bound (Store.binds_of_searchWithin hvalue)⟩
  | none =>
      dsimp only
      split
      · rename_i hresult
        split at hresult
        · cases hresult
          exact ⟨hobserve _, hgrows _, .plain (.native _)⟩
        · cases hresult
      · rename_i hresult
        split at hresult
        · cases hresult
        · cases hresult
          exact ⟨hobserve _, hgrows _, nofun⟩

/-- What a native body answers was at hand, or is made by applying it. -/
theorem apply (h : start.Traces sites) (routine : Routine) {args : List Value}
    (hargs : ∀ arg ∈ args, start.Fits arg) :
    Outcome sites region Fits start (Accounted.apply routine args start) := by
  rw [apply_eq]
  cases hrun : routine.run args start.session with
  | error unwind session =>
      obtain ⟨rfl, fault, rfl⟩ := Routine.run_eq_error hrun
      exact Outcome.fault h fault
  | ok value session =>
      dsimp only
      have hnote (hallows : (start.withSession session).Allows (.applies routine value) value)
          (htraces : (start.withSession session).Traces sites)
          (hgrows : Grows region start (start.withSession session)) :
          Outcome sites region Fits start
            (.ok value ((start.withSession session).noted (.applies routine value))) :=
        ⟨htraces.noted (by simp [Happening.visit?]) (by simp [Happening.site?]) nofun hallows,
          hgrows.trans (.noted (by simp [Happening.visit?])), hallows.stems⟩
      rcases Routine.run_makes hrun with ⟨elements, helements, rfl, rfl, hroutine⟩ |
        ⟨hmakes, hvalue, hbinding⟩
      · have hstems : ∀ element ∈ elements, element.Stems start.history :=
          fun element helement => .oneOf hargs (helements element helement)
        refine hnote (h.allows_array ?_ ?_ hstems) (h.makeArray elements) ?_
        · rcases hroutine with rfl | rfl
          · exact .rest
          · exact .push
        · rintro made (_ | _) <;> rfl
        · exact .withSession rfl (Nat.le_refl _)
      · refine hnote (.of_stems hmakes ?_) (h.binding hbinding (by simp)) ?_
        · exact hvalue.elim .plain fun hvalue => .oneOf hargs hvalue
        · exact .withSession hbinding.scope (Nat.le_of_eq hbinding.size.symm)

/-- The begin and the end of an evaluation take the node, and what happens in between takes
nodes that stand in it. -/
theorem visit {node : Node} {e : Expr Nat} {p : Accounted Value} (h : start.Traces sites)
    (hfree : start.Free node.Under) (hsite : (node, e) ∈ sites)
    (hp : ∀ begun : Account, begun.session = start.session → begun.Traces sites →
      begun.Free node.Inside → Outcome sites node.Inside (fun account value =>
        account.Allows (.yields start.session.scope node e value) value) begun (p begun)) :
    Outcome sites node.Under Fits start (Accounted.visit node e p start) := by
  obtain ⟨hbegun, hinside, hgrows⟩ := h.begins hfree hsite
  have hbody := hp (start.noted (.begins start.session.scope node e)) rfl hbegun hinside
  rw [visit_eq]
  cases hresult : p (start.noted (.begins start.session.scope node e)) with
  | error unwind account =>
      rw [hresult] at hbody
      exact ⟨hbody.1, hgrows.trans (hbody.2.1.mono fun _ => Node.Inside.under), hbody.2.2⟩
  | ok value account =>
      rw [hresult] at hbody
      obtain ⟨haccount, hmoved, hallows⟩ := hbody
      obtain ⟨hended, hall⟩ := h.yields hfree hsite haccount hmoved hallows
      exact ⟨hended, hall, hallows.stems⟩

/-- An evaluation that makes nothing itself. -/
theorem visit_plain {node : Node} {e : Expr Nat} {p : Accounted Value} (h : start.Traces sites)
    (hfree : start.Free node.Under) (hsite : (node, e) ∈ sites)
    (hmakes : ∀ scope value made, ¬(Happening.yields scope node e value).Makes made)
    (hp : ∀ begun : Account, begun.Traces sites → begun.Free node.Inside →
      Outcome sites node.Inside Fits begun (p begun)) :
    Outcome sites node.Under Fits start (Accounted.visit node e p start) := by
  refine visit h hfree hsite fun begun _ hbegun hfree => ?_
  have hbody := hp begun hbegun hfree
  cases hresult : p begun with
  | ok value account =>
      rw [hresult] at hbody
      exact ⟨hbody.1, hbody.2.1, .of_stems (hmakes _ _) hbody.2.2⟩
  | error unwind account =>
      rw [hresult] at hbody
      exact hbody

end Outcome

theorem Free.child {node : Node} (h : start.Free node.Inside) (i : Nat) :
    start.Free (node.child i).Under :=
  h.mono fun _ hnode => ⟨i, hnode⟩

theorem Free.first {node : Node} (h : start.Free node.Under) (i : Nat) :
    start.Free (node.child i).Under :=
  h.mono fun _ hnode => hnode.of_child

/-- What has happened at one child leaves another child free. -/
theorem Free.sibling {node : Node} {i j : Nat} (h : start.Free (node.child j).Under)
    (hstart : start.Traces sites) (hgrows : Grows (node.child i).Under start account)
    (hij : i ≠ j) : account.Free (node.child j).Under :=
  h.after hstart hgrows (Node.child_disjoint hij)

/-- Calls keep origins, and visit nodes in new scopes only. -/
def TracedBy (sites : List (Node × Expr Nat)) (call : AccountedRule) : Prop :=
  ∀ (start : Account) (f : Closure) (args : List Value), start.Traces sites →
    start.Fits (.function f) → (∀ arg ∈ args, start.Fits arg) →
      Outcome sites (fun _ => False) Fits start (call f args start)

end Account

open Account

section Programs

variable {sites : List (Node × Expr Nat)} {call : AccountedRule}

mutual

/-- Evaluating an expression keeps origins, if its node is free, and takes the node. -/
theorem Expr.account_traces (hcall : TracedBy sites call) :
    ∀ (e : Expr Nat) (node : Node) {start : Account}, e.nodes node ⊆ sites →
      start.Traces sites → start.Free node.Under →
        Outcome sites node.Under Fits start (e.account call node start)
  | .var name, node, start, hsites, h, hfree => by
      refine .visit_plain h hfree (hsites List.mem_cons_self) nofun fun begun h _ => ?_
      exact .var h name
  | .lit literal, node, start, hsites, h, hfree => by
      refine .visit_plain h hfree (hsites List.mem_cons_self) nofun fun begun h _ => ?_
      exact .pure h (.plain (Value.isPlain_ofLiteral literal))
  | .unary op operand, node, start, hsites, h, hfree => by
      obtain ⟨hsite, hoperand⟩ := List.cons_subset.mp hsites
      refine .visit_plain h hfree hsite nofun fun begun h hfree => ?_
      have hvalue := operand.account_traces hcall _ hoperand h (hfree.child 0)
      refine .bind hvalue (fun _ hnode => ⟨0, hnode⟩) fun value account h _ _ => ?_
      exact .ofExcept h fun result hok => .plain (UnaryOp.apply_isPlain hok)
  | .binary left op right, node, start, hsites, h, hfree => by
      obtain ⟨hsite, hsites⟩ := List.cons_subset.mp hsites
      obtain ⟨hleft, hright⟩ := List.append_subset.mp hsites
      refine .visit_plain h hfree hsite nofun fun begun hbegun hfree => ?_
      have hvalue := left.account_traces hcall _ hleft hbegun (hfree.child 0)
      refine .bind hvalue (fun _ hnode => ⟨0, hnode⟩) fun value account h hgrows _ => ?_
      have hother := right.account_traces hcall _ hright h
        ((hfree.child 1).sibling hbegun hgrows (by decide))
      refine .bind hother (fun _ hnode => ⟨1, hnode⟩) fun value' account' h _ _ => ?_
      exact .ofExcept h fun result hok => .plain (BinaryOp.apply_isPlain hok)
  | .cond test yes no, node, start, hsites, h, hfree => by
      obtain ⟨hsite, hsites⟩ := List.cons_subset.mp hsites
      obtain ⟨htest, hblocks⟩ := List.append_subset.mp hsites
      obtain ⟨hyes, hno⟩ := List.append_subset.mp hblocks
      refine .visit_plain h hfree hsite nofun fun begun hbegun hfree => ?_
      have hvalue := test.account_traces hcall _ htest hbegun (hfree.child 0)
      refine .bind hvalue (fun _ hnode => ⟨0, hnode⟩) fun value account h hgrows _ => ?_
      by_cases htruthy : value.truthy
      · rw [if_pos htruthy]
        have hitems := Item.accountAll_traces hcall yes _ none hyes h
          ((hfree.child 1).sibling hbegun hgrows (by decide)) (by simp)
        refine .bind hitems (fun _ hnode => ⟨1, hnode⟩) fun last account h _ hlast => ?_
        exact .pure h (.getD_null hlast)
      · rw [if_neg htruthy]
        have hitems := Item.accountElse_traces hcall no _ hno h
          ((hfree.child 2).sibling hbegun hgrows (by decide))
        exact hitems.after (.refl _) fun _ hnode => ⟨2, hnode⟩
  | .fn literal params body, node, start, hsites, h, hfree => by
      refine .visit h hfree (hsites List.mem_cons_self) fun begun hsession h _ => ?_
      rw [← hsession]
      refine ⟨h, .refl _, nofun, ?_⟩
      exact .function (List.mem_append_right _ List.mem_cons_self) .function
  | .call callee args, node, start, hsites, h, hfree => by
      obtain ⟨hsite, hsites⟩ := List.cons_subset.mp hsites
      obtain ⟨hcallee, hargs⟩ := List.append_subset.mp hsites
      refine .visit_plain h hfree hsite nofun fun begun hbegun hfree => ?_
      have hvalue := callee.account_traces hcall _ hcallee hbegun (hfree.child 0)
      refine .bind hvalue (fun _ hnode => ⟨0, hnode⟩) fun value account h hgrows hvalue => ?_
      have hvalues := Expr.accountAll_traces hcall args _ hargs h
        ((hfree.child 1).sibling hbegun hgrows (by decide))
      cases value with
      | function f =>
          refine .bind hvalues (fun _ hnode => ⟨1, hnode⟩) fun values account h hgrows hvalues => ?_
          have hf : account.Fits (.function f) := hvalue.mono hgrows.history
          exact (hcall account f values h hf hvalues).after (.refl _) nofun
      | native f =>
          refine .bind hvalues (fun _ hnode => ⟨1, hnode⟩) fun values account h _ hvalues => ?_
          exact .apply h f.routine hvalues
      | int | text | bool | null | array | error => exact .fault h _
  | .array elements, node, start, hsites, h, hfree => by
      obtain ⟨hsite, helements⟩ := List.cons_subset.mp hsites
      refine .visit h hfree hsite fun begun _ h hfree => ?_
      have hvalues := Expr.accountAll_traces hcall elements _ helements h (hfree.child 0)
      refine .bind hvalues (fun _ hnode => ⟨0, hnode⟩) fun values account h _ hvalues => ?_
      refine ⟨h.makeArray values, .withSession rfl (Nat.le_refl _), ?_⟩
      refine h.allows_array .array ?_ hvalues
      rintro made ⟨⟩
      rfl
  | .index base position, node, start, hsites, h, hfree => by
      obtain ⟨hsite, hsites⟩ := List.cons_subset.mp hsites
      obtain ⟨hbase, hposition⟩ := List.append_subset.mp hsites
      refine .visit_plain h hfree hsite nofun fun begun hbegun hfree => ?_
      have hvalue := base.account_traces hcall _ hbase hbegun (hfree.child 0)
      refine .bind hvalue (fun _ hnode => ⟨0, hnode⟩) fun value account h hgrows hvalue => ?_
      have hother := position.account_traces hcall _ hposition h
        ((hfree.child 1).sibling hbegun hgrows (by decide))
      refine .bind hother (fun _ hnode => ⟨1, hnode⟩) fun value' account' h hgrows' _ => ?_
      refine .ofExcept h fun result hok => ?_
      rcases Value.atIndex_eq_ok hok with rfl | ⟨birth, elements, rfl, helement⟩
      · exact .plain .null
      · exact (hvalue.mono hgrows'.history).element helement

theorem Item.account_traces (hcall : TracedBy sites call) :
    ∀ (item : Item Nat) (node : Node) {start : Account}, item.nodes node ⊆ sites →
      start.Traces sites → start.Free node.Under →
        Outcome sites node.Under (fun account last => ∀ value ∈ last, account.Fits value) start
          (item.account call node start)
  | .expr e, node, start, hsites, h, hfree => by
      have hvalue := e.account_traces hcall node hsites h hfree
      refine .bind hvalue (fun _ => id) fun value account h _ hvalue => ?_
      exact .pure h fun other hother => Option.mem_some_iff.mp hother ▸ hvalue
  | .bind name init, node, start, hsites, h, hfree => by
      have hvalue := init.account_traces hcall node hsites h hfree
      refine .bind hvalue (fun _ => id) fun value account h _ hvalue => ?_
      have hset := h.binding (.set account.session name value)
        fun other hother => List.mem_singleton.mp hother ▸ hvalue
      exact ⟨hset, .withSession rfl (Nat.le_of_eq (Store.size_set _ _ _ _).symm), by simp⟩
  | .ret e, node, start, hsites, h, hfree => by
      have hvalue := e.account_traces hcall node hsites h hfree
      refine .bind hvalue (fun _ => id) fun value account h _ hvalue => ?_
      refine ⟨h, .refl _, fun other hother => ?_⟩
      cases hother
      exact hvalue
  | .block items, node, start, hsites, h, hfree =>
      Item.accountAll_traces hcall items node none hsites h hfree (by simp)

theorem Expr.accountAll_traces (hcall : TracedBy sites call) :
    ∀ (es : List (Expr Nat)) (node : Node) {start : Account}, Expr.nodesAll node es ⊆ sites →
      start.Traces sites → start.Free node.Under →
        Outcome sites node.Under (fun account values => ∀ value ∈ values, account.Fits value)
          start (Expr.accountAll call node es start)
  | [], _, _, _, h, _ => .pure h (by simp)
  | e :: es, node, start, hsites, hstart, hfree => by
      obtain ⟨he, hes⟩ := List.append_subset.mp hsites
      have hvalue := e.account_traces hcall _ he hstart (hfree.first 0)
      refine .bind hvalue (fun _ => Node.Under.of_child) fun value account h hgrows hvalue => ?_
      have hvalues := Expr.accountAll_traces hcall es _ hes h
        ((hfree.first 1).sibling hstart hgrows (by decide))
      refine .bind hvalues (fun _ => Node.Under.of_child) fun values account h hgrows hvalues => ?_
      exact .pure h (List.forall_mem_cons.mpr ⟨hvalue.mono hgrows.history, hvalues⟩)

theorem Item.accountAll_traces (hcall : TracedBy sites call) :
    ∀ (items : List (Item Nat)) (node : Node) (last : Option Value) {start : Account},
      Item.nodesAll node items ⊆ sites → start.Traces sites → start.Free node.Under →
        (∀ value ∈ last, start.Fits value) →
          Outcome sites node.Under (fun account last => ∀ value ∈ last, account.Fits value) start
            (Item.accountAll call node last items start)
  | [], _, _, _, _, h, _, hlast => .pure h hlast
  | item :: items, node, _, start, hsites, hstart, hfree, _ => by
      obtain ⟨hitem, hitems⟩ := List.append_subset.mp hsites
      have hvalue := item.account_traces hcall _ hitem hstart (hfree.first 0)
      refine .bind hvalue (fun _ => Node.Under.of_child) fun value account h hgrows hvalue => ?_
      have hothers := Item.accountAll_traces hcall items _ value hitems h
        ((hfree.first 1).sibling hstart hgrows (by decide)) hvalue
      exact hothers.after (.refl _) fun _ => Node.Under.of_child

theorem Item.accountElse_traces (hcall : TracedBy sites call) :
    ∀ (no : Option (List (Item Nat))) (node : Node) {start : Account},
      Item.nodesElse node no ⊆ sites → start.Traces sites → start.Free node.Under →
        Outcome sites node.Under Fits start (Item.accountElse call node no start)
  | none, _, _, _, h, _ => .pure h (.plain .null)
  | some items, node, start, hsites, h, hfree => by
      have hitems := Item.accountAll_traces hcall items node none hsites h hfree (by simp)
      refine .bind hitems (fun _ => id) fun last account h _ hlast => ?_
      exact .pure h (.getD_null hlast)

end

end Programs

namespace Account

variable {count levels : Nat} {sites : List (Node × Expr Nat)} {start account : Account}
variable {f : Closure} {args : List Value}

/-- A call begins in a new scope, in which nothing has been visited. -/
theorem Traces.enter (h : start.Traces sites) (f : Closure) (hargs : ∀ arg ∈ args, start.Fits arg) :
    (start.withSession (start.session.enter f args)).Traces sites ∧
      ∀ region, (start.withSession (start.session.enter f args)).Free region := by
  have hbinding : Session.Binding args (start.session.opened f) (start.session.enter f args) :=
    .enter _ _ _
  have hscope : (start.session.enter f args).scope = start.session.store.size := hbinding.scope
  have hsize : (start.session.enter f args).store.size = start.session.store.size + 1 :=
    hbinding.size.trans (Store.size_create _ _)
  refine ⟨h.withSession ?_ ?_ (Nat.le_of_eq hbinding.births.symm) fun value hvalue => ?_,
    fun region visit hvisit heq => ?_⟩
  · rw [hscope, hsize]
    exact Nat.lt_succ_self _
  · rw [hsize]
    exact Nat.le_succ _
  · rcases hbinding.binds hvalue with hmem | hvalue
    · exact hargs value hmem
    · exact h.bound (Store.Binds.of_create hvalue)
  · have hlt : visit.scope < start.session.store.size := h.visited visit hvisit
    exact absurd (heq.trans hscope) (Nat.ne_of_lt hlt)

/-- Back in the scope of the caller, what the body visited was visited in new scopes. -/
theorem Traces.leave {part : Node → Prop} (h : start.Traces sites) (haccount : account.Traces sites)
    (hgrows : Grows part (start.withSession (start.session.enter f args)) account) :
    (account.withSession (account.session.leave start.session.scope)).Traces sites ∧
      Grows (fun _ => False) start
        (account.withSession (account.session.leave start.session.scope)) := by
  have hbinding : Session.Binding args (start.session.opened f) (start.session.enter f args) :=
    .enter _ _ _
  have hscope : (start.session.enter f args).scope = start.session.store.size := hbinding.scope
  have hsize : start.session.store.size ≤ (start.session.enter f args).store.size :=
    Nat.le_trans (start.session.size_opened f) (Nat.le_of_eq hbinding.size.symm)
  have hlater := Nat.le_trans hsize hgrows.size
  refine ⟨haccount.withSession (Nat.lt_of_lt_of_le h.scope hlater) (Nat.le_refl _) (Nat.le_refl _)
    fun _ => haccount.bound, rfl, hlater, hgrows.sources, hgrows.history, fun visit hvisit => ?_⟩
  rcases hgrows.visits visit hvisit with hvisit | ⟨hcurrent, _⟩ | hnew
  · exact .inl hvisit
  · exact .inr (.inr (Nat.le_of_eq (hcurrent.trans hscope).symm))
  · exact .inr (.inr (Nat.le_trans hsize hnew))

/-- The body of a function at hand is among the sites. -/
theorem Traces.body (h : start.Traces sites) (hsited : Sited count sites)
    (hf : start.Fits (.function f)) : Item.nodesAll ⟨.body f.literal, []⟩ f.body ⊆ sites := by
  obtain ⟨happening, hmem, hmakes⟩ := hf.made_function
  cases hmakes with
  | function => exact hsited.body (h.sites _ hmem _ rfl)

theorem callWithin_succ_of_length_ne (h : args.length ≠ f.params.length) (start : Account) :
    callWithin (levels + 1) f args start =
      .error (.fault (.wrongArity args.length f.params.length)) start := by
  have harity : f.checkArity args = throw (.fault (.wrongArity args.length f.params.length)) :=
    if_neg h
  rw [callWithin, harity]
  rfl

theorem callWithin_succ_of_length_eq (h : args.length = f.params.length) (start : Account) :
    callWithin (levels + 1) f args start =
      endCall start.session.scope (Item.accountAll (callWithin levels) ⟨.body f.literal, []⟩ none
        f.body (start.withSession (start.session.enter f args))) := by
  have harity : f.checkArity args = pure () := if_pos h
  rw [callWithin, harity]
  rfl

theorem callWithin_traces (hsited : Sited count sites) (levels : Nat) :
    TracedBy sites (callWithin levels) := by
  induction levels with
  | zero =>
      intro start f args h _ _
      have hfault (fault : Fault) (heq : Scriptlet.callWithin 0 f args start.session =
          .error (.fault fault) start.session) :
          Outcome sites (fun _ => False) Fits start (callWithin 0 f args start) := by
        rw [callWithin, Accounted.plain, heq]
        exact .fault h fault
      by_cases harity : args.length = f.params.length
      · exact hfault _ (callWithin_zero_of_length_eq harity _)
      · exact hfault _ (callWithin_of_length_ne harity _)
  | succ levels ih =>
      intro start f args h hf hargs
      by_cases harity : args.length = f.params.length
      · obtain ⟨hentered, hfree⟩ := h.enter f hargs
        have hbody := Item.accountAll_traces ih f.body ⟨.body f.literal, []⟩ none
          (h.body hsited hf) hentered (hfree _) (by simp)
        rw [callWithin_succ_of_length_eq harity]
        cases hresult : Item.accountAll (callWithin levels) ⟨.body f.literal, []⟩ none f.body
          (start.withSession (start.session.enter f args)) with
        | ok last account =>
            rw [hresult] at hbody
            obtain ⟨hlast, hgrows⟩ := h.leave hbody.1 hbody.2.1
            exact ⟨hlast, hgrows, .getD_null hbody.2.2⟩
        | error unwind account =>
            rw [hresult] at hbody
            obtain ⟨hlast, hgrows⟩ := h.leave hbody.1 hbody.2.1
            cases unwind with
            | returned value => exact ⟨hlast, hgrows, hbody.2.2 value rfl⟩
            | fault fault => exact ⟨hlast, hgrows, nofun⟩
      · rw [callWithin_succ_of_length_ne harity]
        exact .fault h _

end Account

end Scriptlet
