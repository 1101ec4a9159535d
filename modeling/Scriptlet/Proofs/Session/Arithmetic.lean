import Scriptlet.Proofs.Session.Cutting

/-!
# Arithmetic

An expression made of integers, the minus sign and the four operations has an exact value
at every node, whether or not that is in range. Where every node can be computed,
evaluation comes to the exact value of the whole. Otherwise it fails at the first node
that cannot, operands before their operation and left before right, and complains about
the exact values of the operands there. Nothing else happens in the session.
-/

namespace Scriptlet

/-- The operations of arithmetic. -/
inductive Arithmetic.Operation where
  | add | subtract | multiply | divide
  deriving DecidableEq

/-- An arithmetic expression. -/
inductive Arithmetic where
  | int (n : Integer)
  | negate (operand : Arithmetic)
  | binary (left : Arithmetic) (op : Arithmetic.Operation) (right : Arithmetic)

namespace Arithmetic

/-- The operation as an operator of the language. -/
def Operation.toBinaryOp : Operation → BinaryOp
  | .add => .add
  | .subtract => .subtract
  | .multiply => .multiply
  | .divide => .divide

/-- The exact result of an operation. Division truncates toward zero. -/
def Operation.exact (m : Int) (op : Operation) (n : Int) : Int :=
  match op with
  | .add => m + n
  | .subtract => m - n
  | .multiply => m * n
  | .divide => m.tdiv n

/-- The expression of the language. -/
def toExpr {Mark : Type} : Arithmetic → Expr Mark
  | .int n => .lit (.int n)
  | .negate operand => .unary .negate operand.toExpr
  | .binary left op right => .binary left.toExpr op.toBinaryOp right.toExpr

/-- The exact value. It is of interest where no node inside complains. -/
def exact : Arithmetic → Int
  | .int n => n.toInt
  | .negate operand => -operand.exact
  | .binary left op right => op.exact left.exact right.exact

/-- All nodes, in the order in which they are computed. -/
def nodes : Arithmetic → List Arithmetic
  | .int n => [.int n]
  | .negate operand => operand.nodes ++ [.negate operand]
  | .binary left op right => left.nodes ++ right.nodes ++ [.binary left op right]

/-- Whether the language has this integer. -/
structure InRange (n : Int) : Prop where
  least : -9223372036854775808 ≤ n
  greatest : n ≤ 9223372036854775807

instance (n : Int) : Decidable (InRange n) :=
  decidable_of_iff (-9223372036854775808 ≤ n ∧ n ≤ 9223372036854775807)
    ⟨fun h => ⟨h.1, h.2⟩, fun h => ⟨h.least, h.greatest⟩⟩

/-- The complaint about a node itself, if it divides by zero or its exact value is out of
range. -/
def complaint? : Arithmetic → Option String
  | .int _ => none
  | .negate operand =>
      if InRange (-operand.exact) then none
      else some ("integer overflow: " ++ "-" ++ Text.Decimal.write operand.exact)
  | .binary left op right =>
      if op = .divide ∧ right.exact = 0 then
        some ("division by zero: " ++ Text.Decimal.write left.exact ++ " / " ++
          Text.Decimal.write right.exact)
      else if InRange (op.exact left.exact right.exact) then none
      else
        some ("integer overflow: " ++ Text.Decimal.write left.exact ++ " " ++
          op.toBinaryOp.symbol ++ " " ++ Text.Decimal.write right.exact)

/-- A node can be computed from its operands: its exact value is in range, and it does not
divide by zero. -/
def Computes (node : Arithmetic) : Prop :=
  InRange node.exact ∧ ∀ left right, node = .binary left .divide right → right.exact ≠ 0

/-- A literal is in range. -/
theorem inRange_toInt (n : Integer) : InRange n.toInt := by
  have hmin : Int64.minValue.toInt = -9223372036854775808 := by decide
  have hmax : Int64.maxValue.toInt = 9223372036854775807 := by decide
  exact ⟨hmin ▸ n.minValue_le_toInt, hmax ▸ n.toInt_le⟩

theorem complaint?_eq_none_iff {node : Arithmetic} :
    node.complaint? = none ↔ node.Computes := by
  unfold Computes
  cases node with
  | int n => simp [complaint?, exact, inRange_toInt]
  | negate operand =>
      simp only [complaint?, exact]
      split <;> simp [*]
  | binary left op right =>
      simp only [complaint?, exact, binary.injEq]
      split
      next hzero => simp [hzero]
      next hzero => split <;> grind

/-- The complaint about the first node that there is one about. -/
def firstComplaint? (e : Arithmetic) : Option String :=
  e.nodes.findSome? complaint?

theorem firstComplaint?_negate (operand : Arithmetic) :
    (negate operand).firstComplaint? =
      operand.firstComplaint?.or (negate operand).complaint? := by
  simp [firstComplaint?, nodes, List.findSome?_append]

theorem firstComplaint?_binary (left : Arithmetic) (op : Operation) (right : Arithmetic) :
    (binary left op right).firstComplaint? =
      left.firstComplaint?.or (right.firstComplaint?.or (binary left op right).complaint?) := by
  simp [firstComplaint?, nodes, List.findSome?_append]

/-- A computation on integers comes to the exact integer, or to the complaint about it. -/
inductive Settles (n : Int) : Option String → Except Fault Value → Prop where
  | value {k : Integer} (h : k.toInt = n) : Settles n none (.ok (.int k))
  | fault (fault : Fault) : Settles n (some fault.message) (.error fault)

theorem settles_orFault (n : Int) (fault : Fault) :
    Settles n (if InRange n then none else some fault.message) (Integer.orFault fault n) := by
  unfold Integer.orFault
  cases hn : Integer.ofInt? n with
  | some k =>
      have hk := Integer.ofInt?_eq_some_iff.mp hn
      rw [if_pos (hk ▸ inRange_toInt k)]
      exact .value hk
  | none =>
      have hout := Integer.ofInt?_eq_none_iff.mp hn
      have hrange : ¬InRange n := fun h => by
        have hleast := h.least
        have hgreatest := h.greatest
        omega
      rw [if_neg hrange]
      exact .fault fault

/-- A minus sign is applied to an integer as to the exact one. -/
theorem settles_negate {operand : Arithmetic} {n : Integer} (h : n.toInt = operand.exact) :
    Settles (negate operand).exact (negate operand).complaint?
      (UnaryOp.apply .negate (.int n)) := by
  have hsettles := settles_orFault (-n.toInt) (.unaryOverflow .negate n)
  have hmessage : (Fault.unaryOverflow .negate n).message =
      "integer overflow: " ++ "-" ++ Text.Decimal.write operand.exact := by
    rw [← h]
    rfl
  rw [hmessage, h] at hsettles
  rw [UnaryOp.apply, h]
  exact hsettles

/-- An operation is applied to two integers as to the exact ones. -/
theorem settles_binary {left right : Arithmetic} {m n : Integer} (op : Operation)
    (hm : m.toInt = left.exact) (hn : n.toInt = right.exact) :
    Settles (binary left op right).exact (binary left op right).complaint?
      (BinaryOp.apply (.int m) op.toBinaryOp (.int n)) := by
  have hsettles := settles_orFault (op.exact m.toInt n.toInt) (.binaryOverflow m op.toBinaryOp n)
  have hmessage : (Fault.binaryOverflow m op.toBinaryOp n).message =
      "integer overflow: " ++ Text.Decimal.write left.exact ++ " " ++
        op.toBinaryOp.symbol ++ " " ++ Text.Decimal.write right.exact := by
    rw [← hm, ← hn]
    rfl
  rw [hmessage, hm, hn] at hsettles
  by_cases hzero : op = .divide ∧ right.exact = 0
  · obtain ⟨rfl, hright⟩ := hzero
    have hn0 : n = 0 := Int64.toInt_inj.mp (hn.trans hright)
    have happly : BinaryOp.apply (.int m) .divide (.int n) = .error (.divisionByZero m n) := by
      simp [BinaryOp.apply, BinaryOp.applyInt, hn0]
    have hmessage : (Fault.divisionByZero m n).message =
        "division by zero: " ++ Text.Decimal.write left.exact ++ " / " ++
          Text.Decimal.write right.exact := by
      rw [← hm, ← hn]
      rfl
    rw [complaint?, if_pos ⟨rfl, hright⟩, ← hmessage]
    rw [Operation.toBinaryOp, happly]
    exact .fault _
  · rw [complaint?, if_neg hzero]
    cases op with
    | add | subtract | multiply =>
        simpa [BinaryOp.apply, BinaryOp.applyInt, Operation.toBinaryOp, Operation.exact, exact,
          hm, hn] using hsettles
    | divide =>
        have hn0 : n ≠ 0 := by
          rintro rfl
          exact hzero ⟨rfl, hn.symm⟩
        simpa [BinaryOp.apply, BinaryOp.applyInt, Operation.toBinaryOp, Operation.exact, exact,
          hm, hn, hn0] using hsettles

/-- Evaluation computes the nodes in order, up to the first one that there is a complaint
about, in every session alike and without changing it. -/
theorem exists_eval_toExpr (e : Arithmetic) :
    ∃ result, Settles e.exact e.firstComplaint? result ∧
      ∀ (call : CallRule) (session : Session),
        e.toExpr.eval call session = Eval.ofExcept result session := by
  induction e with
  | int n => exact ⟨.ok (.int n), .value rfl, fun _ _ => rfl⟩
  | negate operand ih =>
      obtain ⟨result, hsettles, heval⟩ := ih
      rw [firstComplaint?_negate]
      generalize operand.firstComplaint? = complaint? at hsettles
      cases hsettles with
      | value hk =>
          exact ⟨_, settles_negate hk, fun call session => Eval.bind_of_ok (heval call session)⟩
      | fault fault =>
          exact ⟨.error fault, .fault fault, fun call session =>
            Eval.bind_of_error (heval call session)⟩
  | binary left op right ihleft ihright =>
      obtain ⟨result, hleft, heval⟩ := ihleft
      obtain ⟨result', hright, heval'⟩ := ihright
      rw [firstComplaint?_binary]
      generalize left.firstComplaint? = complaint?, right.firstComplaint? = complaint?'
        at hleft hright
      cases hleft with
      | value hm =>
          -- The right operand is computed only now, so its faults come behind those on the left.
          cases hright with
          | value hn =>
              exact ⟨_, settles_binary op hm hn, fun call session =>
                (Eval.bind_of_ok (heval call session)).trans
                  (Eval.bind_of_ok (heval' call session))⟩
          | fault fault =>
              exact ⟨.error fault, .fault fault, fun call session =>
                (Eval.bind_of_ok (heval call session)).trans
                  (Eval.bind_of_error (heval' call session))⟩
      | fault fault =>
          exact ⟨.error fault, .fault fault, fun call session =>
            Eval.bind_of_error (heval call session)⟩

/-- A program that is one expression has the value of the expression, or its fault. -/
theorem evaluate_expr {e : Expr Nat} {result : Except Fault Value} {session : Session}
    (h : e.eval session.callRule session = Eval.ofExcept result session) :
    session.evaluate [.expr e] =
      (some (match result with
        | .ok value => value
        | .error fault => .error fault.message), session) := by
  rw [Session.evaluate, Item.evalAll]
  cases result with
  | ok value =>
      have hitem : (Item.expr e).eval session.callRule session = .ok (some value) session :=
        Eval.bind_of_ok h
      rw [Eval.bind_of_ok hitem]
      rfl
  | error fault =>
      have hitem : (Item.expr e).eval session.callRule session =
          .error (.fault fault) session := Eval.bind_of_error h
      rw [Eval.bind_of_error hitem]

/-- In any session, an arithmetic expression all of whose nodes can be computed has its
exact value. Any other one fails with the complaint about the first node that cannot be
computed, operands before their operation and left before right. The session stays as it
is, and so it does when the expression is a whole program, whose value is the integer or
the complaint. -/
theorem exact_or_first_fault (e : Arithmetic) (call : CallRule) (session : Session) :
    ((∀ node ∈ e.nodes, node.Computes) →
      ∃ n : Integer, n.toInt = e.exact ∧ e.toExpr.eval call session = .ok (.int n) session ∧
        session.evaluate [.expr e.toExpr] = (some (.int n), session)) ∧
    (∀ before node after, e.nodes = before ++ node :: after →
      (∀ earlier ∈ before, earlier.Computes) → ¬node.Computes →
        ∃ fault : Fault, node.complaint? = some fault.message ∧
          e.toExpr.eval call session = .error (.fault fault) session ∧
          session.evaluate [.expr e.toExpr] = (some (.error fault.message), session)) := by
  obtain ⟨result, hsettles, heval⟩ := e.exists_eval_toExpr
  have hprogram := evaluate_expr (heval session.callRule session)
  constructor
  · intro hcomputes
    have hnone : e.firstComplaint? = none :=
      List.findSome?_eq_none_iff.mpr fun node hnode =>
        complaint?_eq_none_iff.mpr (hcomputes node hnode)
    rw [hnone] at hsettles
    cases hsettles with
    | value hk => exact ⟨_, hk, heval call session, hprogram⟩
  · intro before node after hnodes hbefore hnode
    obtain ⟨message, hmessage⟩ :=
      Option.ne_none_iff_exists'.mp (mt complaint?_eq_none_iff.mp hnode)
    have hfirst : e.firstComplaint? = some message :=
      List.findSome?_eq_some_iff.mpr ⟨before, node, after, hnodes, hmessage,
        fun earlier hearlier => complaint?_eq_none_iff.mpr (hbefore earlier hearlier)⟩
    rw [hfirst] at hsettles
    cases hsettles with
    | fault fault => exact ⟨fault, hmessage, heval call session, hprogram⟩

/-- The quotient of the least integer by minus one is out of range, and that comes before
the division by zero on the right of it. -/
theorem exact_or_first_fault_least :
    let session := Session.start .standard false
    let sound := binary (int 7) .divide (negate (int 2))
    let least := binary (int (-9223372036854775808)) .divide (int (-1))
    let faulty := binary sound .add (binary least .multiply (binary (int 1) .divide (int 0)))
    (∀ node ∈ sound.nodes, node.Computes) ∧
    (∃ n : Integer, n.toInt = -3 ∧
      session.evaluate [.expr sound.toExpr] = (some (.int n), session)) ∧
    ¬least.Computes ∧
    session.evaluate [.expr faulty.toExpr] =
      (some (.error "integer overflow: -9223372036854775808 / -1"), session) := by
  intro session sound least faulty
  have hsound : ∀ node ∈ sound.nodes, node.Computes := by
    intro node hnode
    have hall : ∀ node ∈ sound.nodes, node.complaint? = none := by
      simp only [sound, nodes]
      decide +kernel
    exact complaint?_eq_none_iff.mp (hall node hnode)
  have hleast : least.complaint? = some "integer overflow: -9223372036854775808 / -1" := by
    decide +kernel
  have hcomplains : ¬least.Computes := fun h => by
    rw [complaint?_eq_none_iff.mpr h] at hleast
    cases hleast
  have hbefore : ∀ node ∈ sound.nodes ++ [int (-9223372036854775808), int (-1)],
      node.Computes := by
    intro node hnode
    rcases List.mem_append.mp hnode with hnode | hnode
    · exact hsound node hnode
    · simp only [List.mem_cons, List.not_mem_nil, or_false] at hnode
      rcases hnode with rfl | rfl <;> exact complaint?_eq_none_iff.mp rfl
  obtain ⟨n, hn, -, hvalue⟩ :=
    (exact_or_first_fault sound session.callRule session).1 hsound
  obtain ⟨fault, hfault, -, hfailed⟩ :=
    (exact_or_first_fault faulty session.callRule session).2 _ least _ rfl hbefore hcomplains
  rw [hleast, Option.some_inj] at hfault
  exact ⟨hsound, ⟨n, hn, hvalue⟩, hcomplains, hfault ▸ hfailed⟩

end Arithmetic

end Scriptlet
