import Mathlib.Data.List.Forall2
import Scriptlet.Proofs.Grammar.Canonical
import Scriptlet.Proofs.Grammar.Limit
import Scriptlet.Proofs.Session.Collections
import Scriptlet.Proofs.Session.Joining

/-!
# Data values read back

Numbers, truth values and arrays of them are printed as the language writes them, though the
one was not made from the other. A negative number is printed as a number with a minus sign and
read as an operator on an operand; an array is printed from its elements and read as a list of
expressions, whose evaluation makes the array anew. So the text that printing a value gives is a
program, and its value is alike. Main result: `Session.run_render`.
-/

namespace Scriptlet

open Grammar Scriptlet.Parser Token

/-- A value that a text can tell, with arrays in arrays so deep at most. There is no way to
write the least of all integers. -/
inductive Value.IsData : Nat → Value → Prop where
  | int {depth : Nat} {n : Integer} (h : n ≠ Int64.minValue) : IsData depth (.int n)
  | bool {depth : Nat} (b : Bool) : IsData depth (.bool b)
  | array {depth birth : Nat} {elements : List Value}
      (h : ∀ element ∈ elements, IsData depth element) : IsData (depth + 1) (.array birth elements)

/-- The expression has no literals that are numbered. Wherever it is evaluated, it only makes
arrays and has a value alike. -/
def Expr.Yields (e : Expr Unit) (value : Value) : Prop :=
  ∃ loaded : Expr Nat, e.number = pure loaded ∧
    ∀ (call : CallRule) (session : Session), ∃ read made,
      loaded.eval call session = .ok read (session.aged made) ∧ read.alike value = true

namespace Expr.Yields

theorem lit (literal : Literal) : (Expr.lit literal).Yields (.ofLiteral literal) :=
  ⟨.lit literal, rfl, fun _ _ => ⟨_, 0, rfl, Value.alike_refl _⟩⟩

theorem negate {m n : Integer} (h : n.toInt = -m.toInt) :
    (Expr.unary .negate (.lit (.int m))).Yields (.int n) := by
  refine ⟨.unary .negate (.lit (.int m)), rfl, fun call session => ?_⟩
  have happly : UnaryOp.negate.apply (.int m) = .ok (.int n) := by
    rw [UnaryOp.apply, ← h, Integer.orFault, Integer.ofInt?_toInt]
  refine ⟨.int n, 0, ?_, Value.alike_refl _⟩
  have hoperand : (Expr.lit (.int m) : Expr Nat).eval call session = .ok (.int m) session := rfl
  refine (Eval.bind_of_ok hoperand).trans ?_
  rw [happly]
  rfl

theorem array {es : List (Expr Unit)} {elements : List Value}
    (h : List.Forall₂ Expr.Yields es elements) (birth : Nat) :
    (Expr.array es).Yields (.array birth elements) := by
  have hall : ∃ loaded : List (Expr Nat), Expr.numberEach es = pure loaded ∧
      ∀ (call : CallRule) (session : Session), ∃ read made,
        Expr.evalAll call loaded session = .ok read (session.aged made) ∧
          Value.allAlike read elements = true := by
    induction h with
    | nil => exact ⟨[], rfl, fun _ _ => ⟨[], 0, rfl, rfl⟩⟩
    | cons he _ ih =>
        obtain ⟨first, hfirst, hvalue⟩ := he
        obtain ⟨others, hothers, hvalues⟩ := ih
        refine ⟨first :: others, ?_, fun call session => ?_⟩
        · simp only [Expr.numberEach, hfirst, hothers, pure_bind]
        · obtain ⟨read, made, hread, halike⟩ := hvalue call session
          obtain ⟨reads, more, hreads, hallAlike⟩ := hvalues call (session.aged made)
          refine ⟨read :: reads, made + more, ?_, by simp [Value.allAlike, halike, hallAlike]⟩
          refine (Eval.bind_of_ok hread).trans ((Eval.bind_of_ok hreads).trans ?_)
          rw [Session.aged_aged]
          rfl
  obtain ⟨loaded, hnumber, hvalues⟩ := hall
  refine ⟨.array loaded, ?_, fun call session => ?_⟩
  · simp only [Expr.number, hnumber, pure_bind]
  · obtain ⟨reads, made, hreads, halike⟩ := hvalues call session
    refine ⟨.array (session.aged made).births reads, made + 1,
      (Eval.bind_of_ok hreads).trans ?_, halike⟩
    rw [← Session.aged_aged]
    rfl

end Expr.Yields

namespace Grammar

variable {α β : Type} {element : List Token → α → Prop} {Rel : α → β → Prop} {c : List Token}
  {bs : List β}

/-- What is related to the elements of a list is related to it element by element. -/
theorem Separated.exists_forall₂
    (h : Separated (fun c b => ∃ a, element c a ∧ Rel a b) c bs) :
    ∃ as, Separated element c as ∧ List.Forall₂ Rel as bs := by
  induction h with
  | last ha =>
      obtain ⟨a, ha, hrel⟩ := ha
      exact ⟨[a], .last ha, .cons hrel .nil⟩
  | more ha hcomma _ ih =>
      obtain ⟨a, ha, hrel⟩ := ha
      obtain ⟨as, has, hall⟩ := ih
      exact ⟨a :: as, .more ha hcomma has, .cons hrel hall⟩

theorem ListBehind.exists_forall₂ {closing : Token.Kind}
    (h : ListBehind closing (fun c b => ∃ a, element c a ∧ Rel a b) c bs) :
    ∃ as, ListBehind closing element c as ∧ List.Forall₂ Rel as bs := by
  cases h with
  | empty hclose => exact ⟨[], .empty hclose, .nil⟩
  | filled hbs hclose =>
      obtain ⟨as, has, hall⟩ := hbs.exists_forall₂
      exact ⟨as, .filled has hclose, hall⟩

end Grammar

namespace Grammar.Chain

variable {levels : Nat} {token : Token} {bound : Precedence} {dangling : Bool}

theorem int {inner : Nested} {n : Integer} (hkind : token.kind = .int)
    (hread : Integer.read? token.lexeme.toList = some n) :
    Chain inner [token] (.lit (.int n)) bound dangling :=
  .start fun rest _ => by simp only [List.nil_append, operand_apply, hkind, hread]

theorem bool {inner : Nested} {b : Bool}
    (hkind : token.kind = if b then .trueWord else .falseWord) :
    Chain inner [token] (.lit (.bool b)) bound dangling :=
  .start fun rest _ => by cases b <;> simp [operand_apply, hkind]

/-- A number with an operator before it takes a level more. -/
theorem unary {number : Token} {n : Integer} (op : UnaryOp)
    (hop : UnaryOp.ofKind? token.kind = some op) (hkind : number.kind = .int)
    (hread : Integer.read? number.lexeme.toList = some n) :
    Chain (.within (levels + 1)) [token, number] (.unary op (.lit (.int n))) .unary dangling := by
  refine .start fun rest hstops => operand_unary hop ?_
  have hnumber : operand (Nested.within levels) number rest = .ok (.lit (.int n)) rest := by
    simp only [operand_apply, hkind, hread]
  change expr (Nested.within levels) .unary (number :: rest) = _
  rw [expr_cons, bind_of_ok hnumber]
  exact iterate_of_none (extend_advances (Nested.within_reading levels) .unary)
    ((extend_eq_ok_none _).mpr ⟨rfl, fun token htoken => (hstops token htoken).1⟩)

/-- A list of chains in brackets takes a level more than they do. -/
theorem array {before : Precedence} (hkind : token.kind = .leftBracket) {c : List Token}
    {es : List (Expr Unit)}
    (h : ListBehind .rightBracket (fun c e => Chain (.within levels) c e before false) c es) :
    Chain (.within (levels + 1)) (token :: c) (.array es) bound dangling := by
  refine .start fun rest _ => operand_array hkind ?_
  refine ListBehind.complete .closeBracket
    (fun count => ((Nested.within_reading (levels + 1)).suffix count).expr .lowest) ?_ ?_
    (by decide) h
  · intro c e next rest he hnext
    refine he.complete (.of_closing ?_)
    rcases hnext with hnext | hnext <;> simp [hnext, ParseError.Required.kind]
  · intro c e he
    obtain ⟨first, others, rfl, hfirst⟩ := he.starts
    refine ⟨first, others, rfl, fun heq => ?_⟩
    rw [heq] at hfirst
    exact absurd hfirst (by decide)

end Grammar.Chain

/-- The tokens are read as an expression that yields the value, with so many levels for what is
inside of it. -/
def Value.IsReadFrom (value : Value) (levels : Nat) (tokens : List Token) : Prop :=
  ∃ e, Chain (.within levels) tokens e .unary false ∧ e.Yields value

namespace Value.IsReadFrom

variable {levels : Nat} {tokens : List Token}

theorem bool {b : Bool} {token : Token}
    (hkind : token.kind = if b then .trueWord else .falseWord) :
    (Value.bool b).IsReadFrom levels [token] :=
  ⟨_, .bool hkind, .lit (.bool b)⟩

theorem int {n : Integer} {token : Token} (hkind : token.kind = .int)
    (hlexeme : token.lexeme = n.text) : (Value.int n).IsReadFrom levels [token] := by
  have hread : Integer.read? token.lexeme.toList = some n := hlexeme ▸ n.read?_text
  exact ⟨_, .int hkind hread, .lit (.int n)⟩

theorem negative {m n : Integer} (h : n.toInt = -m.toInt) {minus token : Token}
    (hminus : minus.kind = .minus) (hkind : token.kind = .int) (hlexeme : token.lexeme = m.text) :
    (Value.int n).IsReadFrom (levels + 1) [minus, token] := by
  have hread : Integer.read? token.lexeme.toList = some m := hlexeme ▸ m.read?_text
  exact ⟨_, .unary .negate (by rw [hminus]; rfl) hkind hread, .negate h⟩

theorem array {birth : Nat} {elements : List Value} {token : Token}
    (hkind : token.kind = .leftBracket)
    (h : ListBehind .rightBracket (fun c value => value.IsReadFrom levels c) tokens elements) :
    (Value.array birth elements).IsReadFrom (levels + 1) (token :: tokens) := by
  obtain ⟨es, hes, hyields⟩ := h.exists_forall₂
  exact ⟨.array es, .array hkind hes, .array hyields birth⟩

end Value.IsReadFrom

/-- A negative integer is printed as the opposite one behind a minus sign, except for the least,
which has no opposite. -/
theorem Integer.text_negative {n : Integer} (h : n.toInt < 0) (hmin : n ≠ Int64.minValue) :
    ∃ m : Integer, n.toInt = -m.toInt ∧ 0 ≤ m.toInt ∧ n.text.toList = '-' :: m.text.toList := by
  obtain ⟨k, hk⟩ := Int.eq_negSucc_of_lt_zero h
  have hrange : -9223372036854775808 ≤ n.toInt := n.le_toInt
  have hne : n.toInt ≠ -9223372036854775808 := fun heq =>
    hmin (Int64.toInt_inj.mp (heq.trans (by decide)))
  obtain ⟨m, hm⟩ : ∃ m, Integer.ofInt? ((k + 1 : Nat) : Int) = some m := by
    refine Option.ne_none_iff_exists'.mp fun hnone => ?_
    have hout := Integer.ofInt?_eq_none_iff.mp hnone
    omega
  have hvalue : m.toInt = ((k + 1 : Nat) : Int) := Integer.ofInt?_eq_some_iff.mp hm
  refine ⟨m, by rw [hk, hvalue]; rfl, by rw [hvalue]; exact Int.natCast_nonneg _, ?_⟩
  have htext : m.text = String.ofList (Nat.toDigits 10 (k + 1)) := by
    rw [text, hvalue]
    rfl
  rw [text, hk, htext, Text.Decimal.write, String.toList_ofList, String.toList_ofList]

/-- The text of a data value is read as an expression that yields it, wherever it stands. -/
theorem Value.IsData.spelled {depth levels : Nat} {value : Value} (h : value.IsData depth)
    (hlevels : depth < levels) (rest : List Char) (hrest : Separate rest) :
    Spelled (value.IsReadFrom levels) (value.render.toList ++ rest) rest := by
  induction h generalizing levels rest with
  | @int depth n hmin =>
      by_cases hneg : n.toInt < 0
      · obtain ⟨levels, rfl⟩ := Nat.exists_eq_add_one_of_ne_zero (Nat.ne_zero_of_lt hlevels)
        obtain ⟨m, hopposite, hnonneg, htext⟩ := Integer.text_negative hneg hmin
        have hminus := spelled_sign (c := '-') rfl (fun _ => rfl) (m.text.toList ++ rest)
        rw [render, htext]
        refine hminus.append (spelled_int hnonneg hrest) fun tokens more htokens hmore => ?_
        obtain ⟨minus, rfl, hminus, _⟩ := htokens
        obtain ⟨token, rfl, hkind, hlexeme⟩ := hmore
        exact .negative hopposite hminus hkind hlexeme
      · refine (spelled_int (Int.not_lt.mp hneg) hrest).mono fun tokens htokens => ?_
        obtain ⟨token, rfl, hkind, hlexeme⟩ := htokens
        exact .int hkind hlexeme
  | bool b =>
      refine (spelled_bool b hrest).mono fun tokens htokens => ?_
      obtain ⟨token, rfl, hkind, _⟩ := htokens
      exact .bool hkind
  | @array depth birth elements _ ih =>
      obtain ⟨levels, rfl⟩ := Nat.exists_eq_add_one_of_ne_zero (Nat.ne_zero_of_lt hlevels)
      have htext : (Value.array birth elements).render.toList ++ rest =
          '[' :: ((commaSeparated (elements.map render)).toList ++ ']' :: rest) := by
        simp [render]
      have hopening := spelled_sign (c := '[') rfl (fun _ => rfl)
        ((commaSeparated (elements.map render)).toList ++ ']' :: rest)
      have hlist := spelled_list (fun tokens value => value.IsReadFrom levels tokens) render
        (c := ']') rfl (fun _ => rfl) elements
        (fun element helement rest hrest =>
          ih element helement (Nat.lt_of_succ_lt_succ hlevels) rest hrest) rest
      rw [htext]
      exact hopening.cons hlist fun opening tokens hkind _ htokens => .array hkind htokens

/-- Data values read back, whatever has happened in the session: the text that printing a value
gives is a program without errors, and running it makes nothing but arrays and has a value
alike. -/
theorem Session.run_render {value : Value} (h : value.IsData 1000) (session : Session) :
    (Parsed.ofText value.render).errors = [] ∧
      ∃ read made, session.run value.render = (.ok (some read), session.aged made) ∧
        read.alike value = true := by
  have htext := h.spelled (by decide : 1000 < 1023) [] Separate.nil
  rw [List.append_nil] at htext
  obtain ⟨e, hchain, loaded, hnumber, hyields⟩ := Spelled.ofText htext
  have hparsed : Parsed.ofText value.render = ⟨[.expr e], []⟩ := hchain.ofTokens
  have herrors : (Parsed.ofText value.render).errors = [] := by rw [hparsed]
  have hload : session.load (Parsed.ofText value.render).program = ([.expr loaded], session) := by
    rw [hparsed]
    simp only [load, Item.numberEach, Item.number, hnumber, pure_bind]
    rfl
  obtain ⟨read, made, hread, halike⟩ := hyields session.callRule session
  have houtcome : Item.evalAll session.callRule none
      (session.load (Parsed.ofText value.render).program).1
      (session.load (Parsed.ofText value.render).program).2 =
        .ok (some read) (session.aged made) := by
    have hitem : (Item.expr loaded).eval session.callRule session =
        .ok (some read) (session.aged made) := Eval.bind_pure some hread
    rw [hload]
    exact Eval.bind_of_ok hitem
  exact ⟨herrors, read, made, run_of_errors_eq_nil herrors houtcome, halike⟩

/-- The integers next to the least one and the greatest, in arrays in an array. -/
theorem Session.run_render_nested :
    let value : Value := .array 5 [.int (-9223372036854775807), .array 2 [],
      .array 2 [.bool true, .int 9223372036854775807]]
    value.IsData 1000 ∧
      value.render = "[-9223372036854775807, [], [true, 9223372036854775807]]" ∧
      ∃ read made, (Session.start .standard true).run value.render =
        (.ok (some read), (Session.start .standard true).aged made) ∧ read.alike value = true := by
  intro value
  have hdata : value.IsData 1000 := by
    refine .array (List.forall_mem_cons.mpr ⟨.int (by decide), ?_⟩)
    refine List.forall_mem_cons.mpr ⟨.array (by simp), List.forall_mem_singleton.mpr ?_⟩
    exact .array (List.forall_mem_cons.mpr ⟨.bool true,
      List.forall_mem_singleton.mpr (.int (by decide))⟩)
  exact ⟨hdata, by decide +kernel, (run_render hdata (Session.start .standard true)).2⟩

end Scriptlet
