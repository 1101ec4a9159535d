import Scriptlet.Proofs.Program.Opening
import Scriptlet.Proofs.Text.Quoted

/-!
# Canonical texts tell programs apart

An expression cannot be told from its canonical text alone where calls come behind it:
they may belong to it or not. But one of two expressions with the same text in front of
them is then the other one, called. Everything else shows its own end, so a program is
determined by its canonical text. Main result: `Program.render_inj`.
-/

namespace Scriptlet

open Token

variable {r s : List Char}

section Lists

variable {α : Type} {before : α → List Char → List Char} {close : Char}

/-- A comma or the closing bracket comes next. -/
def EndsElement (close : Char) (rest : List Char) : Prop :=
  rest.head? = some ',' ∨ rest.head? = some close

theorem endsElement_moreBefore (before : α → List Char → List Char) (as : List α)
    (rest : List Char) : EndsElement close (moreBefore before close as rest) := by
  cases as with
  | nil => exact .inr rfl
  | cons a as => exact .inl rfl

/-- Elements that are told apart where they end, of lists that are told apart. -/
theorem moreBefore_inj (hclose : close ≠ ',') {as bs : List α}
    (hinj : ∀ a ∈ as, ∀ b ∈ bs, ∀ {r s : List Char}, EndsElement close r → EndsElement close s →
      before a r = before b s → a = b ∧ r = s)
    (h : moreBefore before close as r = moreBefore before close bs s) : as = bs ∧ r = s := by
  induction as generalizing bs with
  | nil =>
      cases bs with
      | nil => exact ⟨rfl, (List.cons.inj h).2⟩
      | cons b bs => exact absurd (List.cons.inj h).1 hclose
  | cons a as ih =>
      cases bs with
      | nil => exact absurd (List.cons.inj h).1.symm hclose
      | cons b bs =>
          have hfirst := (List.cons.inj (List.cons.inj h).2).2
          obtain ⟨rfl, hmore⟩ := hinj a List.mem_cons_self b List.mem_cons_self
            (endsElement_moreBefore before as r) (endsElement_moreBefore before bs s) hfirst
          obtain ⟨rfl, hrest⟩ := ih (fun a ha b hb => hinj a (List.mem_cons_of_mem _ ha) b
            (List.mem_cons_of_mem _ hb)) hmore
          exact ⟨rfl, hrest⟩

theorem listBefore_inj (hclose : close ≠ ',') {as bs : List α}
    (hinj : ∀ a ∈ as, ∀ b ∈ bs, ∀ {r s : List Char}, EndsElement close r → EndsElement close s →
      before a r = before b s → a = b ∧ r = s)
    (hopens : ∀ a, a ∈ as ∨ a ∈ bs → ∀ {r : List Char}, EndsElement close r →
      (before a r).head? ≠ some close)
    (h : listBefore before close as r = listBefore before close bs s) : as = bs ∧ r = s := by
  cases as with
  | nil =>
      cases bs with
      | nil => exact ⟨rfl, (List.cons.inj h).2⟩
      | cons b bs =>
          have hhead := hopens b (.inr List.mem_cons_self) (endsElement_moreBefore before bs s)
          exact absurd (congrArg List.head? h).symm hhead
  | cons a as =>
      cases bs with
      | nil =>
          have hhead := hopens a (.inl List.mem_cons_self) (endsElement_moreBefore before as r)
          exact absurd (congrArg List.head? h) hhead
      | cons b bs =>
          obtain ⟨rfl, hmore⟩ := hinj a List.mem_cons_self b List.mem_cons_self
            (endsElement_moreBefore before as r) (endsElement_moreBefore before bs s) h
          obtain ⟨rfl, hrest⟩ := moreBefore_inj hclose (fun a ha b hb =>
            hinj a (List.mem_cons_of_mem _ ha) b (List.mem_cons_of_mem _ hb)) hmore
          exact ⟨rfl, hrest⟩

end Lists

/-- Two names in front of what is no part of a name. -/
theorem name_append_inj {a b : String} (ha : isName a = true) (hb : isName b = true)
    (hr : Separate r) (hs : Separate s) (h : a.toList ++ r = b.toList ++ s) :
    a = b ∧ r = s := by
  have hopening := (Opening.of_name ha hr).symm.trans ((congrArg _ h).trans (Opening.of_name hb hs))
  have hword : a.toList = b.toList := (Opening.word.inj (Option.some.inj hopening)).2
  rw [hword] at h
  exact ⟨String.toList_inj.mp hword, List.append_cancel_left h⟩

theorem params_inj {as bs : List String} (has : ∀ name ∈ as, isName name = true)
    (hbs : ∀ name ∈ bs, isName name = true) (h : paramsBefore as r = paramsBefore bs s) :
    as = bs ∧ r = s := by
  have hend {rest : List Char} (hrest : EndsElement ')' rest) : Separate rest := by
    intro c hc
    rcases hrest with hcomma | hclose
    · rw [hcomma] at hc
      cases hc
      decide
    · rw [hclose] at hc
      cases hc
      decide
  refine listBefore_inj (by decide) (fun a ha b hb _ _ hr hs heq => ?_)
    (fun a ha _ hr hhead => ?_) h
  · exact name_append_inj (has a ha) (hbs b hb) (hend hr) (hend hs) heq
  · have hname : isName a = true := ha.elim (has a) (hbs a)
    have hopening := Opening.of_name hname (hend hr)
    obtain ⟨cs, hcs⟩ := List.head?_eq_some_iff.mp hhead
    rw [hcs] at hopening
    cases hopening

namespace Expr

/-- An expression called with arguments after arguments. -/
def applied (e : Expr Unit) : List (List (Expr Unit)) → Expr Unit
  | [] => e
  | args :: calls => (Expr.call e args).applied calls

/-- The arguments of calls in front of other text. -/
def callsBefore : List (List (Expr Unit)) → List Char → List Char
  | [], rest => rest
  | args :: calls, rest => '(' :: argumentsBefore ')' args (callsBefore calls rest)

theorem before_applied (e : Expr Unit) (calls : List (List (Expr Unit))) (rest : List Char) :
    (e.applied calls).before rest = e.before (callsBefore calls rest) := by
  induction calls generalizing e with
  | nil => rfl
  | cons args calls ih => rw [applied, ih, before_call, callsBefore]

theorem applied_concat (e : Expr Unit) (calls : List (List (Expr Unit)))
    (args : List (Expr Unit)) : e.applied (calls ++ [args]) = .call (e.applied calls) args := by
  induction calls generalizing e with
  | nil => rfl
  | cons first calls ih => exact ih _

theorem callsBefore_concat (calls : List (List (Expr Unit))) (args : List (Expr Unit))
    (rest : List Char) :
    callsBefore (calls ++ [args]) rest =
      callsBefore calls ('(' :: argumentsBefore ')' args rest) := by
  induction calls with
  | nil => rfl
  | cons first calls ih => rw [List.cons_append, callsBefore, ih, callsBefore]

theorem IsSource.of_applied {e : Expr Unit} {calls : List (List (Expr Unit))}
    (h : (e.applied calls).IsSource) : e.IsSource ∧ ∀ args ∈ calls, ∀ a ∈ args, a.IsSource := by
  induction calls generalizing e with
  | nil => exact ⟨h, List.forall_mem_nil _⟩
  | cons args calls ih =>
      obtain ⟨hcall, hcalls⟩ := ih h
      exact ⟨hcall.1, List.forall_mem_cons.mpr ⟨allSource_iff.mp hcall.2, hcalls⟩⟩

/-- Whether an expression is a call. -/
def IsCall : Expr Unit → Prop
  | .call _ _ => True
  | _ => False

theorem exists_head : ∀ e : Expr Unit, ∃ (head : Expr Unit) (calls : List (List (Expr Unit))),
    ¬head.IsCall ∧ e = head.applied calls
  | .call callee args => by
      obtain ⟨head, calls, hhead, heq⟩ := Expr.exists_head callee
      exact ⟨head, calls ++ [args], hhead, by rw [applied_concat, ← heq]⟩
  | .var name => ⟨.var name, [], id, rfl⟩
  | .lit literal => ⟨.lit literal, [], id, rfl⟩
  | .unary op operand => ⟨.unary op operand, [], id, rfl⟩
  | .binary left op right => ⟨.binary left op right, [], id, rfl⟩
  | .cond test yes no => ⟨.cond test yes no, [], id, rfl⟩
  | .fn mark params body => ⟨.fn mark params body, [], id, rfl⟩
  | .array elements => ⟨.array elements, [], id, rfl⟩
  | .index base position => ⟨.index base position, [], id, rfl⟩

theorem follows_callsBefore (calls : List (List (Expr Unit))) (hs : Follows s) :
    Follows (callsBefore calls s) := by
  cases calls with
  | nil => exact hs
  | cons args calls => exact .cons (by decide) (by decide) _

/-- Of two expressions with the same text in front of them, one is the other, called. -/
def Distinct (e : Expr Unit) : Prop :=
  ∀ (e' : Expr Unit) (r s : List Char), e'.IsSource → Follows r → Follows s →
    e.before r = e'.before s →
      (∃ calls, e' = e.applied calls ∧ r = callsBefore calls s) ∨
      (∃ calls, e = e'.applied calls ∧ s = callsBefore calls r)

/-- Where no arguments come next, an expression is determined by its text. -/
theorem Distinct.eq {e e' : Expr Unit} (h : e.Distinct) (he' : e'.IsSource) (hr : Follows r)
    (hs : Follows s) (hr' : r.head? ≠ some '(') (hs' : s.head? ≠ some '(')
    (heq : e.before r = e'.before s) : e = e' ∧ r = s := by
  rcases h e' r s he' hr hs heq with ⟨calls, hcalls, hrest⟩ | ⟨calls, hcalls, hrest⟩
  · cases calls with
    | nil => exact ⟨hcalls.symm, hrest⟩
    | cons args calls => exact absurd (congrArg List.head? hrest) hr'
  · cases calls with
    | nil => exact ⟨hcalls, hrest.symm⟩
    | cons args calls => exact absurd (congrArg List.head? hrest) hs'

/-- In front of a sign that cannot begin arguments an expression is determined. -/
theorem Distinct.eq_cons {e e' : Expr Unit} {c : Char} (h : e.Distinct) (he' : e'.IsSource)
    (heq : e.before (c :: r) = e'.before (c :: s))
    (hc : (isWordChar c = false ∧ c.isDigit = false) ∧ c ≠ ' ' ∧ c ≠ '(') :
    e = e' ∧ r = s := by
  obtain ⟨he, hrest⟩ := h.eq he' (.cons hc.1 hc.2.1 r) (.cons hc.1 hc.2.1 s)
    (by simpa using hc.2.2) (by simpa using hc.2.2) heq
  exact ⟨he, (List.cons.inj hrest).2⟩

/-- An expression that is no call has to be compared with others that are none. -/
theorem Distinct.of_head {e : Expr Unit} (hsource : e.IsSource)
    (h : ∀ (e' : Expr Unit) (r s : List Char), ¬e'.IsCall → e'.IsSource → Follows r → Follows s →
      e'.opening = e.opening → e.before r = e'.before s → e = e' ∧ r = s) : e.Distinct := by
  intro e' r s he' hr hs heq
  obtain ⟨head, calls, hhead, rfl⟩ := e'.exists_head
  rw [before_applied] at heq
  have hsource' := he'.of_applied.1
  have hs' := follows_callsBefore calls hs
  have hopening : some head.opening = some e.opening := by
    rw [← e.of_before hr.separate hsource, heq, head.of_before hs'.separate hsource']
  obtain ⟨rfl, hrest⟩ := h head r _ hhead hsource' hr hs' (Option.some.inj hopening) heq
  exact .inl ⟨calls, rfl, hrest⟩

theorem arguments_inj {close : Char} (hclose : close = ')' ∨ close = ']')
    {es es' : List (Expr Unit)} (hes : ∀ e ∈ es, e.IsSource ∧ e.Distinct)
    (hes' : ∀ e ∈ es', e.IsSource)
    (h : argumentsBefore close es r = argumentsBefore close es' s) : es = es' ∧ r = s := by
  have hend {rest : List Char} (hrest : EndsElement close rest) :
      Follows rest ∧ rest.head? ≠ some '(' := by
    rcases hrest with hcomma | hrest
    · obtain ⟨cs, rfl⟩ := List.head?_eq_some_iff.mp hcomma
      exact ⟨.cons (by decide) (by decide) _, by simp⟩
    · obtain ⟨cs, rfl⟩ := List.head?_eq_some_iff.mp hrest
      rcases hclose with rfl | rfl <;> exact ⟨.cons (by decide) (by decide) _, by simp⟩
  refine listBefore_inj (by rcases hclose with rfl | rfl <;> decide)
    (fun e he e' he' _ _ hr hs heq => ?_) (fun e he _ hr hhead => ?_) h
  · have he : e.Distinct := (hes e he).2
    exact he.eq (hes' e' he') (hend hr).1 (hend hs).1 (hend hr).2 (hend hs).2 heq
  · have hsource : e.IsSource := he.elim (fun he => (hes e he).1) (hes' e)
    have hopening := e.of_before (hend hr).1.separate hsource
    obtain ⟨cs, hcs⟩ := List.head?_eq_some_iff.mp hhead
    rw [hcs] at hopening
    rcases hclose with rfl | rfl <;> cases hopening

end Expr

/-- What may come behind an item. -/
structure EndsItem (rest : List Char) : Prop where
  follows : Follows rest
  noCall : rest.head? ≠ some '('

/-- Behind an item comes a blank, and then another item or the closing brace. -/
theorem endsItem_itemsBefore {items : List (Item Unit)} (h : Item.AllSource items)
    (rest : List Char) : EndsItem (' ' :: itemsBefore items rest) := by
  refine ⟨.blank ?_, by simp⟩
  cases items with
  | nil => exact nofun
  | cons item items =>
      rw [itemsBefore, Item.of_before (.cons (by decide) _) h.1]
      exact fun heq => item.opening_ne_else _ (Option.some.inj heq)

/-- An item is determined by its text, where something comes behind that no item takes. -/
def Item.Distinct (item : Item Unit) : Prop :=
  ∀ (item' : Item Unit) (r s : List Char), item'.IsSource → EndsItem r → EndsItem s →
    item.before r = item'.before s → item = item' ∧ r = s

theorem Item.items_inj {items items' : List (Item Unit)}
    (h : ∀ item ∈ items, item.IsSource ∧ item.Distinct) (h' : Item.AllSource items')
    (heq : itemsBefore items r = itemsBefore items' s) : items = items' ∧ r = s := by
  induction items generalizing items' with
  | nil =>
      cases items' with
      | nil => exact ⟨rfl, (List.cons.inj heq).2⟩
      | cons item items =>
          have hopening := Item.of_before (endsItem_itemsBefore h'.2 s).follows.separate h'.1
          rw [itemsBefore, itemsBefore] at heq
          rw [← heq] at hopening
          cases hopening
  | cons item items ih =>
      obtain ⟨⟨hsource, hdistinct⟩, hitems⟩ := List.forall_mem_cons.mp h
      have hall : Item.AllSource items :=
        Item.allSource_iff.mpr fun other hother => (hitems other hother).1
      cases items' with
      | nil =>
          have hopening := Item.of_before (endsItem_itemsBefore hall r).follows.separate hsource
          rw [itemsBefore, itemsBefore] at heq
          rw [heq] at hopening
          cases hopening
      | cons item' items' =>
          obtain ⟨rfl, hrest⟩ := hdistinct item' _ _ h'.1 (endsItem_itemsBefore hall r)
            (endsItem_itemsBefore h'.2 s) heq
          obtain ⟨rfl, hbehind⟩ := ih hitems h'.2 (List.cons.inj hrest).2
          exact ⟨rfl, hbehind⟩

theorem Item.block_inj {items items' : List (Item Unit)}
    (h : ∀ item ∈ items, item.IsSource ∧ item.Distinct) (h' : Item.AllSource items')
    (heq : blockBefore items r = blockBefore items' s) : items = items' ∧ r = s := by
  cases items with
  | nil =>
      cases items' with
      | nil => exact ⟨rfl, (List.cons.inj (List.cons.inj heq).2).2⟩
      | cons item items => cases (List.cons.inj (List.cons.inj heq).2).1
  | cons item items =>
      cases items' with
      | nil => cases (List.cons.inj (List.cons.inj heq).2).1
      | cons item' items' => exact items_inj h h' (List.cons.inj (List.cons.inj heq).2).2

theorem Item.else_inj {no no' : Option (List (Item Unit))}
    (h : ∀ items ∈ no, ∀ item ∈ items, item.IsSource ∧ item.Distinct) (h' : Item.ElseSource no')
    (hr : Follows r) (hs : Follows s) (heq : elseBefore no r = elseBefore no' s) :
    no = no' ∧ r = s := by
  have helse (items : List (Item Unit)) (rest : List Char) :
      Opening.of ('e' :: 'l' :: 's' :: 'e' :: ' ' :: blockBefore items rest) =
        some (.word .elseWord "else".toList) :=
    @Opening.of_word _ "else" (by decide) (by decide) (.cons (by decide) _)
  cases no with
  | none =>
      cases no' with
      | none => exact ⟨rfl, heq⟩
      | some items => exact absurd (helse items s) (hr.noElse heq)
  | some items =>
      cases no' with
      | none => exact absurd (helse items r) (hs.noElse heq.symm)
      | some items' =>
          simp only [elseBefore, List.cons.injEq, true_and] at heq
          obtain ⟨rfl, hrest⟩ := block_inj (h items rfl) h' heq
          exact ⟨rfl, hrest⟩

theorem number_append_inj {m n : Integer} (hm : 0 ≤ m.toInt) (hn : 0 ≤ n.toInt)
    (hr : Separate r) (hs : Separate s) (h : m.text.toList ++ r = n.text.toList ++ s) :
    m = n ∧ r = s := by
  have htake {k : Integer} (hk : 0 ≤ k.toInt) {rest : List Char} (hrest : Separate rest) :
      (k.text.toList ++ rest).takeWhile Char.isDigit = k.text.toList := by
    have hspan := @span_append Char.isDigit k.text.toList rest fun _ c hc => (hrest c hc).2
    rw [hspan.1, List.takeWhile_eq_self_iff.mpr (text_eq_digits hk).2]
  have hdigits : m.text.toList = n.text.toList := by
    rw [← htake hm hr, h, htake hn hs]
  have hread := m.read?_text
  rw [hdigits, n.read?_text] at hread
  rw [hdigits] at h
  exact ⟨(Option.some.inj hread).symm, List.append_cancel_left h⟩

theorem BinaryOp.symbol_append_inj {op op' : BinaryOp}
    (h : op.symbol.toList ++ ' ' :: r = op'.symbol.toList ++ ' ' :: s) : op = op' ∧ r = s := by
  cases op <;> cases op' <;> simp_all [BinaryOp.symbol]

namespace Expr.Distinct

theorem var {name : String} (hname : isName name = true) : (Expr.var name).Distinct := by
  refine .of_head hname fun e' r s hcall hsource hr hs hopening heq => ?_
  cases e' with
  | var name' =>
      obtain ⟨rfl, hrest⟩ := name_append_inj hname hsource hr.separate hs.separate heq
      exact ⟨rfl, hrest⟩
  | call => exact absurd trivial hcall
  | lit literal => rcases literal with _ | _ | (_ | _) <;> cases hopening
  | unary | binary | cond | fn | array | index => cases hopening

theorem lit {literal : Literal} (hliteral : literal.IsSource) : (Expr.lit literal).Distinct := by
  refine .of_head hliteral fun e' r s hcall hsource hr hs hopening heq => ?_
  cases e' with
  | lit literal' =>
      rcases literal with n | t | (_ | _) <;> rcases literal' with n' | t' | (_ | _) <;>
        try cases hopening
      · obtain ⟨rfl, hrest⟩ := number_append_inj hliteral hsource hr.separate hs.separate heq
        exact ⟨rfl, hrest⟩
      · obtain ⟨rfl, hrest⟩ := Text.quote_append_inj heq
        exact ⟨rfl, hrest⟩
      · exact ⟨rfl, List.append_cancel_left heq⟩
      · exact ⟨rfl, List.append_cancel_left heq⟩
  | call => exact absurd trivial hcall
  | var | unary | binary | cond | fn | array | index =>
      rcases literal with _ | _ | (_ | _) <;> cases hopening

theorem unary (op : UnaryOp) {operand : Expr Unit} (hsource : operand.IsSource)
    (h : operand.Distinct) : (Expr.unary op operand).Distinct := by
  refine .of_head hsource fun e' r s hcall hsource' _ _ hopening heq => ?_
  cases e' with
  | unary op' operand' =>
      cases hopening
      rw [before_unary, before_unary] at heq
      have hoperand' : operand'.IsSource := hsource'
      have hbehind := List.append_cancel_left (List.cons.inj heq).2
      obtain ⟨rfl, hrest⟩ := h.eq_cons hoperand' hbehind (by decide)
      exact ⟨rfl, hrest⟩
  | call => exact absurd trivial hcall
  | lit literal => rcases literal with _ | _ | (_ | _) <;> cases hopening
  | var | binary | cond | fn | array | index => cases hopening

/-- Behind the left operand of an operator comes a blank. -/
theorem follows_operator (op : BinaryOp) (rest : List Char) :
    Follows (' ' :: (op.symbol.toList ++ rest)) := by
  refine .blank ?_
  cases op <;> exact nofun

theorem binary {left right : Expr Unit} (op : BinaryOp)
    (hsource : left.IsSource ∧ right.IsSource) (hleft : left.Distinct) (hright : right.Distinct) :
    (Expr.binary left op right).Distinct := by
  refine .of_head hsource fun e' r s hcall hsource' _ _ hopening heq => ?_
  cases e' with
  | binary left' op' right' =>
      rw [before_binary, before_binary] at heq
      obtain ⟨rfl, hbehind⟩ := hleft.eq hsource'.1 (follows_operator op _)
        (follows_operator op' _) (by simp) (by simp) (List.cons.inj heq).2
      obtain ⟨rfl, hoperand⟩ := BinaryOp.symbol_append_inj (List.cons.inj hbehind).2
      obtain ⟨rfl, hrest⟩ := hright.eq_cons hsource'.2 hoperand (by decide)
      exact ⟨rfl, hrest⟩
  | index base position =>
      -- A blank behind the left operand, a bracket behind what is indexed.
      rw [before_binary, before_index] at heq
      obtain ⟨_, hbehind⟩ := hleft.eq hsource'.1 (follows_operator op _)
        (.cons (by decide) (by decide) _) (by simp) (by simp) (List.cons.inj heq).2
      cases (List.cons.inj hbehind).1
  | call => exact absurd trivial hcall
  | lit literal => rcases literal with _ | _ | (_ | _) <;> cases hopening
  | var | unary | cond | fn | array => cases hopening

theorem index {base position : Expr Unit} (hsource : base.IsSource ∧ position.IsSource)
    (hbase : base.Distinct) (hposition : position.Distinct) :
    (Expr.index base position).Distinct := by
  refine .of_head hsource fun e' r s hcall hsource' _ _ hopening heq => ?_
  cases e' with
  | index base' position' =>
      rw [before_index, before_index] at heq
      obtain ⟨rfl, hbehind⟩ := hbase.eq_cons hsource'.1 (List.cons.inj heq).2 (by decide)
      obtain ⟨rfl, hrest⟩ := hposition.eq_cons hsource'.2 hbehind (by decide)
      exact ⟨rfl, (List.cons.inj hrest).2⟩
  | binary left op right =>
      rw [before_index, before_binary] at heq
      obtain ⟨_, hbehind⟩ := hbase.eq hsource'.1 (.cons (by decide) (by decide) _)
        (follows_operator op _) (by simp) (by simp) (List.cons.inj heq).2
      cases (List.cons.inj hbehind).1
  | call => exact absurd trivial hcall
  | lit literal => rcases literal with _ | _ | (_ | _) <;> cases hopening
  | var | unary | cond | fn | array => cases hopening

theorem follows_block (items : List (Item Unit)) (rest : List Char) :
    Follows (' ' :: blockBefore items rest) := by
  refine .blank ?_
  cases items <;> exact nofun

theorem cond {test : Expr Unit} {yes : List (Item Unit)} {no : Option (List (Item Unit))}
    (hsource : test.IsSource ∧ Item.AllSource yes ∧ Item.ElseSource no) (htest : test.Distinct)
    (hyes : ∀ item ∈ yes, item.IsSource ∧ item.Distinct)
    (hno : ∀ items ∈ no, ∀ item ∈ items, item.IsSource ∧ item.Distinct) :
    (Expr.cond test yes no).Distinct := by
  refine .of_head hsource fun e' r s hcall hsource' hr hs hopening heq => ?_
  cases e' with
  | cond test' yes' no' =>
      obtain ⟨htest', hyes', hno'⟩ := hsource'
      simp only [before_cond, List.cons.injEq, true_and] at heq
      obtain ⟨rfl, hbehind⟩ := htest.eq htest' (follows_block _ _) (follows_block _ _)
        (by simp) (by simp) heq
      obtain ⟨rfl, hmore⟩ := Item.block_inj hyes hyes' (List.cons.inj hbehind).2
      obtain ⟨rfl, hrest⟩ := Item.else_inj hno hno' hr hs hmore
      exact ⟨rfl, hrest⟩
  | call => exact absurd trivial hcall
  | lit literal => rcases literal with _ | _ | (_ | _) <;> cases hopening
  | var | unary | binary | fn | array | index => cases hopening

theorem fn {params : List String} {body : List (Item Unit)}
    (hsource : (∀ name ∈ params, isName name = true) ∧ Item.AllSource body)
    (hbody : ∀ item ∈ body, item.IsSource ∧ item.Distinct) :
    (Expr.fn () params body).Distinct := by
  refine .of_head hsource fun e' r s hcall hsource' _ _ hopening heq => ?_
  cases e' with
  | fn _ params' body' =>
      rw [before_fn, before_fn] at heq
      simp only [List.cons.injEq, true_and] at heq
      obtain ⟨rfl, hbehind⟩ := params_inj hsource.1 hsource'.1 heq
      obtain ⟨rfl, hrest⟩ := Item.block_inj hbody hsource'.2 (List.cons.inj hbehind).2
      exact ⟨rfl, hrest⟩
  | call => exact absurd trivial hcall
  | lit literal => rcases literal with _ | _ | (_ | _) <;> cases hopening
  | var | unary | binary | cond | array | index => cases hopening

theorem array {elements : List (Expr Unit)} (h : ∀ e ∈ elements, e.IsSource ∧ e.Distinct) :
    (Expr.array elements).Distinct := by
  have hsource : (Expr.array elements).IsSource := allSource_iff.mpr fun e he => (h e he).1
  refine .of_head hsource fun e' r s hcall hsource' _ _ hopening heq => ?_
  cases e' with
  | array elements' =>
      rw [before_array, before_array] at heq
      obtain ⟨rfl, hrest⟩ := arguments_inj (.inr rfl) h (allSource_iff.mp hsource')
        (List.cons.inj heq).2
      exact ⟨rfl, hrest⟩
  | call => exact absurd trivial hcall
  | lit literal => rcases literal with _ | _ | (_ | _) <;> cases hopening
  | var | unary | binary | cond | fn | index => cases hopening

/-- A call belongs to the callee like those behind it. -/
theorem call {callee : Expr Unit} {args : List (Expr Unit)} (hcallee : callee.Distinct)
    (hargs : ∀ e ∈ args, e.IsSource ∧ e.Distinct) : (Expr.call callee args).Distinct := by
  intro e' r s he' hr hs heq
  rw [before_call] at heq
  have hfollows : Follows ('(' :: argumentsBefore ')' args r) :=
    .cons (by decide) (by decide) _
  rcases hcallee e' _ s he' hfollows hs heq with ⟨calls, rfl, hrest⟩ | ⟨calls, rfl, hrest⟩
  · cases calls with
    | nil => exact .inr ⟨[args], rfl, hrest.symm⟩
    | cons args' calls =>
        have hsource := he'.of_applied.2 args' List.mem_cons_self
        obtain ⟨rfl, hbehind⟩ := arguments_inj (.inl rfl) hargs hsource (List.cons.inj hrest).2
        exact .inl ⟨calls, rfl, hbehind⟩
  · refine .inr ⟨calls ++ [args], (applied_concat e' calls args).symm, ?_⟩
    rw [hrest, callsBefore_concat]

end Expr.Distinct

/-- An item has to be compared with others that begin like it. -/
theorem Item.Distinct.of_opening {item : Item Unit} (hsource : item.IsSource)
    (h : ∀ (item' : Item Unit) (r s : List Char), item'.IsSource → EndsItem r → EndsItem s →
      item'.opening = item.opening → item.before r = item'.before s → item = item' ∧ r = s) :
    item.Distinct := by
  intro item' r s hsource' hr hs heq
  have hopening : some item'.opening = some item.opening := by
    rw [← Item.of_before hr.follows.separate hsource, heq,
      Item.of_before hs.follows.separate hsource']
  exact h item' r s hsource' hr hs (Option.some.inj hopening) heq

namespace Item.Distinct

theorem expr {e : Expr Unit} (hsource : e.IsSource) (h : e.Distinct) :
    (Item.expr e).Distinct := by
  refine .of_opening hsource fun item' r s hsource' hr hs hopening heq => ?_
  obtain ⟨hbrace, hword⟩ := e.opening_apart
  cases item' with
  | expr e' =>
      rw [before_expr, before_expr] at heq
      obtain ⟨rfl, hrest⟩ := h.eq hsource' hr.follows hs.follows hr.noCall hs.noCall heq
      exact ⟨rfl, hrest⟩
  | bind => exact absurd rfl (hword _ _ hopening.symm).1
  | ret => exact absurd rfl (hword _ _ hopening.symm).2.1
  | block => exact absurd hopening.symm hbrace

theorem bind {name : String} {init : Expr Unit} (hsource : isName name = true ∧ init.IsSource)
    (h : init.Distinct) : (Item.bind name init).Distinct := by
  refine .of_opening hsource fun item' r s hsource' _ _ hopening heq => ?_
  cases item' with
  | expr e' => exact absurd rfl (e'.opening_apart.2 _ _ hopening).1
  | bind name' init' =>
      simp only [before_bind, List.cons.injEq, true_and] at heq
      obtain ⟨rfl, hbehind⟩ := name_append_inj hsource.1 hsource'.1 (.cons (by decide) _)
        (.cons (by decide) _) heq
      simp only [List.cons.injEq, true_and] at hbehind
      obtain ⟨rfl, hrest⟩ := h.eq_cons hsource'.2 hbehind (by decide)
      exact ⟨rfl, hrest⟩
  | ret | block => cases hopening

theorem ret {e : Expr Unit} (hsource : e.IsSource) (h : e.Distinct) :
    (Item.ret e).Distinct := by
  refine .of_opening hsource fun item' r s hsource' _ _ hopening heq => ?_
  cases item' with
  | expr e' => exact absurd rfl (e'.opening_apart.2 _ _ hopening).2.1
  | ret e' =>
      simp only [before_ret, List.cons.injEq, true_and] at heq
      obtain ⟨rfl, hrest⟩ := h.eq_cons hsource' heq (by decide)
      exact ⟨rfl, hrest⟩
  | bind | block => cases hopening

theorem block {items : List (Item Unit)} (h : ∀ item ∈ items, item.IsSource ∧ item.Distinct) :
    (Item.block items).Distinct := by
  have hsource : (Item.block items).IsSource := allSource_iff.mpr fun item hitem => (h item hitem).1
  refine .of_opening hsource fun item' r s hsource' _ _ hopening heq => ?_
  cases item' with
  | expr e' => exact absurd hopening e'.opening_apart.1
  | block items' =>
      rw [before_block, before_block] at heq
      obtain ⟨rfl, hrest⟩ := block_inj h hsource' heq
      exact ⟨rfl, hrest⟩
  | bind | ret => cases hopening

end Item.Distinct

mutual

theorem Expr.distinct : ∀ e : Expr Unit, e.IsSource → e.Distinct
  | .var _, h => .var h
  | .lit _, h => .lit h
  | .unary op operand, h => .unary op h (Expr.distinct operand h)
  | .binary left op right, h =>
      .binary op h (Expr.distinct left h.1) (Expr.distinct right h.2)
  | .cond test yes no, h =>
      .cond h (Expr.distinct test h.1) (Item.distinct_of_mem yes h.2.1)
        (Item.distinct_of_else no h.2.2)
  | .fn () _ body, h => .fn h (Item.distinct_of_mem body h.2)
  | .call callee args, h => .call (Expr.distinct callee h.1) (Expr.distinct_of_mem args h.2)
  | .array elements, h => .array (Expr.distinct_of_mem elements h)
  | .index base position, h =>
      .index h (Expr.distinct base h.1) (Expr.distinct position h.2)

theorem Item.distinct : ∀ item : Item Unit, item.IsSource → item.Distinct
  | .expr e, h => .expr h (Expr.distinct e h)
  | .bind _ init, h => .bind h (Expr.distinct init h.2)
  | .ret e, h => .ret h (Expr.distinct e h)
  | .block items, h => .block (Item.distinct_of_mem items h)

theorem Expr.distinct_of_mem : ∀ es : List (Expr Unit), Expr.AllSource es →
    ∀ e ∈ es, e.IsSource ∧ e.Distinct
  | [], _, _, hmem => by cases hmem
  | e :: es, h, other, hmem => by
      have hfirst := Expr.distinct e h.1
      rcases List.mem_cons.mp hmem with rfl | hmem
      · exact ⟨h.1, hfirst⟩
      · exact Expr.distinct_of_mem es h.2 other hmem

theorem Item.distinct_of_mem : ∀ items : List (Item Unit), Item.AllSource items →
    ∀ item ∈ items, item.IsSource ∧ item.Distinct
  | [], _, _, hmem => by cases hmem
  | item :: items, h, other, hmem => by
      have hfirst := Item.distinct item h.1
      rcases List.mem_cons.mp hmem with rfl | hmem
      · exact ⟨h.1, hfirst⟩
      · exact Item.distinct_of_mem items h.2 other hmem

theorem Item.distinct_of_else : ∀ no : Option (List (Item Unit)), Item.ElseSource no →
    ∀ items ∈ no, ∀ item ∈ items, item.IsSource ∧ item.Distinct
  | none, _, _, hmem => by cases hmem
  | some items, h, _, hmem => by
      cases hmem
      exact Item.distinct_of_mem items h

end

/-- Programs that can stand in a text are determined by their canonical texts. -/
theorem Program.render_inj {p q : Program Unit} (hp : Item.AllSource p) (hq : Item.AllSource q)
    (h : p.render = q.render) : p = q := by
  have hne {item : Item Unit} {items : List (Item Unit)} (hsource : item.IsSource) :
      Program.render (item :: items) ≠ "" := by
    intro hempty
    have hopening := @Item.of_before [] (by simp [Separate]) item hsource
    have htext : item.before [] = [] := by
      cases items with
      | nil => simpa [Program.render, Item.before] using hempty
      | cons other items => simp [Program.render, String.intercalate_cons_cons] at hempty
    rw [htext] at hopening
    cases hopening
  cases p with
  | nil =>
      cases q with
      | nil => rfl
      | cons item items => exact absurd h.symm (hne hq.1)
  | cons item items =>
      cases q with
      | nil => exact absurd h (hne hp.1)
      | cons item' items' =>
          -- In braces the items show where the last one ends.
          have hblock : blockBefore (item :: items) [] = blockBefore (item' :: items') [] := by
            rw [← blockText_eq_blockBefore, ← blockText_eq_blockBefore,
              blockText_append (by simp [Item.renderEach]),
              blockText_append (by simp [Item.renderEach]), Item.renderEach_eq_map,
              Item.renderEach_eq_map]
            simp only [Program.render] at h
            rw [h]
          exact (Item.block_inj (Item.distinct_of_mem _ hp) hq hblock).1

end Scriptlet
