import Scriptlet.Proofs.Program.Distinct
import Scriptlet.Proofs.Token.Segments
import Scriptlet.Session.Run

/-!
# Rendering identifies the program

The names of a text are names, and its numbers have no sign. So whatever is read of a text,
also next to errors, is determined by its canonical text. Main result:
`Parsed.render_eq_iff`.
-/

namespace Scriptlet

open Grammar Token

/-- The text of an identifier is a name, and that of a number is made of digits. -/
structure Token.IsSource (token : Token) : Prop where
  name : token.kind = .ident → isName token.lexeme = true
  number : token.kind = .int → ∀ c ∈ token.lexeme.toList, c.isDigit = true

namespace Token

/-- No sign is an identifier or a number. -/
theorem Kind.ofChar?_ne {c : Char} {kind : Kind} (h : Kind.ofChar? c = some kind) :
    kind ≠ .ident ∧ kind ≠ .int := by
  unfold Kind.ofChar? at h
  split at h <;> simp_all <;> simp [← h]

theorem Kind.keyword_ne {word : String} {kind : Kind} (h : (word, kind) ∈ keywords) :
    kind ≠ .ident ∧ kind ≠ .int := by
  have hall : ∀ pair ∈ keywords, pair.2 ≠ .ident ∧ pair.2 ≠ .int := by decide
  exact hall _ h

theorem Stands.isName {lexeme : String} {span behind : List Char}
    (h : Stands .ident lexeme span behind) : isName lexeme = true := by
  cases h with
  | keyword hkind => exact absurd rfl (Kind.keyword_ne hkind).1
  | name hne hkind hspan =>
      have hnone : (Kind.ofKeyword? (String.ofList span)).isNone = true := by
        rw [Option.isNone_iff_eq_none, Option.eq_none_iff_forall_ne_some]
        exact fun kind hsome => hkind kind (Kind.ofKeyword?_eq_some.mp hsome)
      simpa [Token.isName, hnone, hne] using hspan
  | sign hkind => exact absurd rfl (Kind.ofChar?_ne hkind).1

theorem Stands.isDigit {lexeme : String} {span behind : List Char}
    (h : Stands .int lexeme span behind) : ∀ c ∈ lexeme.toList, c.isDigit = true := by
  cases h with
  | keyword hkind => exact absurd rfl (Kind.keyword_ne hkind).2
  | int _ hspan => simpa using hspan
  | sign hkind => exact absurd rfl (Kind.ofChar?_ne hkind).2

theorem isSource_ofText {text : String} : ∀ token ∈ ofText text, token.IsSource := by
  obtain ⟨segments, last, hsegments, htokens⟩ := exists_segmentation text
  intro token htoken
  rw [htokens] at htoken
  obtain ⟨segment, hsegment, rfl⟩ := List.mem_map.mp htoken
  obtain ⟨before, after, hsplit⟩ := List.append_of_mem hsegment
  have hstands := hsegments.stands hsplit
  exact ⟨fun hkind => (hkind ▸ hstands).isName, fun hkind => (hkind ▸ hstands).isDigit⟩

end Token

/-- Digits without a sign spell a number that is not negative. -/
theorem Integer.read?_nonneg {cs : List Char} {n : Integer} (h : ∀ c ∈ cs, c.isDigit = true)
    (hn : Integer.read? cs = some n) : 0 ≤ n.toInt := by
  obtain ⟨k, hk, hfits⟩ := Option.bind_eq_some_iff.mp hn
  rw [Integer.ofInt?_eq_some_iff] at hfits
  rw [hfits]
  unfold Text.Decimal.read? at hk
  split at hk
  · exact absurd (h '+' List.mem_cons_self) (by decide)
  · exact absurd (h '-' List.mem_cons_self) (by decide)
  · obtain ⟨digits, _, rfl⟩ := Option.map_eq_some_iff.mp hk
    exact Int.natCast_nonneg digits

namespace Grammar

theorem ListBehind.isName {kind : Token.Kind} {c : List Token} {params : List String}
    (h : ListBehind kind IsParameter c params) (hc : ∀ token ∈ c, token.IsSource) :
    ∀ name ∈ params, Token.isName name = true := by
  have hparameter {d : List Token} {name : String} (hname : IsParameter d name)
      (hd : ∀ token ∈ d, token.IsSource) : Token.isName name = true := by
    obtain ⟨token, hkind, rfl, rfl⟩ := hname
    exact (hd token List.mem_cons_self).name hkind
  cases h with
  | empty => exact List.forall_mem_nil _
  | filled hparams =>
      replace hc := (List.forall_mem_append.mp hc).1
      induction hparams with
      | last ha => exact List.forall_mem_singleton.mpr (hparameter ha hc)
      | more ha _ _ ih =>
          obtain ⟨hfirst, hmore⟩ := List.forall_mem_append.mp hc
          exact List.forall_mem_cons.mpr
            ⟨hparameter ha hfirst, ih (List.forall_mem_cons.mp hmore).2⟩

mutual

theorem IsExpr.isSource {layer : Precedence} {c : List Token} {e : Expr Unit} {dangling : Bool} :
    IsExpr layer c e dangling → (∀ token ∈ c, token.IsSource) → e.IsSource
  | .operand _ he, hc => he.isSource hc
  | .chain hleft _ _ hright, hc => by
      simp only [List.forall_mem_append, List.forall_mem_cons] at hc
      exact ⟨hleft.isSource hc.1, hright.isSource hc.2.2⟩
  | .unary _ he, hc => he.isSource (List.forall_mem_cons.mp hc).2
  | .postfixed he, hc => he.isSource hc

theorem IsPostfixed.isSource {c : List Token} {e : Expr Unit} {dangling : Bool} :
    IsPostfixed c e dangling → (∀ token ∈ c, token.IsSource) → e.IsSource
  | .primary he, hc => he.isSource hc
  | .call hcallee _ hargs, hc => by
      simp only [List.forall_mem_append, List.forall_mem_cons] at hc
      exact ⟨hcallee.isSource hc.1, hargs.isSource hc.2.2⟩
  | .index hbase _ hposition _, hc => by
      simp only [List.forall_mem_append, List.forall_mem_cons] at hc
      exact ⟨hbase.isSource hc.1, hposition.isSource hc.2.2.1⟩

theorem IsPrimary.isSource {c : List Token} {e : Expr Unit} {dangling : Bool} :
    IsPrimary c e dangling → (∀ token ∈ c, token.IsSource) → e.IsSource
  | .name hkind, hc => (hc _ List.mem_cons_self).name hkind
  | .int hkind hn, hc => Integer.read?_nonneg ((hc _ List.mem_cons_self).number hkind) hn
  | .text _, _ => trivial
  | .yes _, _ => trivial
  | .no _, _ => trivial
  | .group _ he _, hc => by
      simp only [List.forall_mem_append, List.forall_mem_cons] at hc
      exact he.isSource hc.2.1
  | .choice _ _ htest _ hyes, hc => by
      simp only [List.forall_mem_append, List.forall_mem_cons] at hc
      exact ⟨htest.isSource hc.2.2.1, hyes.isSource hc.2.2.2.2, trivial⟩
  | .choiceElse _ _ htest _ hyes _ hno, hc => by
      simp only [List.forall_mem_append, List.forall_mem_cons] at hc
      obtain ⟨_, _, htokens, _, hyesTokens, _, hnoTokens⟩ := hc
      exact ⟨htest.isSource htokens, hyes.isSource hyesTokens, hno.isSource hnoTokens⟩
  | .function _ _ hparams hbody, hc => by
      simp only [List.forall_mem_append, List.forall_mem_cons] at hc
      exact ⟨hparams.isName hc.2.2.1, hbody.isSource hc.2.2.2⟩
  | .array _ helements, hc => helements.isSource (List.forall_mem_cons.mp hc).2

theorem IsArguments.isSource {kind : Token.Kind} {c : List Token} {es : List (Expr Unit)} :
    IsArguments kind c es → (∀ token ∈ c, token.IsSource) → Expr.AllSource es
  | .empty _, _ => trivial
  | .filled hes _, hc => hes.isSource (List.forall_mem_append.mp hc).1

theorem IsElements.isSource {c : List Token} {es : List (Expr Unit)} :
    IsElements c es → (∀ token ∈ c, token.IsSource) → Expr.AllSource es
  | .last he, hc => ⟨he.isSource hc, trivial⟩
  | .more he _ hes, hc => by
      simp only [List.forall_mem_append, List.forall_mem_cons] at hc
      exact ⟨he.isSource hc.1, hes.isSource hc.2.2⟩

theorem IsBlock.isSource {c : List Token} {items : Program Unit} :
    IsBlock c items → (∀ token ∈ c, token.IsSource) → Item.AllSource items
  | .braces _ hitems _, hc => by
      simp only [List.forall_mem_append, List.forall_mem_cons] at hc
      exact hitems.isSource hc.2.1

theorem IsItems.isSource {c : List Token} {items : Program Unit} :
    IsItems c items → (∀ token ∈ c, token.IsSource) → Item.AllSource items
  | .nil, _ => trivial
  | .cons hitem hitems _, hc => by
      obtain ⟨hfirst, hmore⟩ := List.forall_mem_append.mp hc
      exact ⟨hitem.isSource hfirst, hitems.isSource hmore⟩

theorem IsItem.isSource {c : List Token} {item : Item Unit} {ending : Ending} :
    IsItem c item ending → (∀ token ∈ c, token.IsSource) → item.IsSource
  | .bare hitem, hc => hitem.isSource hc
  | .terminated hitem _, hc => hitem.isSource (List.forall_mem_append.mp hc).1

theorem IsStatement.isSource {c : List Token} {item : Item Unit} {ending : Ending} :
    IsStatement c item ending → (∀ token ∈ c, token.IsSource) → item.IsSource
  | .bind _ hname _ hinit, hc => by
      simp only [List.forall_mem_cons] at hc
      exact ⟨hc.2.1.name hname, hinit.isSource hc.2.2.2⟩
  | .ret _ he, hc => he.isSource (List.forall_mem_cons.mp hc).2
  | .block hitems, hc => hitems.isSource hc
  | .expr he, hc => he.isSource hc

end

end Grammar

namespace Parsed

/-- What is read of the tokens of a text can stand in a text, whatever else is wrong. -/
theorem Reads.isSource {found parsed : Parsed} {tokens : List Token}
    (h : Reads found tokens parsed) (htokens : ∀ token ∈ tokens, token.IsSource)
    (hfound : ∀ item ∈ found.program, item.IsSource) :
    ∀ item ∈ parsed.program, item.IsSource := by
  induction h with
  | done => simpa using hfound
  | item hread _ ih =>
      obtain ⟨c, _, hsplit, hitem, _⟩ := item_sound (Nested.within_sound maxNesting) hread
      rw [hsplit] at htokens
      obtain ⟨hc, hrest⟩ := List.forall_mem_append.mp htokens
      exact ih hrest (List.forall_mem_cons.mpr ⟨hitem.isSource hc, hfound⟩)
  | @error _ _ token tokens rest _ hread _ ih =>
      have hrest : rest <:+ tokens := Item.left_suffix hread
      refine ih (fun other hother => ?_) hfound
      exact htokens other (List.mem_cons_of_mem token
        (hrest.subset ((skipItem_suffix rest).subset hother)))

theorem allSource_ofText (text : String) : Item.AllSource (ofText text).program :=
  Item.allSource_iff.mpr ((reads_ofTokens (Token.ofText text)).isSource isSource_ofText
    (List.forall_mem_nil _))

/-- Two texts are read as the same program, whatever else is wrong with them, exactly when
the canonical texts of what is read are the same. -/
theorem render_eq_iff (s t : String) :
    (ofText s).program.render = (ofText t).program.render ↔
      (ofText s).program = (ofText t).program := by
  constructor
  · exact Program.render_inj (allSource_ofText s) (allSource_ofText t)
  · exact congrArg Program.render

end Parsed

end Scriptlet
