import Scriptlet.Proofs.Grammar.Layers

/-!
# Where semicolons stand

Nothing in the grammar has semicolons except an item, behind everything else. So the
semicolons within a statement are all inside blocks. In particular no statement ends in
one, and an item ends at the first semicolon outside of braces.
-/

namespace Scriptlet

theorem BinaryOp.ne_semicolon {kind : Token.Kind} {op : BinaryOp} (h : ofKind? kind = some op) :
    kind ≠ .semicolon := by
  rintro rfl
  cases h

theorem UnaryOp.ne_semicolon {kind : Token.Kind} {op : UnaryOp} (h : ofKind? kind = some op) :
    kind ≠ .semicolon := by
  rintro rfl
  cases h

namespace Grammar

/-- Blocks and tokens other than semicolons one behind the other, at least one of them. -/
inductive Solid : List Token → Prop where
  | token {token} (htoken : token.kind ≠ .semicolon) : Solid [token]
  | block {c items} (hitems : IsBlock c items) : Solid c
  | append {c d} (hc : Solid c) (hd : Solid d) : Solid (c ++ d)

section

variable {c d : List Token} {token : Token} {kind : Token.Kind}

namespace Solid

theorem of_kind (htoken : token.kind = kind) (hkind : kind ≠ .semicolon) : Solid [token] :=
  .token (htoken ▸ hkind)

theorem cons (h : Solid c) (htoken : token.kind = kind) (hkind : kind ≠ .semicolon) :
    Solid (token :: c) :=
  .append (.of_kind htoken hkind) h

/-- The last token is there and is not a semicolon. -/
theorem exists_last (h : Solid c) :
    ∃ others token, c = others ++ [token] ∧ token.kind ≠ .semicolon := by
  induction h with
  | @token token htoken => exact ⟨[], token, rfl, htoken⟩
  | block hitems =>
      cases hitems with
      | @braces opening d _ closing _ _ hclosing =>
          exact ⟨opening :: d, closing, rfl, by rw [hclosing]; decide⟩
  | @append c _ _ _ _ ih =>
      obtain ⟨others, token, rfl, htoken⟩ := ih
      exact ⟨c ++ others, token, (List.append_assoc ..).symm, htoken⟩

/-- Before a semicolon a block has begun. -/
theorem brace_before (h : Solid c) {others behind : List Token}
    (hc : c = others ++ token :: behind) (htoken : token.kind = .semicolon) :
    ∃ brace ∈ others, brace.kind = .leftBrace := by
  induction h generalizing others behind with
  | token hother =>
      cases others with
      | nil =>
          cases hc
          exact absurd htoken hother
      | cons first others => simp at hc
  | block hitems =>
      cases hitems with
      | @braces opening _ _ _ hopening =>
          cases others with
          | nil =>
              cases hc
              rw [hopening] at htoken
              cases htoken
          | cons first others =>
              obtain ⟨rfl, _⟩ := List.cons_eq_cons.mp hc
              exact ⟨opening, List.mem_cons_self, hopening⟩
  | @append c d _ _ ihc ihd =>
      rcases List.append_eq_append_iff.mp hc with ⟨more, rfl, hd⟩ | ⟨more, hfirst, hmore⟩
      · obtain ⟨brace, hmem, hbrace⟩ := ihd hd
        exact ⟨brace, List.mem_append_right c hmem, hbrace⟩
      · cases more with
        | nil =>
            have hsecond : d = [] ++ token :: behind := hmore.symm
            obtain ⟨_, hmem, _⟩ := ihd hsecond
            cases hmem
        | cons _ more =>
            cases hmore
            exact ihc hfirst

end Solid

theorem ListBehind.solid {names : List String} (h : ListBehind kind IsParameter c names)
    (hkind : kind ≠ .semicolon) : Solid c := by
  have helements {c : List Token} {names : List String} (h : Separated IsParameter c names) :
      Solid c := by
    induction h with
    | last ha =>
        obtain ⟨_, hname, rfl, _⟩ := ha
        exact .of_kind hname (by decide)
    | more ha hcomma _ ih =>
        obtain ⟨_, hname, rfl, _⟩ := ha
        exact (ih.cons hcomma (by decide)).cons hname (by decide)
  cases h with
  | empty hclose => exact .of_kind hclose hkind
  | filled has hclose => exact .append (helements has) (.of_kind hclose hkind)

mutual

theorem IsExpr.solid {layer : Precedence} {c : List Token} {e : Expr Unit}
    {dangling : Bool} : IsExpr layer c e dangling → Solid c
  | .operand _ he => he.solid
  | .chain hleft hop _ hright =>
      hleft.solid.append (hright.solid.cons rfl (BinaryOp.ne_semicolon hop))
  | .unary hop he => he.solid.cons rfl (UnaryOp.ne_semicolon hop)
  | .postfixed he => he.solid

theorem IsPostfixed.solid {c : List Token} {e : Expr Unit} {dangling : Bool} :
    IsPostfixed c e dangling → Solid c
  | .primary he => he.solid
  | .call hcallee hopening hargs =>
      hcallee.solid.append ((hargs.solid (by decide)).cons hopening (by decide))
  | .index hbase hopening hposition hclosing =>
      hbase.solid.append
        ((hposition.solid.append (.of_kind hclosing (by decide))).cons hopening (by decide))

theorem IsPrimary.solid {c : List Token} {e : Expr Unit} {dangling : Bool} :
    IsPrimary c e dangling → Solid c
  | .name h | .int h _ | .text h | .yes h | .no h => .of_kind h (by decide)
  | .group hopening he hclosing =>
      (he.solid.append (.of_kind hclosing (by decide))).cons hopening (by decide)
  | .choice hstart hopening htest hclosing hyes =>
      ((htest.solid.append ((Solid.block hyes).cons hclosing (by decide))).cons hopening
        (by decide)).cons hstart (by decide)
  | .choiceElse hstart hopening htest hclosing hyes hmiddle hno =>
      have hbranches := (Solid.block hyes).append ((Solid.block hno).cons hmiddle (by decide))
      ((htest.solid.append (hbranches.cons hclosing (by decide))).cons hopening
        (by decide)).cons hstart (by decide)
  | .function hstart hopening hparams hbody =>
      (((hparams.solid (by decide)).append (.block hbody)).cons hopening (by decide)).cons hstart
        (by decide)
  | .array hopening helements => (helements.solid (by decide)).cons hopening (by decide)

theorem IsArguments.solid {kind : Token.Kind} {c : List Token} {args : List (Expr Unit)} :
    IsArguments kind c args → kind ≠ .semicolon → Solid c
  | .empty hclose, hkind => .of_kind hclose hkind
  | .filled hes hclose, hkind => hes.solid.append (.of_kind hclose hkind)

theorem IsElements.solid {c : List Token} {es : List (Expr Unit)} : IsElements c es → Solid c
  | .last he => he.solid
  | .more he hcomma hes => he.solid.append (hes.solid.cons hcomma (by decide))

end

theorem IsStatement.solid {item : Item Unit} {ending : Ending} (h : IsStatement c item ending) :
    Solid c := by
  cases h with
  | bind hstart hname hassign hinit =>
      exact ((hinit.solid.cons hassign (by decide)).cons hname (by decide)).cons hstart (by decide)
  | ret hstart he => exact he.solid.cons hstart (by decide)
  | block hitems => exact .block hitems
  | expr he => exact he.solid

/-- An item ends at the first semicolon that no brace comes before. -/
theorem IsItem.ends_at_semicolon {others behind : List Token} {item : Item Unit} {ending : Ending}
    (h : IsItem (others ++ token :: behind) item ending) (htoken : token.kind = .semicolon)
    (hothers : ∀ other ∈ others, other.kind ≠ .leftBrace) : behind = [] := by
  have hnot {behind : List Token} (h : Solid (others ++ token :: behind)) : False := by
    obtain ⟨brace, hmem, hbrace⟩ := h.brace_before rfl htoken
    exact hothers brace hmem hbrace
  generalize hc : others ++ token :: behind = c at h
  cases h with
  | bare hitem =>
      subst hc
      exact absurd hitem.solid hnot
  | @terminated d _ _ final hitem =>
      rcases List.eq_nil_or_concat behind with rfl | ⟨more, last, rfl⟩
      · rfl
      · have hcut : (others ++ token :: more) ++ [last] = d ++ [final] := by simpa using hc
        rw [← (List.append_inj' hcut rfl).1] at hitem
        exact absurd hitem.solid hnot

end

end Grammar

end Scriptlet
