import Scriptlet.Proofs.Grammar.Extension
import Scriptlet.Proofs.Grammar.Semicolons
import Scriptlet.Proofs.Grammar.Soundness

/-!
# Programs one behind the other

No expression and no statement ends in a semicolon, so a semicolon at the end of a
program is the one behind its last item. That item ends there, whatever comes behind
it. So the items of a program that ends in a semicolon, and the items of another one,
are what is read when the tokens of the other are put behind. Main result:
`Parsed.ofTokens_append`.
-/

namespace Scriptlet

open Scriptlet.Parser

/-- An item that takes the semicolon at the end of a list of tokens is read in the same
way whatever is put behind it. -/
theorem Item.parser_append {tokens tokens' : List Token} {item : Item Unit}
    (h : Item.parser tokens = .ok item []) (halike : List.Forall₂ Token.Alike tokens tokens')
    (hlast : ∀ token ∈ tokens.getLast?, token.kind = .semicolon) (more : List Token) :
    Item.parser (tokens' ++ more) = .ok item more := by
  simp only [Item.parser, Grammar.item, Steps.accept, bind_eq_ok, pure_eq_ok] at h
  obtain ⟨_, middle, hstatement, accepted, _, haccept, rfl, rfl⟩ := h
  cases accepted with
  | false =>
      obtain ⟨rfl, -⟩ := accept_eq_ok_false.mp haccept
      obtain ⟨c, ending, hc, hphrase, -⟩ :=
        Grammar.statement_sound (Nested.within_sound maxNesting) hstatement
      obtain ⟨others, token, rfl, hkind⟩ := hphrase.solid.exists_last
      exact absurd (hlast token (by simp [hc])) hkind
  | true =>
      obtain ⟨token, hkind, rfl⟩ := accept_eq_ok_true.mp haccept
      obtain ⟨_, rest', hstatement', rfl, hrest⟩ :=
        (Grammar.statement_steady (Nested.within_steady maxNesting)).append hstatement halike
          more (by simp)
      obtain ⟨token', _, htoken, hnil, rfl⟩ := List.forall₂_cons_left_iff.mp hrest
      obtain rfl := List.forall₂_nil_left_iff.mp hnil
      have haccept' : accept .semicolon (token' :: more) = .ok true more :=
        accept_eq_ok_true.mpr ⟨token', htoken.1 ▸ hkind, rfl⟩
      unfold Item.parser Grammar.item
      dsimp only [Steps.accept]
      rw [bind_of_ok hstatement', List.singleton_append, bind_of_ok haccept']
      rfl

namespace Parsed

variable {found parsed parsed' : Parsed} {tokens tokens' more : List Token}

theorem Reads.unique (h : Reads found tokens parsed) (h' : Reads found tokens parsed') :
    parsed = parsed' := by
  induction h with
  | done =>
      cases h'
      rfl
  | item hitem _ ih =>
      cases h' with
      | item hitem' hrest' =>
          cases hitem.symm.trans hitem'
          exact ih hrest'
      | error herror _ => cases hitem.symm.trans herror
  | error herror _ ih =>
      cases h' with
      | item hitem' _ => cases herror.symm.trans hitem'
      | error herror' hrest' =>
          cases herror.symm.trans herror'
          exact ih hrest'

/-- The errors found before come first. -/
theorem Reads.errors_append (h : Reads found tokens parsed) :
    ∃ errors, parsed.errors = found.errors.reverse ++ errors := by
  induction h with
  | done => exact ⟨[], (List.append_nil _).symm⟩
  | item _ _ ih => exact ih
  | @error _ _ _ _ _ error _ _ ih =>
      obtain ⟨errors, heq⟩ := ih
      exact ⟨error :: errors, by simpa using heq⟩

/-- What was found before comes first, and does not change what is read. -/
theorem Reads.behind (h : Reads found tokens parsed) (before : Parsed) :
    Reads ⟨found.program ++ before.program, found.errors ++ before.errors⟩ tokens
      ⟨before.program.reverse ++ parsed.program, before.errors.reverse ++ parsed.errors⟩ := by
  induction h with
  | @done found =>
      rw [← List.reverse_append, ← List.reverse_append]
      exact .done
  | item hitem _ ih => exact .item hitem ih
  | error herror _ ih => exact .error herror ih

/-- What is read without errors is read too from tokens that are alike. More tokens may
follow behind a semicolon, and are read then. -/
theorem Reads.append (h : Reads found tokens parsed) (herrors : parsed.errors = [])
    (halike : List.Forall₂ Token.Alike tokens tokens')
    (hlast : more ≠ [] → ∀ token ∈ tokens.getLast?, token.kind = .semicolon)
    (hmore : Reads ⟨parsed.program.reverse, []⟩ more parsed') :
    Reads found (tokens' ++ more) parsed' := by
  induction h generalizing tokens' with
  | @done found =>
      obtain rfl := List.forall₂_nil_left_iff.mp halike
      have hfound : ⟨found.program.reverse.reverse, []⟩ = found := by
        rw [List.reverse_reverse, ← List.reverse_eq_nil_iff.mp herrors]
      rw [List.nil_append]
      exact hfound ▸ hmore
  | @item found parsed token tokens rest item hitem hrest ih =>
      obtain ⟨token', others', _, _, rfl⟩ := List.forall₂_cons_left_iff.mp halike
      by_cases hsplit : rest = [] ∧ more ≠ []
      · obtain ⟨rfl, hne⟩ := hsplit
        have hitem' := Item.parser_append hitem halike (hlast hne) more
        exact .item hitem' (ih herrors .nil (by simp) hmore)
      · have hend : rest = [] → more = [] := by simpa using hsplit
        obtain ⟨_, rest', hitem', rfl, halike'⟩ := Item.parser_steady.append hitem halike more hend
        refine .item hitem' (ih herrors halike' (fun hne last hmem => hlast hne last ?_) hmore)
        -- The last token left is the last one of all.
        have hsuffix : rest <:+ tokens := Item.left_suffix hitem
        obtain ⟨read, hread⟩ := hsuffix.trans (List.suffix_cons token tokens)
        rw [← hread]
        exact List.mem_getLast?_append_of_mem_getLast? hmem
  | error herror hrest _ =>
      obtain ⟨errors, heq⟩ := hrest.errors_append
      simp [herrors] at heq

/-- Programs without errors of which the first one ends in a semicolon, one behind the
other, are read as the items of both. The lines may be any. -/
theorem ofTokens_append {first first' second second' : List Token}
    (hfirst : (ofTokens first).errors = []) (hsecond : (ofTokens second).errors = [])
    (hlast : ∀ token ∈ first.getLast?, token.kind = .semicolon)
    (halike : List.Forall₂ Token.Alike first first')
    (halike' : List.Forall₂ Token.Alike second second') :
    ofTokens (first' ++ second') = ⟨(ofTokens first).program ++ (ofTokens second).program, []⟩ := by
  have hread := reads_ofTokens second
  have hafter : Reads ⟨(ofTokens first).program.reverse, []⟩ second'
      ⟨(ofTokens first).program ++ (ofTokens second).program, []⟩ := by
    have hbehind := hread.behind ⟨(ofTokens first).program.reverse, []⟩
    simp only [List.reverse_reverse, List.nil_append, List.reverse_nil, hsecond] at hbehind
    have hend := hbehind.append rfl halike' (fun hne => absurd rfl hne) .done
    simpa using hend
  have hjoined := (reads_ofTokens first).append hfirst halike (fun _ => hlast) hafter
  exact (reads_ofTokens _).unique hjoined

end Parsed

end Scriptlet
