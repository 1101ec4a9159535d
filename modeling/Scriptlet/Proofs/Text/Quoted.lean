import Scriptlet.Text.Quoted

/-!
# Quoted texts stand for themselves

Where one escape ends and the next begins can be told from the text alone, and no escape
begins with the closing quote. So a quoted text shows where it ends and which text it is.
-/

namespace Scriptlet.Text

theorem digitChar_injOn {m n : Nat} (hm : m < 16) (hn : n < 16)
    (h : m.digitChar = n.digitChar) : m = n := by
  have hall : ∀ m < 16, ∀ n < 16, m.digitChar = n.digitChar → m = n := by decide
  exact hall m hm n hn h

/-- A number is determined by its hexadecimal digits. -/
theorem toDigits_injective {m n : Nat} (h : Nat.toDigits 16 m = Nat.toDigits 16 n) : m = n := by
  induction m using Nat.strongRecOn generalizing n with
  | ind m ih =>
      rw [Nat.toDigits_eq_if (n := m) (by decide), Nat.toDigits_eq_if (n := n) (by decide)] at h
      by_cases hm : m < 16 <;> by_cases hn : n < 16
      · simp only [hm, hn, if_true] at h
        exact digitChar_injOn hm hn (List.singleton_inj.mp h)
      · simp only [hm, hn, if_true, if_false] at h
        have hlength := congrArg List.length h
        have hpos : 0 < (Nat.toDigits 16 (n / 16)).length := Nat.length_toDigits_pos
        simp only [List.length_append, List.length_cons, List.length_nil] at hlength
        omega
      · simp only [hm, hn, if_true, if_false] at h
        have hlength := congrArg List.length h
        have hpos : 0 < (Nat.toDigits 16 (m / 16)).length := Nat.length_toDigits_pos
        simp only [List.length_append, List.length_cons, List.length_nil] at hlength
        omega
      · simp only [hm, hn, if_false] at h
        obtain ⟨hbefore, hlast⟩ := List.append_inj' h rfl
        have hquotient : m / 16 = n / 16 := ih (m / 16) (by omega) hbefore
        have hrest : m % 16 = n % 16 :=
          digitChar_injOn (by omega) (by omega) (List.singleton_inj.mp hlast)
        omega

theorem brace_notMem_toDigits (n : Nat) : '}' ∉ Nat.toDigits 16 n := by
  induction n using Nat.strongRecOn with
  | ind n ih =>
      rw [Nat.toDigits_eq_if (by decide)]
      split
      · exact fun hmem => Nat.digitChar_ne '}' rfl (List.mem_singleton.mp hmem).symm
      · simp only [List.mem_append, List.mem_singleton, not_or]
        exact ⟨ih (n / 16) (by omega), (Nat.digitChar_ne '}' rfl).symm⟩

/-- The characters that are shown by a letter behind a backslash. -/
def letters : List (Char × Char) :=
  [('"', '"'), ('\\', '\\'), ('\t', 't'), ('\n', 'n'), ('\r', 'r'), (Char.ofNat 0, '0')]

/-- A character is shown by itself, by a letter, or by its number. -/
theorem escape_cases (c : Char) :
    (escape c = [c] ∧ c ≠ '"' ∧ c ≠ '\\') ∨
    (∃ letter, (c, letter) ∈ letters ∧ escape c = ['\\', letter]) ∨
    escape c = escapeByNumber c := by
  unfold escape
  split
  · exact .inr (.inl ⟨'"', by simp [letters, *]⟩)
  split
  · exact .inr (.inl ⟨'\\', by simp [letters, *]⟩)
  split
  · exact .inr (.inl ⟨'t', by simp [letters, *]⟩)
  split
  · exact .inr (.inl ⟨'n', by simp [letters, *]⟩)
  split
  · exact .inr (.inl ⟨'r', by simp [letters, *]⟩)
  split
  · exact .inr (.inl ⟨'0', by simp [letters, *]⟩)
  split
  · exact .inr (.inr rfl)
  · exact .inl ⟨rfl, by assumption, by assumption⟩

theorem letters_injective {c d letter : Char} (hc : (c, letter) ∈ letters)
    (hd : (d, letter) ∈ letters) : c = d := by
  have hall : ∀ p ∈ letters, ∀ q ∈ letters, p.2 = q.2 → p.1 = q.1 := by decide
  exact hall _ hc _ hd rfl

theorem letters_ne_u {c letter : Char} (hc : (c, letter) ∈ letters) : letter ≠ 'u' := by
  have hall : ∀ p ∈ letters, p.2 ≠ 'u' := by decide
  exact hall _ hc

variable {c d : Char} {r s : List Char}

/-- Up to the first `c` two texts agree. -/
theorem append_cons_inj_of_notMem {a b : List Char} (ha : c ∉ a) (hb : c ∉ b)
    (h : a ++ c :: r = b ++ c :: s) : a = b ∧ r = s := by
  induction a generalizing b with
  | nil =>
      cases b with
      | nil => exact ⟨rfl, (List.cons.inj h).2⟩
      | cons e b => exact absurd ((List.cons.inj h).1 ▸ List.mem_cons_self) hb
  | cons d a ih =>
      cases b with
      | nil => exact absurd ((List.cons.inj h).1 ▸ List.mem_cons_self) ha
      | cons e b =>
          obtain ⟨rfl, hrest⟩ := List.cons.inj h
          obtain ⟨rfl, hbehind⟩ := ih (fun hmem => ha (List.mem_cons_of_mem d hmem))
            (fun hmem => hb (List.mem_cons_of_mem d hmem)) hrest
          exact ⟨rfl, hbehind⟩

theorem escapeByNumber_append_inj (h : escapeByNumber c ++ r = escapeByNumber d ++ s) :
    c = d ∧ r = s := by
  simp only [escapeByNumber, List.cons_append, List.append_assoc, List.cons.injEq, true_and,
    List.nil_append] at h
  obtain ⟨hdigits, hrest⟩ := append_cons_inj_of_notMem (brace_notMem_toDigits c.toNat)
    (brace_notMem_toDigits d.toNat) h
  exact ⟨Char.toNat_inj.mp (toDigits_injective hdigits), hrest⟩

/-- What is shown for a character shows where it ends. -/
theorem escape_append_inj (h : escape c ++ r = escape d ++ s) : c = d ∧ r = s := by
  rcases escape_cases c with ⟨hc, _, hc'⟩ | ⟨letter, hmem, hc⟩ | hc <;>
    rcases escape_cases d with ⟨hd, _, hd'⟩ | ⟨letter', hmem', hd⟩ | hd <;> rw [hc, hd] at h
  · exact List.cons.inj h
  · exact absurd (List.cons.inj h).1 hc'
  · exact absurd (List.cons.inj h).1 hc'
  · exact absurd (List.cons.inj h).1.symm hd'
  · simp only [List.cons_append, List.nil_append, List.cons.injEq, true_and] at h
    obtain ⟨rfl, hrest⟩ := h
    exact ⟨letters_injective hmem hmem', hrest⟩
  · exact absurd (List.cons.inj (List.cons.inj h).2).1 (letters_ne_u hmem)
  · exact absurd (List.cons.inj h).1.symm hd'
  · exact absurd (List.cons.inj (List.cons.inj h).2).1.symm (letters_ne_u hmem')
  · exact escapeByNumber_append_inj h

/-- What is shown for a character does not begin with a quote. -/
theorem quote_notMem_head?_escape (c : Char) (r : List Char) :
    (escape c ++ r).head? ≠ some '"' := by
  rcases escape_cases c with ⟨hc, hquote, _⟩ | ⟨letter, _, hc⟩ | hc <;> rw [hc]
  · simpa using hquote
  · simp
  · simp [escapeByNumber]

/-- A quoted text shows where it ends, and which text it is. -/
theorem quote_append_inj {a b : String}
    (h : (quote a).toList ++ r = (quote b).toList ++ s) : a = b ∧ r = s := by
  suffices ∀ cs ds : List Char, cs.flatMap escape ++ '"' :: r = ds.flatMap escape ++ '"' :: s →
      cs = ds ∧ r = s by
    simp only [toList_quote, List.cons_append, List.append_assoc, List.cons.injEq, true_and,
      List.nil_append] at h
    obtain ⟨hab, hrest⟩ := this a.toList b.toList h
    exact ⟨String.toList_inj.mp hab, hrest⟩
  intro cs
  induction cs with
  | nil =>
      intro ds h
      cases ds with
      | nil => exact ⟨rfl, (List.cons.inj h).2⟩
      | cons d ds =>
          simp only [List.flatMap_cons, List.append_assoc] at h
          exact absurd (congrArg List.head? h).symm (quote_notMem_head?_escape d _)
  | cons c cs ih =>
      intro ds h
      cases ds with
      | nil =>
          simp only [List.flatMap_cons, List.append_assoc] at h
          exact absurd (congrArg List.head? h) (quote_notMem_head?_escape c _)
      | cons d ds =>
          simp only [List.flatMap_cons, List.append_assoc] at h
          obtain ⟨rfl, hrest⟩ := escape_append_inj h
          obtain ⟨rfl, hbehind⟩ := ih ds hrest
          exact ⟨rfl, hbehind⟩

end Scriptlet.Text
