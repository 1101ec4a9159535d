import Mathlib.Data.List.Basic
import Scriptlet.Shell

/-!
# The lines of an input

An input is cut behind every line feed; what is left at its end is a line too, unless it
is empty. There is one way to do so. An input encodes a text if and only if each of its
lines does, since no other character has the byte of the line feed in its encoding.
-/

namespace Scriptlet.Shell

/-- The parts of an input that is cut behind each line feed. -/
inductive Splits : List UInt8 → List (List UInt8) → Prop where
  | nil : Splits [] []
  | last {part : List UInt8} (hne : part ≠ []) (hfree : 10 ∉ part) : Splits part [part]
  | cons {part rest : List UInt8} {parts : List (List UInt8)} (hfree : 10 ∉ part)
      (h : Splits rest parts) : Splits (part ++ 10 :: rest) ((part ++ [10]) :: parts)

theorem lines_feed (bytes : List UInt8) : lines (10 :: bytes) = [10] :: lines bytes :=
  rfl

/-- Any other byte goes to the front of the first line. -/
theorem lines_cons {byte : UInt8} (hbyte : byte ≠ 10) (bytes : List UInt8) :
    lines (byte :: bytes) =
      match lines bytes with
      | [] => [[byte]]
      | first :: others => (byte :: first) :: others := by
  rw [lines, List.foldr_cons, if_neg hbyte]
  rfl

/-- Bytes without a line feed go to the front of the first line. -/
theorem lines_append {part : List UInt8} (hne : part ≠ []) (hfree : 10 ∉ part)
    (bytes : List UInt8) :
    lines (part ++ bytes) =
      match lines bytes with
      | [] => [part]
      | first :: others => (part ++ first) :: others := by
  induction part with
  | nil => exact absurd rfl hne
  | cons byte part ih =>
      obtain ⟨hbyte, hfree⟩ := List.ne_and_not_mem_of_not_mem_cons hfree
      rw [List.cons_append, lines_cons hbyte.symm]
      cases part with
      | nil => rfl
      | cons =>
          rw [ih (List.cons_ne_nil _ _) hfree]
          cases lines bytes <;> rfl

/-- A line ends in the first line feed. -/
theorem lines_append_feed {part : List UInt8} (hfree : 10 ∉ part) (bytes : List UInt8) :
    lines (part ++ 10 :: bytes) = (part ++ [10]) :: lines bytes := by
  by_cases hne : part = []
  · rw [hne]
    rfl
  · rw [lines_append hne hfree, lines_feed]

theorem Splits.eq_lines {input : List UInt8} {parts : List (List UInt8)} (h : Splits input parts) :
    parts = lines input := by
  induction h with
  | nil => rfl
  | @last part hne hfree =>
      have hlines := lines_append hne hfree []
      rw [List.append_nil] at hlines
      exact hlines.symm
  | cons hfree _ ih => rw [lines_append_feed hfree, ih]

theorem splits_lines (input : List UInt8) : Splits input (lines input) := by
  induction input with
  | nil => exact .nil
  | cons byte bytes ih =>
      by_cases hbyte : byte = 10
      · subst hbyte
        have hempty : 10 ∉ ([] : List UInt8) := List.not_mem_nil
        exact .cons hempty ih
      · rw [lines_cons hbyte]
        have hfree {part : List UInt8} (h : 10 ∉ part) : 10 ∉ byte :: part :=
          List.not_mem_cons_of_ne_of_not_mem (Ne.symm hbyte) h
        generalize lines bytes = parts at ih ⊢
        cases ih with
        | nil => exact .last (List.cons_ne_nil _ _) (hfree List.not_mem_nil)
        | last _ hpart => exact .last (List.cons_ne_nil _ _) (hfree hpart)
        | cons hpart h => exact .cons (hfree hpart) h

/-- What comes behind a line feed is cut by itself. -/
theorem lines_append_of_getLast? {input : List UInt8} (h : ∀ byte ∈ input.getLast?, byte = 10)
    (more : List UInt8) : lines (input ++ more) = lines input ++ lines more := by
  have hsplits := splits_lines input
  generalize lines input = parts at hsplits ⊢
  induction hsplits with
  | nil => rfl
  | @last part hne hfree =>
      have hmem := List.getLast_mem hne
      rw [h _ (List.getLast?_eq_some_getLast hne)] at hmem
      exact absurd hmem hfree
  | @cons part rest parts hfree _ ih =>
      have hrest : ∀ byte ∈ rest.getLast?, byte = 10 := by
        intro byte hbyte
        refine h byte ?_
        rw [List.getLast?_append, List.getLast?_cons, hbyte]
        rfl
      rw [List.append_assoc, List.cons_append, lines_append_feed hfree, ih hrest]
      rfl

/-! ## Texts -/

/-- The bytes that decode are the encodings of characters one after the other. -/
theorem isSome_decode?_iff {bytes : List UInt8} :
    (decode? bytes).isSome ↔ ∃ text : List Char, bytes = text.flatMap String.utf8EncodeChar := by
  have hvalid : (decode? bytes).isSome ↔ (ByteArray.mk bytes.toArray).IsValidUTF8 := by
    unfold decode? String.fromUTF8?
    split <;> simp_all
  have hencoded (text : List Char) :
      ByteArray.mk bytes.toArray = text.utf8Encode ↔
        bytes = text.flatMap String.utf8EncodeChar := by
    simp [List.utf8Encode, ByteArray.ext_iff]
  rw [hvalid]
  constructor
  · rintro ⟨text, htext⟩
    exact ⟨text, (hencoded text).mp htext⟩
  · rintro ⟨text, htext⟩
    exact ⟨text, (hencoded text).mpr htext⟩

/-- The byte of the line feed encodes nothing but the line feed. -/
theorem eq_of_feed_mem {c : Char} (h : 10 ∈ String.utf8EncodeChar c) : c = '\n' := by
  have hofNat {n : Nat} (hn : 10 = UInt8.ofNat n) : n % 256 = 10 := by
    simpa using (congrArg UInt8.toNat hn).symm
  have hlt : c.val.toNat < 0x110000 := by
    have := c.valid
    simp only [UInt32.isValidChar, Nat.isValidChar] at this
    omega
  have hval : c.val.toNat = 10 := by
    unfold String.utf8EncodeChar at h
    dsimp only at h
    -- Each byte but a character alone has its highest bit set.
    split_ifs at h <;> simp only [List.mem_cons, List.not_mem_nil, or_false] at h
    · have := hofNat h
      omega
    · rcases h with h | h <;> have := hofNat h <;> omega
    · rcases h with h | h | h <;> have := hofNat h <;> omega
    · rcases h with h | h | h | h <;> have := hofNat h <;> omega
  apply Char.ext
  apply UInt32.toNat_inj.mp
  rw [hval]
  rfl

/-- A text is cut at the first byte of a line feed into texts. -/
theorem encoded_cut {text : List Char} {part rest : List UInt8} (hfree : 10 ∉ part)
    (h : text.flatMap String.utf8EncodeChar = part ++ 10 :: rest) :
    ∃ before after : List Char, part = before.flatMap String.utf8EncodeChar ∧
      rest = after.flatMap String.utf8EncodeChar := by
  induction text generalizing part with
  | nil => simp at h
  | cons c text ih =>
      rw [List.flatMap_cons] at h
      by_cases hc : c = '\n'
      · subst hc
        cases part with
        | nil => exact ⟨[], text, rfl, (List.cons.inj h).2.symm⟩
        | cons byte part => exact absurd ((List.cons.inj h).1 ▸ List.mem_cons_self) hfree
      · have hother : 10 ∉ String.utf8EncodeChar c := fun hmem => hc (eq_of_feed_mem hmem)
        obtain ⟨behind, hpart, htext⟩ | ⟨others, hchar, hfeed⟩ := List.append_eq_append_iff.mp h
        · subst hpart
          obtain ⟨before, after, hbefore, hafter⟩ :=
            ih (fun hmem => hfree (List.mem_append_right _ hmem)) htext
          exact ⟨c :: before, after, by rw [hbefore, List.flatMap_cons], hafter⟩
        · cases others with
          | nil =>
              obtain ⟨before, after, hbefore, hafter⟩ := ih List.not_mem_nil hfeed.symm
              refine ⟨c :: before, after, ?_, hafter⟩
              rw [List.flatMap_cons, ← hbefore, hchar, List.append_nil, List.append_nil]
          | cons byte others =>
              rw [hchar, (List.cons.inj hfeed).1] at hother
              simp at hother

/-- An input is a text if and only if each of its lines is. -/
theorem Splits.decodes_iff {input : List UInt8} {parts : List (List UInt8)}
    (h : Splits input parts) :
    (decode? input).isSome ↔ ∀ part ∈ parts, (decode? part).isSome := by
  induction h with
  | nil => exact iff_of_true (isSome_decode?_iff.mpr ⟨[], rfl⟩) (List.forall_mem_nil _)
  | last => exact (List.forall_mem_singleton (p := fun part => (decode? part).isSome)).symm
  | @cons part rest parts hfree _ ih =>
      rw [List.forall_mem_cons, ← ih]
      simp only [isSome_decode?_iff]
      constructor
      · rintro ⟨text, htext⟩
        obtain ⟨before, after, hpart, hrest⟩ := encoded_cut hfree htext.symm
        refine ⟨⟨before ++ ['\n'], ?_⟩, ⟨after, hrest⟩⟩
        rw [List.flatMap_append, ← hpart]
        rfl
      · rintro ⟨⟨first, hfirst⟩, ⟨others, hothers⟩⟩
        refine ⟨first ++ others, ?_⟩
        rw [List.flatMap_append, ← hfirst, ← hothers, List.append_assoc]
        rfl

end Scriptlet.Shell
