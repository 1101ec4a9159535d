import Scriptlet.Proofs.Grammar.Canonical

/-!
# How canonical texts begin

The canonical text of an expression or item, written in front of whatever comes behind
it. Where names are names and numbers have no sign, its first characters tell which form
it has, but for calls, which begin like what is called.
-/

namespace Scriptlet

open Token

def Literal.IsSource : Literal → Prop
  | .int n => 0 ≤ n.toInt
  | .text _ | .bool _ => True

mutual

/-- The expressions that can stand in a text: names are names, and numbers have no sign. -/
def Expr.IsSource : Expr Unit → Prop
  | .var name => isName name = true
  | .lit literal => literal.IsSource
  | .unary _ operand => operand.IsSource
  | .binary left _ right => left.IsSource ∧ right.IsSource
  | .cond test yes no => test.IsSource ∧ Item.AllSource yes ∧ Item.ElseSource no
  | .fn _ params body => (∀ name ∈ params, isName name = true) ∧ Item.AllSource body
  | .call callee args => callee.IsSource ∧ Expr.AllSource args
  | .array elements => Expr.AllSource elements
  | .index base position => base.IsSource ∧ position.IsSource

def Item.IsSource : Item Unit → Prop
  | .expr e => e.IsSource
  | .bind name init => isName name = true ∧ init.IsSource
  | .ret e => e.IsSource
  | .block items => Item.AllSource items

def Expr.AllSource : List (Expr Unit) → Prop
  | [] => True
  | e :: es => e.IsSource ∧ Expr.AllSource es

def Item.AllSource : List (Item Unit) → Prop
  | [] => True
  | item :: items => item.IsSource ∧ Item.AllSource items

def Item.ElseSource : Option (List (Item Unit)) → Prop
  | none => True
  | some items => Item.AllSource items

end

theorem Expr.allSource_iff {es : List (Expr Unit)} :
    Expr.AllSource es ↔ ∀ e ∈ es, e.IsSource := by
  induction es with
  | nil => simp [Expr.AllSource]
  | cons e es ih => simp [Expr.AllSource, ih]

theorem Item.allSource_iff {items : List (Item Unit)} :
    Item.AllSource items ↔ ∀ item ∈ items, item.IsSource := by
  induction items with
  | nil => simp [Item.AllSource]
  | cons item items ih => simp [Item.AllSource, ih]

/-- The canonical text of an expression in front of other text. -/
def Expr.before (e : Expr Unit) (rest : List Char) : List Char :=
  e.render.toList ++ rest

def Item.before (item : Item Unit) (rest : List Char) : List Char :=
  item.render.toList ++ rest

section Lists

variable {α : Type} (before : α → List Char → List Char) (close : Char)

/-- Further elements of a list, each behind a comma, up to the closing bracket. -/
def moreBefore : List α → List Char → List Char
  | [], rest => close :: rest
  | a :: as, rest => ',' :: ' ' :: before a (moreBefore as rest)

/-- A list behind its opening bracket, up to the closing one. -/
def listBefore : List α → List Char → List Char
  | [], rest => close :: rest
  | a :: as, rest => before a (moreBefore before close as rest)

theorem commaSeparated_append (text : α → String) (as : List α) (rest : List Char) :
    (commaSeparated (as.map text)).toList ++ close :: rest =
      listBefore (fun a rest => (text a).toList ++ rest) close as rest := by
  cases as with
  | nil => simp [commaSeparated, listBefore]
  | cons a as =>
      induction as generalizing a with
      | nil => simp [commaSeparated, listBefore, moreBefore]
      | cons b bs ih =>
          have hmore := ih b
          simp only [listBefore, moreBefore] at hmore ⊢
          rw [← hmore]
          simp [commaSeparated, String.intercalate_cons_cons]

end Lists

/-- Arguments behind their opening bracket, up to the closing one. -/
abbrev argumentsBefore (close : Char) (es : List (Expr Unit)) (rest : List Char) : List Char :=
  listBefore Expr.before close es rest

/-- Parameters behind their opening bracket, up to the closing one. -/
abbrev paramsBefore (params : List String) (rest : List Char) : List Char :=
  listBefore (fun name rest => name.toList ++ rest) ')' params rest

/-- Items of a block with a blank behind each, up to the closing brace. -/
def itemsBefore : List (Item Unit) → List Char → List Char
  | [], rest => '}' :: rest
  | item :: items, rest => item.before (' ' :: itemsBefore items rest)

/-- A block of items. -/
def blockBefore : List (Item Unit) → List Char → List Char
  | [], rest => '{' :: '}' :: rest
  | item :: items, rest => '{' :: ' ' :: itemsBefore (item :: items) rest

/-- The second branch of a choice, if there is one. -/
def elseBefore : Option (List (Item Unit)) → List Char → List Char
  | none, rest => rest
  | some items, rest => ' ' :: 'e' :: 'l' :: 's' :: 'e' :: ' ' :: blockBefore items rest

theorem blockText_eq_blockBefore (items : List (Item Unit)) (rest : List Char) :
    (blockText (Item.renderEach items)).toList ++ rest = blockBefore items rest := by
  have hitems : ∀ items : List (Item Unit),
      (String.join (items.map fun item => item.render ++ " ")).toList ++ '}' :: rest =
        itemsBefore items rest := by
    intro items
    induction items with
    | nil => simp [itemsBefore]
    | cons item items ih => simp [itemsBefore, Item.before, ← ih]
  cases items with
  | nil => simp [blockText, blockBefore]
  | cons item items =>
      rw [blockBefore, ← hitems]
      simp [blockText, Function.comp_def]

section Forms

variable (rest : List Char)

theorem before_unary (op : UnaryOp) (operand : Expr Unit) :
    (Expr.unary op operand).before rest =
      '(' :: (op.symbol.toList ++ operand.before (')' :: rest)) := by
  simp [Expr.before, Expr.render]

theorem before_binary (left : Expr Unit) (op : BinaryOp) (right : Expr Unit) :
    (Expr.binary left op right).before rest =
      '(' :: left.before (' ' :: (op.symbol.toList ++ ' ' :: right.before (')' :: rest))) := by
  simp [Expr.before, Expr.render]

theorem before_cond (test : Expr Unit) (yes : List (Item Unit)) (no : Option (List (Item Unit))) :
    (Expr.cond test yes no).before rest =
      'i' :: 'f' :: ' ' :: test.before (' ' :: blockBefore yes (elseBefore no rest)) := by
  have helse : (Item.renderElse no).toList ++ rest = elseBefore no rest := by
    cases no with
    | none => simp [Item.renderElse, elseBefore]
    | some items =>
        rw [elseBefore, ← blockText_eq_blockBefore]
        simp [Item.renderElse]
  rw [← helse, ← blockText_eq_blockBefore]
  simp [Expr.before, Expr.render]

theorem before_fn (params : List String) (body : List (Item Unit)) :
    (Expr.fn () params body).before rest =
      'f' :: 'n' :: '(' :: paramsBefore params (' ' :: blockBefore body rest) := by
  have hparams := commaSeparated_append ')' id params (' ' :: blockBefore body rest)
  simp only [List.map_id, id_eq] at hparams
  rw [paramsBefore, ← hparams, ← blockText_eq_blockBefore]
  simp [Expr.before, Expr.render]

theorem before_call (callee : Expr Unit) (args : List (Expr Unit)) :
    (Expr.call callee args).before rest = callee.before ('(' :: argumentsBefore ')' args rest) := by
  have hargs := commaSeparated_append ')' Expr.render args rest
  change _ = argumentsBefore ')' args rest at hargs
  rw [← hargs]
  simp [Expr.before, Expr.render]

theorem before_array (elements : List (Expr Unit)) :
    (Expr.array elements).before rest = '[' :: argumentsBefore ']' elements rest := by
  have helements := commaSeparated_append ']' Expr.render elements rest
  change _ = argumentsBefore ']' elements rest at helements
  rw [← helements]
  simp [Expr.before, Expr.render]

theorem before_index (base position : Expr Unit) :
    (Expr.index base position).before rest =
      '(' :: base.before ('[' :: position.before (']' :: ')' :: rest)) := by
  simp [Expr.before, Expr.render]

theorem before_expr (e : Expr Unit) : (Item.expr e).before rest = e.before rest := by
  simp [Item.before, Item.render, Expr.before]

theorem before_bind (name : String) (init : Expr Unit) :
    (Item.bind name init).before rest =
      'l' :: 'e' :: 't' :: ' ' :: (name.toList ++
        ' ' :: '=' :: ' ' :: init.before (';' :: rest)) := by
  simp [Item.before, Item.render, Expr.before]

theorem before_ret (e : Expr Unit) :
    (Item.ret e).before rest =
      'r' :: 'e' :: 't' :: 'u' :: 'r' :: 'n' :: ' ' :: e.before (';' :: rest) := by
  simp [Item.before, Item.render, Expr.before]

theorem before_block (items : List (Item Unit)) :
    (Item.block items).before rest = blockBefore items rest := by
  rw [← blockText_eq_blockBefore]
  simp [Item.before, Item.render]

end Forms

/-- What the first characters of a text show. -/
inductive Opening where
  | word (kind : Token.Kind) (chars : List Char)
  | number
  | quote
  | bracket
  | brace
  | unary (op : UnaryOp)
  | paren

/-- The opening of a text, if an item can begin like that. -/
def Opening.of : List Char → Option Opening
  | '"' :: _ => some .quote
  | '[' :: _ => some .bracket
  | '{' :: _ => some .brace
  | '(' :: '!' :: _ => some (.unary .not)
  | '(' :: '-' :: _ => some (.unary .negate)
  | '(' :: _ => some .paren
  | c :: cs =>
      if isWordChar c then
        let chars := (c :: cs).takeWhile isWordChar
        some (.word ((Kind.ofKeyword? (String.ofList chars)).getD .ident) chars)
      else if c.isDigit then some .number
      else none
  | [] => none

/-- The opening of the canonical text of an expression. -/
def Expr.opening : Expr Unit → Opening
  | .var name => .word .ident name.toList
  | .lit (.int _) => .number
  | .lit (.text _) => .quote
  | .lit (.bool true) => .word .trueWord "true".toList
  | .lit (.bool false) => .word .falseWord "false".toList
  | .unary op _ => .unary op
  | .binary _ _ _ => .paren
  | .cond _ _ _ => .word .ifWord "if".toList
  | .fn _ _ _ => .word .fnWord "fn".toList
  | .call callee _ => callee.opening
  | .array _ => .bracket
  | .index _ _ => .paren

def Item.opening : Item Unit → Opening
  | .expr e => e.opening
  | .bind _ _ => .word .letWord "let".toList
  | .ret _ => .word .returnWord "return".toList
  | .block _ => .brace

namespace Opening

variable {rest : List Char}

theorem of_word {word : String} (hne : word ≠ "") (hchars : word.toList.all isWordChar = true)
    (hrest : Separate rest) :
    Opening.of (word.toList ++ rest) =
      some (.word ((Kind.ofKeyword? word).getD .ident) word.toList) := by
  have hall := List.all_eq_true.mp hchars
  have htake : (word.toList ++ rest).takeWhile isWordChar = word.toList := by
    have hspan := @span_append isWordChar word.toList rest fun _ c hc => (hrest c hc).1
    rw [hspan.1, List.takeWhile_eq_self_iff.mpr hall]
  obtain ⟨c, cs, hcs⟩ := List.exists_cons_of_ne_nil (show word.toList ≠ [] by simpa using hne)
  have hc : isWordChar c = true := hall c (hcs ▸ List.mem_cons_self)
  rw [hcs, List.cons_append] at htake ⊢
  unfold Opening.of
  split
  case h_7 d ds _ _ _ _ _ _ heq =>
    obtain ⟨rfl, rfl⟩ := List.cons.inj heq
    simp only [hc, if_true, htake]
    rw [← hcs, String.ofList_toList]
  case h_8 heq => cases heq
  all_goals
    rename_i heq
    rw [(List.cons.inj heq).1] at hc
    cases hc

theorem of_name {name : String} (h : isName name = true) (hrest : Separate rest) :
    Opening.of (name.toList ++ rest) = some (.word .ident name.toList) := by
  simp only [isName, Bool.and_eq_true, decide_eq_true_eq, Option.isNone_iff_eq_none] at h
  obtain ⟨⟨hne, hchars⟩, hkeyword⟩ := h
  rw [of_word hne hchars hrest, hkeyword]
  rfl

theorem of_digit {c : Char} (h : c.isDigit = true) : Opening.of (c :: rest) = some .number := by
  have hword : isWordChar c = false := (isDigit_apart h).2.2.2
  unfold Opening.of
  split
  case h_7 d ds _ _ _ _ _ _ heq =>
    obtain ⟨rfl, rfl⟩ := List.cons.inj heq
    simp [hword, h]
  case h_8 heq => cases heq
  all_goals
    rename_i heq
    rw [(List.cons.inj heq).1] at h
    cases h

/-- An opening bracket is that of a unary operator or of another expression. -/
theorem of_paren {opening : Opening} (h : Opening.of rest = some opening) :
    Opening.of ('(' :: rest) = some .paren := by
  unfold Opening.of
  split
  case h_6 => rfl
  case h_4 heq =>
    rw [(List.cons.inj heq).2] at h
    cases h
  case h_5 heq =>
    rw [(List.cons.inj heq).2] at h
    cases h
  case h_7 hnot heq => exact absurd (List.cons.inj heq).1.symm hnot
  case h_8 heq => cases heq
  all_goals
    rename_i heq
    cases (List.cons.inj heq).1

end Opening

/-- Nothing goes on here that an expression could take: no word, no number, and no second
branch of a choice. A call may. -/
structure Follows (rest : List Char) : Prop where
  separate : Separate rest
  noElse {cs : List Char} : rest = ' ' :: cs →
    Opening.of cs ≠ some (.word .elseWord "else".toList)

theorem Follows.cons {c : Char} (h : isWordChar c = false ∧ c.isDigit = false) (hblank : c ≠ ' ')
    (rest : List Char) : Follows (c :: rest) where
  separate := .cons h rest
  noElse heq := absurd (List.cons.inj heq).1 hblank

theorem Follows.blank {rest : List Char}
    (h : Opening.of rest ≠ some (.word .elseWord "else".toList)) : Follows (' ' :: rest) where
  separate := .cons (by decide) rest
  noElse heq := (List.cons.inj heq).2 ▸ h

/-- The canonical text of an expression begins as the expression does. -/
theorem Expr.of_before {rest : List Char} (hrest : Separate rest) :
    ∀ e : Expr Unit, e.IsSource → Opening.of (e.before rest) = some e.opening
  | .var name, h => Opening.of_name h hrest
  | .lit (.int n), h => by
      obtain ⟨hne, hdigits⟩ := text_eq_digits h
      obtain ⟨c, cs, hcs⟩ := List.exists_cons_of_ne_nil hne
      have hc := hdigits c (hcs ▸ List.mem_cons_self)
      have htext : (Expr.lit (.int n)).before rest = c :: (cs ++ rest) := by
        simp [Expr.before, Expr.render, Literal.render, hcs]
      rw [htext]
      exact Opening.of_digit hc
  | .lit (.text s), _ => by simp [Expr.before, Expr.render, Literal.render, Opening.of, opening]
  | .lit (.bool true), _ => Opening.of_word (by decide) (by decide) hrest
  | .lit (.bool false), _ => Opening.of_word (by decide) (by decide) hrest
  | .unary op operand, _ => by
      rw [before_unary]
      cases op <;> rfl
  | .binary left op right, h => by
      rw [before_binary]
      exact Opening.of_paren (Expr.of_before (.cons (by decide) _) left h.1)
  | .cond test yes no, _ => by
      rw [before_cond]
      exact @Opening.of_word _ "if" (by decide) (by decide) (.cons (by decide) _)
  | .fn () params body, _ => by
      rw [before_fn]
      exact @Opening.of_word _ "fn" (by decide) (by decide) (.cons (by decide) _)
  | .call callee args, h => by
      rw [before_call]
      exact Expr.of_before (.cons (by decide) _) callee h.1
  | .array elements, _ => by
      rw [before_array]
      rfl
  | .index base position, h => by
      rw [before_index]
      exact Opening.of_paren (Expr.of_before (.cons (by decide) _) base h.1)

/-- The canonical text of an item begins as the item does. -/
theorem Item.of_before {rest : List Char} (hrest : Separate rest) {item : Item Unit}
    (h : item.IsSource) : Opening.of (item.before rest) = some item.opening := by
  cases item with
  | expr e =>
      rw [before_expr]
      exact e.of_before hrest h
  | bind name init =>
      rw [before_bind]
      exact @Opening.of_word _ "let" (by decide) (by decide) (.cons (by decide) _)
  | ret e =>
      rw [before_ret]
      exact @Opening.of_word _ "return" (by decide) (by decide) (.cons (by decide) _)
  | block items =>
      rw [before_block]
      cases items <;> rfl

/-- No expression begins with a word that only begins items, or with a brace. -/
theorem Expr.opening_apart : ∀ e : Expr Unit, e.opening ≠ .brace ∧
    ∀ kind chars, e.opening = .word kind chars →
      kind ≠ .letWord ∧ kind ≠ .returnWord ∧ kind ≠ .elseWord
  | .var name => by simp [opening]
  | .lit (.int _) => by simp [opening]
  | .lit (.text _) => by simp [opening]
  | .lit (.bool true) => by simp [opening]
  | .lit (.bool false) => by simp [opening]
  | .unary _ _ => by simp [opening]
  | .binary _ _ _ => by simp [opening]
  | .cond _ _ _ => by simp [opening]
  | .fn _ _ _ => by simp [opening]
  | .call callee _ => Expr.opening_apart callee
  | .array _ => by simp [opening]
  | .index _ _ => by simp [opening]

/-- No item begins with the word between the branches of a choice. -/
theorem Item.opening_ne_else (item : Item Unit) (chars : List Char) :
    item.opening ≠ .word .elseWord chars := by
  cases item with
  | expr e => exact fun heq => (e.opening_apart.2 _ _ heq).2.2 rfl
  | bind | ret | block => simp [opening]

end Scriptlet
