import Mathlib.Data.List.Induction
import Scriptlet.Proofs.Program.Numbering

/-!
# The nodes of programs

A node is a place in a program or in the body of a function literal, given by the way to it.
Expressions that are written alike have nodes of their own. Numbered literals tell bodies
apart, so one list holds the nodes of all programs of a session.
-/

namespace Scriptlet

/-- What the way to a node begins at: a program, by its place among those run, or the body
of the function literal with the number. -/
inductive Root where
  | program (index : Nat)
  | body (literal : Nat)
  deriving DecidableEq

/-- Programs are among the first so many. -/
def Root.Before (count : Nat) : Root → Prop
  | .program index => index < count
  | .body _ => True

/-- A place in a program or in a body. The way to it has the last step first. -/
structure Node where
  root : Root
  path : List Nat
  deriving DecidableEq

namespace Node

def child (node : Node) (i : Nat) : Node :=
  ⟨node.root, i :: node.path⟩

/-- The other node is the node itself or stands in it. -/
def Under (node other : Node) : Prop :=
  other.root = node.root ∧ node.path <:+ other.path

/-- The other node stands in the node and is another. -/
def Inside (node other : Node) : Prop :=
  ∃ i, (node.child i).Under other

variable {node other : Node} {i j : Nat}

theorem Under.refl (node : Node) : node.Under node :=
  ⟨rfl, List.suffix_refl _⟩

theorem Under.of_child (h : (node.child i).Under other) : node.Under other :=
  ⟨h.1, (List.suffix_cons i node.path).trans h.2⟩

theorem Inside.under (h : node.Inside other) : node.Under other :=
  h.elim fun _ hchild => hchild.of_child

theorem not_inside_self (node : Node) : ¬node.Inside node := by
  rintro ⟨i, _, hsuffix⟩
  have hlength := hsuffix.length_le
  simp only [child, List.length_cons] at hlength
  omega

/-- The children of a node have nothing in common. -/
theorem Under.eq_child (h : (node.child i).Under other) (h' : (node.child j).Under other) :
    i = j := by
  have hsuffix := List.suffix_of_suffix_length_le h.2 h'.2 (Nat.le_refl _)
  have hpath : (node.child i).path = (node.child j).path := hsuffix.eq_of_length rfl
  exact (List.cons.inj hpath).1

theorem child_disjoint (hij : i ≠ j) (other : Node) (h : (node.child i).Under other) :
    ¬(node.child j).Under other :=
  fun h' => hij (h.eq_child h')

end Node

mutual

/-- The nodes of an expression at a node, each with the expression that stands there. The
body of a function literal begins at its own root. -/
def Expr.nodes (node : Node) : Expr Nat → List (Node × Expr Nat)
  | .var name => [(node, .var name)]
  | .lit literal => [(node, .lit literal)]
  | .unary op operand => (node, .unary op operand) :: operand.nodes (node.child 0)
  | .binary left op right =>
      (node, .binary left op right) :: (left.nodes (node.child 0) ++ right.nodes (node.child 1))
  | .cond test yes no =>
      (node, .cond test yes no) :: (test.nodes (node.child 0) ++
        (Item.nodesAll (node.child 1) yes ++ Item.nodesElse (node.child 2) no))
  | .fn literal params body =>
      (node, .fn literal params body) :: Item.nodesAll ⟨.body literal, []⟩ body
  | .call callee args =>
      (node, .call callee args) ::
        (callee.nodes (node.child 0) ++ Expr.nodesAll (node.child 1) args)
  | .array elements => (node, .array elements) :: Expr.nodesAll (node.child 0) elements
  | .index base position =>
      (node, .index base position) ::
        (base.nodes (node.child 0) ++ position.nodes (node.child 1))

/-- The nodes of an item. An item is no node itself. -/
def Item.nodes (node : Node) : Item Nat → List (Node × Expr Nat)
  | .expr e => e.nodes node
  | .bind _ init => init.nodes node
  | .ret e => e.nodes node
  | .block items => Item.nodesAll node items

/-- The first stands at one child, and the others at the next. -/
def Expr.nodesAll (node : Node) : List (Expr Nat) → List (Node × Expr Nat)
  | [] => []
  | e :: es => e.nodes (node.child 0) ++ Expr.nodesAll (node.child 1) es

def Item.nodesAll (node : Node) : List (Item Nat) → List (Node × Expr Nat)
  | [] => []
  | item :: items => item.nodes (node.child 0) ++ Item.nodesAll (node.child 1) items

def Item.nodesElse (node : Node) : Option (List (Item Nat)) → List (Node × Expr Nat)
  | none => []
  | some items => Item.nodesAll node items

end

mutual

/-- There is a node for every part. -/
theorem Expr.map_nodes : ∀ (e : Expr Nat) (node : Node) (depth : Nat),
    (e.nodes node).map Prod.snd = (e.parts depth).map Prod.snd
  | .var _, _, _ | .lit _, _, _ => rfl
  | .unary _ operand, _, _ => congrArg (List.cons _) (operand.map_nodes _ _)
  | .binary left _ right, node, depth => by
      simp only [Expr.nodes, Expr.parts, List.map_cons, List.map_append,
        left.map_nodes _ depth, right.map_nodes _ depth]
  | .cond test yes no, node, depth => by
      simp only [Expr.nodes, Expr.parts, List.map_cons, List.map_append,
        test.map_nodes _ depth, Item.map_nodesAll yes _ depth, Item.map_nodesElse no _ depth]
  | .fn _ _ body, _, _ => congrArg (List.cons _) (Item.map_nodesAll body _ _)
  | .call callee args, node, depth => by
      simp only [Expr.nodes, Expr.parts, List.map_cons, List.map_append,
        callee.map_nodes _ depth, Expr.map_nodesAll args _ depth]
  | .array elements, _, _ => congrArg (List.cons _) (Expr.map_nodesAll elements _ _)
  | .index base position, node, depth => by
      simp only [Expr.nodes, Expr.parts, List.map_cons, List.map_append,
        base.map_nodes _ depth, position.map_nodes _ depth]

theorem Item.map_nodes : ∀ (item : Item Nat) (node : Node) (depth : Nat),
    (item.nodes node).map Prod.snd = (item.parts depth).map Prod.snd
  | .expr e, _, _ | .ret e, _, _ => e.map_nodes _ _
  | .bind _ init, _, _ => init.map_nodes _ _
  | .block items, _, _ => Item.map_nodesAll items _ _

theorem Expr.map_nodesAll : ∀ (es : List (Expr Nat)) (node : Node) (depth : Nat),
    (Expr.nodesAll node es).map Prod.snd = (Expr.partsAll depth es).map Prod.snd
  | [], _, _ => rfl
  | e :: es, node, depth => by
      simp only [Expr.nodesAll, Expr.partsAll, List.map_append, e.map_nodes _ depth,
        Expr.map_nodesAll es _ depth]

theorem Item.map_nodesAll : ∀ (items : List (Item Nat)) (node : Node) (depth : Nat),
    (Item.nodesAll node items).map Prod.snd = (Item.partsAll depth items).map Prod.snd
  | [], _, _ => rfl
  | item :: items, node, depth => by
      simp only [Item.nodesAll, Item.partsAll, List.map_append, item.map_nodes _ depth,
        Item.map_nodesAll items _ depth]

theorem Item.map_nodesElse : ∀ (no : Option (List (Item Nat))) (node : Node) (depth : Nat),
    (Item.nodesElse node no).map Prod.snd = (Item.partsElse depth no).map Prod.snd
  | none, _, _ => rfl
  | some items, _, _ => Item.map_nodesAll items _ _

end

/-- Sites are nodes with what stands there. With a function literal its body is among the
sites, and the programs are the first so many. -/
structure Sited (count : Nat) (sites : List (Node × Expr Nat)) : Prop where
  root : ∀ site ∈ sites, site.1.root.Before count
  body {node : Node} {literal : Nat} {params : List String} {body : Program Nat} :
    (node, .fn literal params body) ∈ sites → Item.nodesAll ⟨.body literal, []⟩ body ⊆ sites

namespace Sited

variable {count count' : Nat} {sites more : List (Node × Expr Nat)} {node : Node}

theorem nil : Sited count [] :=
  ⟨by simp, by simp⟩

theorem append (h : Sited count sites) (h' : Sited count more) : Sited count (sites ++ more) where
  root := List.forall_mem_append.mpr ⟨h.root, h'.root⟩
  body hliteral := by
    rcases List.mem_append.mp hliteral with hliteral | hliteral
    · exact List.subset_append_of_subset_left more (h.body hliteral)
    · exact List.subset_append_of_subset_right sites (h'.body hliteral)

theorem cons (hroot : node.root.Before count) {e : Expr Nat} (he : e.mark? = none)
    (h : Sited count sites) : Sited count ((node, e) :: sites) where
  root := List.forall_mem_cons.mpr ⟨hroot, h.root⟩
  body hliteral := by
    rcases List.mem_cons.mp hliteral with heq | hliteral
    · obtain ⟨rfl, rfl⟩ := Prod.mk.inj heq
      cases he
    · exact List.subset_cons_of_subset _ (h.body hliteral)

theorem fn (hroot : node.root.Before count) {literal : Nat} {params : List String}
    {body : Program Nat} (h : Sited count (Item.nodesAll ⟨.body literal, []⟩ body)) :
    Sited count ((Expr.fn literal params body).nodes node) where
  root := List.forall_mem_cons.mpr ⟨hroot, h.root⟩
  body hliteral := by
    rcases List.mem_cons.mp hliteral with heq | hliteral
    · cases heq
      exact List.subset_cons_self _ _
    · exact List.subset_cons_of_subset _ (h.body hliteral)

theorem mono (h : Sited count sites) (hcount : count ≤ count') : Sited count' sites where
  root site hsite := by
    have hbefore := h.root site hsite
    cases hroot : site.1.root with
    | program index =>
        rw [hroot] at hbefore
        exact Nat.lt_of_lt_of_le hbefore hcount
    | body literal => exact True.intro
  body := h.body

end Sited

mutual

theorem Expr.sited {count : Nat} : ∀ (e : Expr Nat) (node : Node), node.root.Before count →
    Sited count (e.nodes node)
  | .var _, _, hroot | .lit _, _, hroot => .cons hroot rfl .nil
  | .unary _ operand, _, hroot => .cons hroot rfl (operand.sited _ hroot)
  | .binary left _ right, _, hroot =>
      .cons hroot rfl ((left.sited (Node.child _ 0) hroot).append (right.sited _ hroot))
  | .cond test yes no, _, hroot =>
      .cons hroot rfl ((test.sited (Node.child _ 0) hroot).append
        ((Item.sitedAll yes (Node.child _ 1) hroot).append (Item.sitedElse no _ hroot)))
  | .fn _ _ body, _, hroot => .fn hroot (Item.sitedAll body _ True.intro)
  | .call callee args, _, hroot =>
      .cons hroot rfl ((callee.sited (Node.child _ 0) hroot).append (Expr.sitedAll args _ hroot))
  | .array elements, _, hroot => .cons hroot rfl (Expr.sitedAll elements _ hroot)
  | .index base position, _, hroot =>
      .cons hroot rfl ((base.sited (Node.child _ 0) hroot).append (position.sited _ hroot))

theorem Item.sited {count : Nat} : ∀ (item : Item Nat) (node : Node), node.root.Before count →
    Sited count (item.nodes node)
  | .expr e, _, hroot | .ret e, _, hroot => e.sited _ hroot
  | .bind _ init, _, hroot => init.sited _ hroot
  | .block items, _, hroot => Item.sitedAll items _ hroot

theorem Expr.sitedAll {count : Nat} : ∀ (es : List (Expr Nat)) (node : Node),
    node.root.Before count → Sited count (Expr.nodesAll node es)
  | [], _, _ => .nil
  | e :: es, _, hroot => (e.sited (Node.child _ 0) hroot).append (Expr.sitedAll es _ hroot)

theorem Item.sitedAll {count : Nat} : ∀ (items : List (Item Nat)) (node : Node),
    node.root.Before count → Sited count (Item.nodesAll node items)
  | [], _, _ => .nil
  | item :: items, _, hroot =>
      (item.sited (Node.child _ 0) hroot).append (Item.sitedAll items _ hroot)

theorem Item.sitedElse {count : Nat} : ∀ (no : Option (List (Item Nat))) (node : Node),
    node.root.Before count → Sited count (Item.nodesElse node no)
  | none, _, _ => .nil
  | some items, _, hroot => Item.sitedAll items _ hroot

end

/-- The nodes of all programs, each program at the root of its place. -/
def sourceNodes (sources : List (Program Nat)) : List (Node × Expr Nat) :=
  sources.zipIdx.flatMap fun source => Item.nodesAll ⟨.program source.2, []⟩ source.1

theorem sourceNodes_append (sources : List (Program Nat)) (program : Program Nat) :
    sourceNodes (sources ++ [program]) =
      sourceNodes sources ++ Item.nodesAll ⟨.program sources.length, []⟩ program := by
  simp [sourceNodes, List.zipIdx_append]

theorem sited_sourceNodes (sources : List (Program Nat)) :
    Sited sources.length (sourceNodes sources) := by
  induction sources using List.reverseRecOn with
  | nil => exact .nil
  | append_singleton sources program ih =>
      rw [sourceNodes_append, List.length_append, List.length_singleton]
      exact (ih.mono (Nat.le_succ _)).append (Item.sitedAll program _ (Nat.lt_succ_self _))

end Scriptlet
