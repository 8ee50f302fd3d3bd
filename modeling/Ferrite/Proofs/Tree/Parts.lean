import Ferrite.Proofs.Tree.Number

/-!
What a program holds, at any depth, and the order of its nodes: each node stands directly before
those inside it.
-/

namespace Ferrite

/-- The expressions and blocks of a chain of conditions. -/
def Cond.parts : Cond → List Node
  | .only cond yes => [.expr cond, .block yes]
  | .orElse cond yes no => [.expr cond, .block yes, .block no]
  | .orIf cond yes no => .expr cond :: .block yes :: no.parts

namespace Node

/-- The nodes right inside a node, in the order of the tree. -/
def parts : Node → List Node
  | .expr (.literal ..) | .expr (.path ..) | .expr (.ret _ _ none) => []
  | .expr (.grouped _ _ e) | .expr (.unary _ _ _ e) | .expr (.ret _ _ (some e)) => [.expr e]
  | .expr (.binary _ _ _ lhs rhs) => [.expr lhs, .expr rhs]
  | .expr (.call _ _ _ args) => args.map .expr
  | .expr (.block _ _ body) | .expr (.loop _ _ body) => [.block body]
  | .expr (.while _ _ cond body) => [.expr cond, .block body]
  | .expr (.cond _ _ branches) => branches.parts
  | .block b => b.items.map .item ++ b.stmts.map .stmt ++ b.tail.toList.map .expr
  | .stmt (.bind _ _ _ _ e) | .stmt (.expr _ e _) => [.expr e]
  | .item (.function _ body) => [.block body]
  | .item (.foreign ..) => []

/-- A node and all nodes inside it. -/
def nodes : Node → List Node
  | .expr e => e.nodes
  | .block b => b.nodes
  | .stmt s => s.nodes
  | .item i => i.nodes

/-- The nodes of trees from front to back, each of them directly before those inside it. -/
inductive Preorder : List Node → List Node → Prop
  | nil : Preorder [] []
  | cons {n : Node} {ns inner rest : List Node} (hinner : Preorder n.parts inner)
      (hrest : Preorder ns rest) : Preorder (n :: ns) (n :: (inner ++ rest))

end Node

/-- The nodes that stand somewhere in a program: as an item of it, or inside such a node. -/
inductive Program.Holds (p : Program) : Node → Prop
  | item {i : Item} (h : i ∈ p.items) : Holds p (.item i)
  | part {n m : Node} (h : Holds p n) (hm : m ∈ n.parts) : Holds p m

theorem Cond.nodes_eq (c : Cond) : c.nodes = c.parts.flatMap Node.nodes := by
  cases c with
  | only cond yes => simp [Cond.nodes, Cond.parts, Node.nodes]
  | orElse cond yes no => simp [Cond.nodes, Cond.parts, Node.nodes]
  | orIf cond yes no => simp [Cond.nodes, Cond.parts, Node.nodes, no.nodes_eq]

namespace Node

theorem nodes_eq (n : Node) : n.nodes = n :: n.parts.flatMap Node.nodes := by
  cases n with
  | expr e =>
    cases e with
    | ret id span value => cases value <;> simp [nodes, parts, Expr.nodes]
    | call id span callee args =>
      simp [nodes, parts, Expr.nodes, exprNodes_eq, List.flatMap_map]
    | cond id span branches => simp [nodes, parts, Expr.nodes, branches.nodes_eq]
    | _ => simp [nodes, parts, Expr.nodes]
  | block b =>
    rw [nodes, Block.nodes_eq, itemNodes_eq, stmtNodes_eq]
    cases h : b.tail <;> simp [parts, h, List.flatMap_map, nodes]
  | stmt s => cases s <;> simp [nodes, parts, Stmt.nodes]
  | item i => cases i <;> simp [nodes, parts, Item.nodes]

theorem length_lt_of_part {n m : Node} (h : m ∈ n.parts) : m.nodes.length < n.nodes.length := by
  obtain ⟨before, behind, heq⟩ := List.append_of_mem h
  rw [n.nodes_eq, heq]
  simp only [List.flatMap_append, List.flatMap_cons, List.length_cons, List.length_append]
  omega

theorem self_mem_nodes (n : Node) : n ∈ n.nodes := by
  rw [nodes_eq]
  exact List.mem_cons_self

/-- The nodes inside a node are those of its parts. -/
theorem mem_nodes_iff {n m : Node} : m ∈ n.nodes ↔ m = n ∨ ∃ l ∈ n.parts, m ∈ l.nodes := by
  rw [nodes_eq, List.mem_cons, List.mem_flatMap]

/-- The parts of the nodes inside a node are inside it too. -/
theorem part_mem_nodes {n m l : Node} (hm : m ∈ n.nodes) (hl : l ∈ m.parts) : l ∈ n.nodes := by
  rcases mem_nodes_iff.mp hm with rfl | ⟨k, hk, hmk⟩
  · exact mem_nodes_iff.mpr (.inr ⟨l, hl, l.self_mem_nodes⟩)
  · exact mem_nodes_iff.mpr (.inr ⟨k, hk, part_mem_nodes hmk hl⟩)
termination_by n.nodes.length
decreasing_by exact length_lt_of_part hk

theorem preorder_flatMap (ns : List Node) : Preorder ns (ns.flatMap nodes) := by
  match ns with
  | [] => exact .nil
  | n :: ns =>
    rw [List.flatMap_cons, n.nodes_eq, List.cons_append]
    exact .cons (preorder_flatMap n.parts) (preorder_flatMap ns)
termination_by (ns.flatMap nodes).length
decreasing_by
  · rw [List.flatMap_cons, n.nodes_eq, List.cons_append, List.length_cons, List.length_append]
    omega
  · rw [List.flatMap_cons, n.nodes_eq, List.cons_append, List.length_cons, List.length_append]
    omega

end Node

namespace Program

theorem nodes_eq (p : Program) : p.nodes = (p.items.map Node.item).flatMap Node.nodes := by
  rw [Program.nodes, itemNodes_eq, List.flatMap_map]
  rfl

theorem nodes_preorder (p : Program) : Node.Preorder (p.items.map Node.item) p.nodes :=
  p.nodes_eq ▸ Node.preorder_flatMap _

theorem Holds.of_mem {p : Program} {n m : Node} (hn : p.Holds n) (hm : m ∈ n.nodes) : p.Holds m := by
  rcases Node.mem_nodes_iff.mp hm with rfl | ⟨l, hl, hml⟩
  · exact hn
  · exact (hn.part hl).of_mem hml
termination_by n.nodes.length
decreasing_by exact Node.length_lt_of_part hl

/-- The nodes of a program are those that it holds. -/
theorem mem_nodes_iff {p : Program} {n : Node} : n ∈ p.nodes ↔ p.Holds n := by
  rw [nodes_eq, List.mem_flatMap]
  constructor
  · rintro ⟨m, hm, hn⟩
    obtain ⟨i, hi, rfl⟩ := List.mem_map.mp hm
    exact (Holds.item hi).of_mem hn
  · intro h
    induction h with
    | item hi => exact ⟨_, List.mem_map_of_mem hi, Node.self_mem_nodes _⟩
    | part _ hm ih =>
      obtain ⟨l, hl, hn⟩ := ih
      exact ⟨l, hl, Node.part_mem_nodes hn hm⟩

end Program
end Ferrite
