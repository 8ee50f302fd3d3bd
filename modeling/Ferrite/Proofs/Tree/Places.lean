import Ferrite.Proofs.Tree.Parts

/-!
Places of the nodes of a tree: each of them one of the places that are allowed, and each inside the
place of the node that it is a part of.
-/

namespace Ferrite

namespace Span

/-- Begins no earlier and ends no later than the other place. -/
structure Within (inner outer : Span) : Prop where
  start : outer.start ≤ inner.start
  stop : inner.stop ≤ outer.stop

instance (inner outer : Span) : Decidable (inner.Within outer) :=
  decidable_of_iff (outer.start ≤ inner.start ∧ inner.stop ≤ outer.stop)
    ⟨fun ⟨hstart, hstop⟩ => ⟨hstart, hstop⟩, fun h => ⟨h.start, h.stop⟩⟩

theorem within_join_left (a b : Span) : a.Within (a.join b) := ⟨Nat.min_le_left .., Nat.le_max_left ..⟩

theorem within_join_right (a b : Span) : b.Within (a.join b) := ⟨Nat.min_le_right .., Nat.le_max_right ..⟩

end Span

/-- A set of places in which none ends before it begins, and with any two of them the place over both. -/
structure Places (ok : Span → Prop) : Prop where
  ordered : ∀ s, ok s → s.start ≤ s.stop
  join : ∀ a b, ok a → ok b → ok (a.join b)

/-- A function's name and parameters stand in it. -/
structure Header.Sits (ok : Span → Prop) (h : Header) : Prop where
  span : ok h.span
  names : ∀ name ∈ h.name :: h.params, ok name.span ∧ name.span.Within h.span

namespace Node

def span : Node → Span
  | .expr e => e.span
  | .block b => b.span
  | .stmt s => s.span
  | .item i => i.span

/-- The names that are written in a node itself. Those of foreign functions belong to these. -/
def names : Node → List Ident
  | .expr (.path _ _ name) | .expr (.call _ _ name _) | .stmt (.bind _ _ name ..) => [name]
  | .item (.function h _) => h.name :: h.params
  | _ => []

/-- The foreign functions that stand right inside a node. -/
def declared : Node → List Header
  | .item (.foreign _ _ functions) => functions
  | _ => []

/-- A node at an allowed place, and at such places inside it the names, foreign functions and nodes right
inside it. -/
structure Sits (ok : Span → Prop) (n : Node) : Prop where
  span : ok n.span
  names : ∀ name ∈ n.names, ok name.span ∧ name.span.Within n.span
  declared : ∀ h ∈ n.declared, h.Sits ok ∧ h.span.Within n.span
  parts : ∀ m ∈ n.parts, m.span.Within n.span

end Node

/-- Every node of a list sits where it should. -/
def AllSit (ok : Span → Prop) (ns : List Node) : Prop := ∀ n ∈ ns, n.Sits ok

section

variable {ok : Span → Prop} {n : Node} {ns ms : List Node}

@[simp] theorem allSit_cons : AllSit ok (n :: ns) ↔ n.Sits ok ∧ AllSit ok ns := by simp [AllSit]

@[simp] theorem allSit_append : AllSit ok (ns ++ ms) ↔ AllSit ok ns ∧ AllSit ok ms := by
  simp [AllSit, or_imp, forall_and]

@[simp] theorem allSit_flatMap {α : Type} {as : List α} {nodes : α → List Node} :
    AllSit ok (as.flatMap nodes) ↔ ∀ a ∈ as, AllSit ok (nodes a) := by
  simp only [AllSit, List.mem_flatMap]
  exact ⟨fun h a ha n hn => h n ⟨a, ha, hn⟩, fun h n ⟨a, ha, hn⟩ => h a ha n hn⟩

/-- A node and all inside it, from the node and its parts. -/
theorem allSit_nodes (h : n.Sits ok) (hparts : ∀ m ∈ n.parts, AllSit ok m.nodes) : AllSit ok n.nodes := by
  rw [n.nodes_eq, allSit_cons, allSit_flatMap]
  exact ⟨h, hparts⟩

theorem AllSit.self (h : AllSit ok n.nodes) : n.Sits ok := h n n.self_mem_nodes

theorem AllSit.part (h : AllSit ok n.nodes) {m : Node} (hm : m ∈ n.parts) : AllSit ok m.nodes :=
  fun _ hl => h _ (Node.mem_nodes_iff.mpr (.inr ⟨m, hm, hl⟩))

end

end Ferrite
