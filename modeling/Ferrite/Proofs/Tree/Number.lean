import Ferrite.Tree.Walk

/-! The numbers that the nodes of a tree carry, and the types written in them. -/

namespace Ferrite

namespace Header

/-- Every parameter has a type, and every type of the signature is known. -/
structure Sound (h : Header) : Prop where
  params : h.params.length = h.signature.params.length
  known : h.signature.type.hasUnknown = false

end Header

namespace Node

/-- The numbers of a node itself. An item carries those of the functions it declares. -/
def numbers : Node → List NodeId
  | .expr e => [e.id]
  | .block b => [b.id]
  | .stmt (.bind id ..) => [id]
  | .stmt (.expr ..) => []
  | .item i => i.headers.map Header.id

/-- Whether the types written in a node are known. -/
def Sound : Node → Prop
  | .stmt (.bind _ _ _ declared _) => ∀ t, declared = some t → t.hasUnknown = false
  | .item i => ∀ h ∈ i.headers, h.Sound
  | _ => True

end Node

def numbers (ns : List Node) : List NodeId := ns.flatMap Node.numbers

@[simp] theorem numbers_nil : numbers [] = [] := rfl

@[simp] theorem numbers_cons (n : Node) (ns : List Node) :
    numbers (n :: ns) = n.numbers ++ numbers ns := rfl

@[simp] theorem numbers_append (ms ns : List Node) : numbers (ms ++ ns) = numbers ms ++ numbers ns := by
  simp [numbers]

theorem exprNodes_eq (es : List Expr) : exprNodes es = es.flatMap Expr.nodes := by
  induction es with
  | nil => rfl
  | cons e es ih => rw [exprNodes, ih, List.flatMap_cons]

theorem stmtNodes_eq (ss : List Stmt) : stmtNodes ss = ss.flatMap Stmt.nodes := by
  induction ss with
  | nil => rfl
  | cons s ss ih => rw [stmtNodes, ih, List.flatMap_cons]

theorem itemNodes_eq (is : List Item) : itemNodes is = is.flatMap Item.nodes := by
  induction is with
  | nil => rfl
  | cons i is ih => rw [itemNodes, ih, List.flatMap_cons]

@[simp] theorem stmtNodes_append (ss ts : List Stmt) :
    stmtNodes (ss ++ ts) = stmtNodes ss ++ stmtNodes ts := by
  simp [stmtNodes_eq]

theorem Block.nodes_eq (b : Block) :
    b.nodes = .block b :: (itemNodes b.items ++ stmtNodes b.stmts ++ b.tail.elim [] Expr.nodes) := by
  obtain ⟨id, place, is, ss, _ | e⟩ := b
  · simp [Block.nodes, Block.items, Block.stmts, Block.tail]
  · rfl

/-- Every node of a list is sound. -/
def AllSound (ns : List Node) : Prop := ∀ n ∈ ns, n.Sound

@[simp] theorem allSound_nil : AllSound [] := by
  intro n hn
  cases hn

@[simp] theorem allSound_cons (n : Node) (ns : List Node) :
    AllSound (n :: ns) ↔ n.Sound ∧ AllSound ns := by
  simp [AllSound]

@[simp] theorem allSound_append (ms ns : List Node) :
    AllSound (ms ++ ns) ↔ AllSound ms ∧ AllSound ns := by
  simp [AllSound, or_imp, forall_and]

end Ferrite
