import Ferrite.Proofs.Tree.Number

/-!
The states in which a pass comes to the nodes of a tree. A pass is given by what it does to its
state at each part; the nodes are visited from front to back, each of them once.
-/

namespace Ferrite

/-- What a pass does to its state at the parts of a tree. -/
structure Pass (σ : Type) where
  expr : Header → Expr → σ → σ
  /-- Past what is assigned to. -/
  target : Header → Expr → σ → σ
  /-- Past a condition. -/
  test : Header → Expr → σ → σ
  block : Header → Block → σ → σ
  stmt : Header → Stmt → σ → σ
  item : Item → σ → σ
  /-- To the start of a block with the given items. -/
  atBlock : List Item → σ → σ
  /-- To the body of a function. -/
  atFunction : Header → σ → σ

namespace Pass

variable {σ σ' : Type}

def exprs (w : Pass σ) (h : Header) (es : List Expr) (s : σ) : σ :=
  es.foldl (fun s e => w.expr h e s) s

def stmts (w : Pass σ) (h : Header) (ss : List Stmt) (s : σ) : σ :=
  ss.foldl (fun s stmt => w.stmt h stmt s) s

def items (w : Pass σ) (is : List Item) (s : σ) : σ := is.foldl (fun s i => w.item i s) s

/-- Past the left operand of an operator. -/
def left (w : Pass σ) (h : Header) (op : BinaryOp) (e : Expr) (s : σ) : σ :=
  if op = .assign then w.target h e s else w.expr h e s

/-- Two passes side by side. -/
def prod (w : Pass σ) (w' : Pass σ') : Pass (σ × σ') where
  expr h e s := (w.expr h e s.1, w'.expr h e s.2)
  target h e s := (w.target h e s.1, w'.target h e s.2)
  test h e s := (w.test h e s.1, w'.test h e s.2)
  block h b s := (w.block h b s.1, w'.block h b s.2)
  stmt h stmt s := (w.stmt h stmt s.1, w'.stmt h stmt s.2)
  item i s := (w.item i s.1, w'.item i s.2)
  atBlock is s := (w.atBlock is s.1, w'.atBlock is s.2)
  atFunction h s := (w.atFunction h s.1, w'.atFunction h s.2)

end Pass

/-- A node, and the state in which a pass comes to it. -/
structure Visit (σ : Type) where
  node : Node
  /-- The function that the node is part of. -/
  owner : Option Header
  /-- Whether the node is part of what is assigned to. -/
  target : Bool
  state : σ

/-- The visit of the first of two passes side by side. -/
def Visit.fst {σ σ' : Type} (v : Visit (σ × σ')) : Visit σ := ⟨v.node, v.owner, v.target, v.state.1⟩

section

variable {σ σ' : Type} (w : Pass σ)

mutual
def Expr.visits (h : Header) (target : Bool) : Expr → σ → List (Visit σ)
  | e@(.literal ..), s | e@(.path ..), s | e@(.ret _ _ none), s => [⟨.expr e, h, target, s⟩]
  | e@(.grouped _ _ inner), s => ⟨.expr e, h, target, s⟩ :: inner.visits h target s
  | e@(.unary _ _ _ operand), s => ⟨.expr e, h, target, s⟩ :: operand.visits h target s
  | e@(.binary _ _ op lhs rhs), s =>
      ⟨.expr e, h, target, s⟩ ::
        (lhs.visits h (target || op = .assign) s ++ rhs.visits h target (w.left h op lhs s))
  | e@(.call _ _ _ args), s => ⟨.expr e, h, target, s⟩ :: exprVisits h target args s
  | e@(.ret _ _ (some value)), s => ⟨.expr e, h, target, s⟩ :: value.visits h target s
  | e@(.block _ _ body), s | e@(.loop _ _ body), s =>
      ⟨.expr e, h, target, s⟩ :: body.visits h target s
  | e@(.while _ _ cond body), s =>
      ⟨.expr e, h, target, s⟩ :: (cond.visits h target s ++ body.visits h target (w.test h cond s))
  | e@(.cond _ _ branches), s => ⟨.expr e, h, target, s⟩ :: branches.visits h target s

def exprVisits (h : Header) (target : Bool) : List Expr → σ → List (Visit σ)
  | [], _ => []
  | e :: es, s => e.visits h target s ++ exprVisits h target es (w.expr h e s)

def Cond.visits (h : Header) (target : Bool) : Cond → σ → List (Visit σ)
  | .only cond yes, s => cond.visits h target s ++ yes.visits h target (w.test h cond s)
  | .orElse cond yes no, s =>
      cond.visits h target s ++ yes.visits h target (w.test h cond s) ++
        no.visits h target (w.block h yes (w.test h cond s))
  | .orIf cond yes no, s =>
      cond.visits h target s ++ yes.visits h target (w.test h cond s) ++
        no.visits h target (w.block h yes (w.test h cond s))

def Block.visits (h : Header) (target : Bool) : Block → σ → List (Visit σ)
  | b@(.mk _ _ items stmts none), s =>
      ⟨.block b, h, target, s⟩ :: (itemVisits target items (w.atBlock items s) ++
        stmtVisits h target stmts (w.items items (w.atBlock items s)))
  | b@(.mk _ _ items stmts (some e)), s =>
      ⟨.block b, h, target, s⟩ :: (itemVisits target items (w.atBlock items s) ++
        stmtVisits h target stmts (w.items items (w.atBlock items s)) ++
        e.visits h target (w.stmts h stmts (w.items items (w.atBlock items s))))

def stmtVisits (h : Header) (target : Bool) : List Stmt → σ → List (Visit σ)
  | [], _ => []
  | stmt :: ss, s => stmt.visits h target s ++ stmtVisits h target ss (w.stmt h stmt s)

def Stmt.visits (h : Header) (target : Bool) : Stmt → σ → List (Visit σ)
  | stmt@(.bind _ _ _ _ init), s => ⟨.stmt stmt, h, target, s⟩ :: init.visits h target s
  | stmt@(.expr _ value _), s => ⟨.stmt stmt, h, target, s⟩ :: value.visits h target s

def itemVisits (target : Bool) : List Item → σ → List (Visit σ)
  | [], _ => []
  | i :: is, s => i.visits target s ++ itemVisits target is (w.item i s)

def Item.visits (target : Bool) : Item → σ → List (Visit σ)
  | i@(.function h body), s => ⟨.item i, none, target, s⟩ :: body.visits h target (w.atFunction h s)
  | i@(.foreign ..), s => [⟨.item i, none, target, s⟩]
end

/-- The visits of a pass that begins in a state inside the program. -/
def Program.visits (p : Program) (s : σ) : List (Visit σ) := itemVisits w false p.items s

theorem Expr.self_mem_visits (h : Header) (target : Bool) (e : Expr) (s : σ) :
    ⟨.expr e, h, target, s⟩ ∈ e.visits w h target s := by
  cases e <;> try exact List.mem_cons_self
  rename_i value
  cases value <;> exact List.mem_cons_self

theorem Block.self_mem_visits (h : Header) (target : Bool) (b : Block) (s : σ) :
    ⟨.block b, h, target, s⟩ ∈ b.visits w h target s := by
  obtain ⟨id, span, is, ss, _ | e⟩ := b <;> exact List.mem_cons_self

mutual
theorem Expr.map_node_visits (h : Header) (target : Bool) :
    ∀ (e : Expr) (s : σ), (e.visits w h target s).map Visit.node = e.nodes
  | .literal .., s | .path .., s | .ret _ _ none, s => rfl
  | .grouped _ _ inner, s => by
    rw [Expr.visits, Expr.nodes, List.map_cons, inner.map_node_visits]
  | .unary _ _ _ operand, s => by
    rw [Expr.visits, Expr.nodes, List.map_cons, operand.map_node_visits]
  | .binary _ _ op lhs rhs, s => by
    rw [Expr.visits, Expr.nodes, List.map_cons, List.map_append, lhs.map_node_visits,
      rhs.map_node_visits]
  | .call _ _ _ args, s => by
    rw [Expr.visits, Expr.nodes, List.map_cons, map_node_exprVisits]
  | .ret _ _ (some value), s => by
    rw [Expr.visits, Expr.nodes, List.map_cons, value.map_node_visits]
  | .block _ _ body, s | .loop _ _ body, s => by
    rw [Expr.visits, Expr.nodes, List.map_cons, body.map_node_visits]
  | .while _ _ cond body, s => by
    rw [Expr.visits, Expr.nodes, List.map_cons, List.map_append, cond.map_node_visits,
      body.map_node_visits]
  | .cond _ _ branches, s => by
    rw [Expr.visits, Expr.nodes, List.map_cons, branches.map_node_visits]

theorem map_node_exprVisits (h : Header) (target : Bool) :
    ∀ (es : List Expr) (s : σ), (exprVisits w h target es s).map Visit.node = exprNodes es
  | [], s => rfl
  | e :: es, s => by
    rw [exprVisits, exprNodes, List.map_append, e.map_node_visits, map_node_exprVisits]

theorem Cond.map_node_visits (h : Header) (target : Bool) :
    ∀ (c : Cond) (s : σ), (c.visits w h target s).map Visit.node = c.nodes
  | .only cond yes, s => by
    rw [Cond.visits, Cond.nodes, List.map_append, cond.map_node_visits, yes.map_node_visits]
  | .orElse cond yes no, s => by
    rw [Cond.visits, Cond.nodes, List.map_append, List.map_append, cond.map_node_visits,
      yes.map_node_visits, no.map_node_visits]
  | .orIf cond yes no, s => by
    rw [Cond.visits, Cond.nodes, List.map_append, List.map_append, cond.map_node_visits,
      yes.map_node_visits, no.map_node_visits]

theorem Block.map_node_visits (h : Header) (target : Bool) :
    ∀ (b : Block) (s : σ), (b.visits w h target s).map Visit.node = b.nodes
  | .mk _ _ items stmts none, s => by
    rw [Block.visits, Block.nodes, List.map_cons, List.map_append, map_node_itemVisits,
      map_node_stmtVisits]
  | .mk _ _ items stmts (some e), s => by
    rw [Block.visits, Block.nodes, List.map_cons, List.map_append, List.map_append,
      map_node_itemVisits, map_node_stmtVisits, e.map_node_visits]

theorem map_node_stmtVisits (h : Header) (target : Bool) :
    ∀ (ss : List Stmt) (s : σ), (stmtVisits w h target ss s).map Visit.node = stmtNodes ss
  | [], s => rfl
  | stmt :: ss, s => by
    rw [stmtVisits, stmtNodes, List.map_append, stmt.map_node_visits, map_node_stmtVisits]

theorem Stmt.map_node_visits (h : Header) (target : Bool) :
    ∀ (stmt : Stmt) (s : σ), (stmt.visits w h target s).map Visit.node = stmt.nodes
  | .bind _ _ _ _ init, s => by
    rw [Stmt.visits, Stmt.nodes, List.map_cons, init.map_node_visits]
  | .expr _ value _, s => by
    rw [Stmt.visits, Stmt.nodes, List.map_cons, value.map_node_visits]

theorem map_node_itemVisits (target : Bool) :
    ∀ (is : List Item) (s : σ), (itemVisits w target is s).map Visit.node = itemNodes is
  | [], s => rfl
  | i :: is, s => by
    rw [itemVisits, itemNodes, List.map_append, i.map_node_visits, map_node_itemVisits]

theorem Item.map_node_visits (target : Bool) :
    ∀ (i : Item) (s : σ), (i.visits w target s).map Visit.node = i.nodes
  | .function _ body, s => by
    rw [Item.visits, Item.nodes, List.map_cons, body.map_node_visits]
  | .foreign .., s => rfl
end

/-- Every node of a program is visited once, from front to back. -/
theorem Program.map_node_visits (p : Program) (s : σ) :
    (p.visits w s).map Visit.node = p.nodes :=
  map_node_itemVisits w false p.items s

/-- The visits of a node and its parts. -/
def Visit.inner (v : Visit σ) : List (Visit σ) :=
  match v.node, v.owner with
  | .expr e, some h => e.visits w h v.target v.state
  | .block b, some h => b.visits w h v.target v.state
  | .stmt stmt, some h => stmt.visits w h v.target v.state
  | .item i, _ => i.visits w v.target v.state
  | _, none => []

/-- The visits hold those of the parts of each node. -/
def Closed (visits : List (Visit σ)) : Prop := ∀ v ∈ visits, v.inner w ⊆ visits

variable {w}

theorem Closed.append {xs ys : List (Visit σ)} (hx : Closed w xs) (hy : Closed w ys) :
    Closed w (xs ++ ys) := by
  intro v hv u hu
  rcases List.mem_append.mp hv with hv | hv
  · exact List.mem_append_left ys (hx v hv hu)
  · exact List.mem_append_right xs (hy v hv hu)

theorem Closed.root {v : Visit σ} {rest : List (Visit σ)} (hv : v.inner w = v :: rest)
    (hrest : Closed w rest) : Closed w (v :: rest) := by
  intro u hu
  rcases List.mem_cons.mp hu with rfl | hu
  · rw [hv]
    exact List.Subset.refl _
  · exact List.Subset.trans (hrest u hu) (List.subset_cons_self v rest)

theorem closed_nil : Closed w ([] : List (Visit σ)) := List.forall_mem_nil _

variable (w)

mutual
theorem Expr.closed_visits (h : Header) (target : Bool) :
    ∀ (e : Expr) (s : σ), Closed w (e.visits w h target s)
  | .literal .., s | .path .., s | .ret _ _ none, s => by
    rw [Expr.visits]
    exact .root rfl closed_nil
  | .grouped _ _ inner, s => by
    rw [Expr.visits]
    exact .root rfl (inner.closed_visits h target s)
  | .unary _ _ _ operand, s => by
    rw [Expr.visits]
    exact .root rfl (operand.closed_visits h target s)
  | .binary _ _ op lhs rhs, s => by
    rw [Expr.visits]
    exact .root rfl ((lhs.closed_visits h _ s).append (rhs.closed_visits h target _))
  | .call _ _ _ args, s => by
    rw [Expr.visits]
    exact .root rfl (closed_exprVisits h target args s)
  | .ret _ _ (some value), s => by
    rw [Expr.visits]
    exact .root rfl (value.closed_visits h target s)
  | .block _ _ body, s | .loop _ _ body, s => by
    rw [Expr.visits]
    exact .root rfl (body.closed_visits h target s)
  | .while _ _ cond body, s => by
    rw [Expr.visits]
    exact .root rfl ((cond.closed_visits h target s).append (body.closed_visits h target _))
  | .cond _ _ branches, s => by
    rw [Expr.visits]
    exact .root rfl (branches.closed_visits h target s)

theorem closed_exprVisits (h : Header) (target : Bool) :
    ∀ (es : List Expr) (s : σ), Closed w (exprVisits w h target es s)
  | [], s => closed_nil
  | e :: es, s => by
    rw [exprVisits]
    exact (e.closed_visits h target s).append (closed_exprVisits h target es _)

theorem Cond.closed_visits (h : Header) (target : Bool) :
    ∀ (c : Cond) (s : σ), Closed w (c.visits w h target s)
  | .only cond yes, s => by
    rw [Cond.visits]
    exact (cond.closed_visits h target s).append (yes.closed_visits h target _)
  | .orElse cond yes no, s => by
    rw [Cond.visits]
    exact ((cond.closed_visits h target s).append (yes.closed_visits h target _)).append
      (no.closed_visits h target _)
  | .orIf cond yes no, s => by
    rw [Cond.visits]
    exact ((cond.closed_visits h target s).append (yes.closed_visits h target _)).append
      (no.closed_visits h target _)

theorem Block.closed_visits (h : Header) (target : Bool) :
    ∀ (b : Block) (s : σ), Closed w (b.visits w h target s)
  | .mk _ _ items stmts none, s => by
    rw [Block.visits]
    exact .root rfl ((closed_itemVisits target items _).append (closed_stmtVisits h target stmts _))
  | .mk _ _ items stmts (some e), s => by
    rw [Block.visits]
    exact .root rfl (((closed_itemVisits target items _).append
      (closed_stmtVisits h target stmts _)).append (e.closed_visits h target _))

theorem closed_stmtVisits (h : Header) (target : Bool) :
    ∀ (ss : List Stmt) (s : σ), Closed w (stmtVisits w h target ss s)
  | [], s => closed_nil
  | stmt :: ss, s => by
    rw [stmtVisits]
    exact (stmt.closed_visits h target s).append (closed_stmtVisits h target ss _)

theorem Stmt.closed_visits (h : Header) (target : Bool) :
    ∀ (stmt : Stmt) (s : σ), Closed w (stmt.visits w h target s)
  | .bind _ _ _ _ init, s => by
    rw [Stmt.visits]
    exact .root rfl (init.closed_visits h target s)
  | .expr _ value _, s => by
    rw [Stmt.visits]
    exact .root rfl (value.closed_visits h target s)

theorem closed_itemVisits (target : Bool) :
    ∀ (is : List Item) (s : σ), Closed w (itemVisits w target is s)
  | [], s => closed_nil
  | i :: is, s => by
    rw [itemVisits]
    exact (i.closed_visits target s).append (closed_itemVisits target is _)

theorem Item.closed_visits (target : Bool) :
    ∀ (i : Item) (s : σ), Closed w (i.visits w target s)
  | .function h body, s => by
    rw [Item.visits]
    exact .root rfl (body.closed_visits h target _)
  | .foreign .., s => .root rfl closed_nil
end

theorem Program.closed_visits (p : Program) (s : σ) : Closed w (p.visits w s) :=
  closed_itemVisits w false p.items s

variable (w' : Pass σ')

theorem Pass.prod_left (h : Header) (op : BinaryOp) (e : Expr) (s : σ × σ') :
    (w.prod w').left h op e s = (w.left h op e s.1, w'.left h op e s.2) := by
  unfold Pass.left
  split <;> rfl

theorem Pass.prod_stmts (h : Header) (ss : List Stmt) (s : σ × σ') :
    (w.prod w').stmts h ss s = (w.stmts h ss s.1, w'.stmts h ss s.2) := by
  induction ss generalizing s with
  | nil => rfl
  | cons stmt ss ih => exact ih _

theorem Pass.prod_items (is : List Item) (s : σ × σ') :
    (w.prod w').items is s = (w.items is s.1, w'.items is s.2) := by
  induction is generalizing s with
  | nil => rfl
  | cons i is ih => exact ih _

mutual
theorem Expr.map_fst_visits (h : Header) (target : Bool) : ∀ (e : Expr) (s : σ × σ'),
    (e.visits (w.prod w') h target s).map Visit.fst = e.visits w h target s.1
  | .literal .., s | .path .., s | .ret _ _ none, s => rfl
  | .grouped _ _ inner, s => by
    rw [Expr.visits, Expr.visits, List.map_cons, inner.map_fst_visits]
    rfl
  | .unary _ _ _ operand, s => by
    rw [Expr.visits, Expr.visits, List.map_cons, operand.map_fst_visits]
    rfl
  | .binary _ _ op lhs rhs, s => by
    rw [Expr.visits, Expr.visits, List.map_cons, List.map_append, lhs.map_fst_visits,
      rhs.map_fst_visits, Pass.prod_left]
    rfl
  | .call _ _ _ args, s => by
    rw [Expr.visits, Expr.visits, List.map_cons, map_fst_exprVisits]
    rfl
  | .ret _ _ (some value), s => by
    rw [Expr.visits, Expr.visits, List.map_cons, value.map_fst_visits]
    rfl
  | .block _ _ body, s | .loop _ _ body, s => by
    rw [Expr.visits, Expr.visits, List.map_cons, body.map_fst_visits]
    rfl
  | .while _ _ cond body, s => by
    rw [Expr.visits, Expr.visits, List.map_cons, List.map_append, cond.map_fst_visits,
      body.map_fst_visits]
    rfl
  | .cond _ _ branches, s => by
    rw [Expr.visits, Expr.visits, List.map_cons, branches.map_fst_visits]
    rfl

theorem map_fst_exprVisits (h : Header) (target : Bool) : ∀ (es : List Expr) (s : σ × σ'),
    (exprVisits (w.prod w') h target es s).map Visit.fst = exprVisits w h target es s.1
  | [], s => rfl
  | e :: es, s => by
    rw [exprVisits, exprVisits, List.map_append, e.map_fst_visits, map_fst_exprVisits]
    rfl

theorem Cond.map_fst_visits (h : Header) (target : Bool) : ∀ (c : Cond) (s : σ × σ'),
    (c.visits (w.prod w') h target s).map Visit.fst = c.visits w h target s.1
  | .only cond yes, s => by
    rw [Cond.visits, Cond.visits, List.map_append, cond.map_fst_visits, yes.map_fst_visits]
    rfl
  | .orElse cond yes no, s => by
    rw [Cond.visits, Cond.visits, List.map_append, List.map_append, cond.map_fst_visits,
      yes.map_fst_visits, no.map_fst_visits]
    rfl
  | .orIf cond yes no, s => by
    rw [Cond.visits, Cond.visits, List.map_append, List.map_append, cond.map_fst_visits,
      yes.map_fst_visits, no.map_fst_visits]
    rfl

theorem Block.map_fst_visits (h : Header) (target : Bool) : ∀ (b : Block) (s : σ × σ'),
    (b.visits (w.prod w') h target s).map Visit.fst = b.visits w h target s.1
  | .mk _ _ items stmts none, s => by
    rw [Block.visits, Block.visits, List.map_cons, List.map_append, map_fst_itemVisits,
      map_fst_stmtVisits, Pass.prod_items]
    rfl
  | .mk _ _ items stmts (some e), s => by
    rw [Block.visits, Block.visits, List.map_cons, List.map_append, List.map_append,
      map_fst_itemVisits, map_fst_stmtVisits, e.map_fst_visits, Pass.prod_stmts, Pass.prod_items]
    rfl

theorem map_fst_stmtVisits (h : Header) (target : Bool) : ∀ (ss : List Stmt) (s : σ × σ'),
    (stmtVisits (w.prod w') h target ss s).map Visit.fst = stmtVisits w h target ss s.1
  | [], s => rfl
  | stmt :: ss, s => by
    rw [stmtVisits, stmtVisits, List.map_append, stmt.map_fst_visits, map_fst_stmtVisits]
    rfl

theorem Stmt.map_fst_visits (h : Header) (target : Bool) : ∀ (stmt : Stmt) (s : σ × σ'),
    (stmt.visits (w.prod w') h target s).map Visit.fst = stmt.visits w h target s.1
  | .bind _ _ _ _ init, s => by
    rw [Stmt.visits, Stmt.visits, List.map_cons, init.map_fst_visits]
    rfl
  | .expr _ value _, s => by
    rw [Stmt.visits, Stmt.visits, List.map_cons, value.map_fst_visits]
    rfl

theorem map_fst_itemVisits (target : Bool) : ∀ (is : List Item) (s : σ × σ'),
    (itemVisits (w.prod w') target is s).map Visit.fst = itemVisits w target is s.1
  | [], s => rfl
  | i :: is, s => by
    rw [itemVisits, itemVisits, List.map_append, i.map_fst_visits, map_fst_itemVisits]
    rfl

theorem Item.map_fst_visits (target : Bool) : ∀ (i : Item) (s : σ × σ'),
    (i.visits (w.prod w') target s).map Visit.fst = i.visits w target s.1
  | .function _ body, s => by
    rw [Item.visits, Item.visits, List.map_cons, body.map_fst_visits]
    rfl
  | .foreign .., s => rfl
end

theorem Program.map_fst_visits (p : Program) (s : σ × σ') :
    (p.visits (w.prod w') s).map Visit.fst = p.visits w s.1 :=
  map_fst_itemVisits w w' false p.items s

end
end Ferrite
