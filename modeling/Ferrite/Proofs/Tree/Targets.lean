import Ferrite.Proofs.Tree.Visits

/-! The visits of what is assigned to: each of them belongs to an assignment that is visited itself. -/

namespace Ferrite

variable {σ : Type} (w : Pass σ)

/-- The visit is one of the left side of an assignment, which the visits hold too. -/
def Visit.Assigned (v : Visit σ) (visits : List (Visit σ)) : Prop :=
  ∃ h id span lhs rhs s, ⟨.expr (.binary id span .assign lhs rhs), some h, false, s⟩ ∈ visits ∧
    v ∈ lhs.visits w h true s

/-- All visits of what is assigned to belong to assignments among them. -/
def Targeted (visits : List (Visit σ)) : Prop := ∀ v ∈ visits, v.target = true → v.Assigned w visits

variable {w}

theorem Visit.Assigned.mono {v : Visit σ} {xs ys : List (Visit σ)} (h : v.Assigned w xs) (hs : xs ⊆ ys) :
    v.Assigned w ys := by
  obtain ⟨f, id, span, lhs, rhs, s, hmem, hv⟩ := h
  exact ⟨f, id, span, lhs, rhs, s, hs hmem, hv⟩

namespace Targeted

theorem nil : Targeted w ([] : List (Visit σ)) := List.forall_mem_nil _

theorem append {xs ys : List (Visit σ)} (hx : Targeted w xs) (hy : Targeted w ys) :
    Targeted w (xs ++ ys) := by
  intro v hv ht
  rcases List.mem_append.mp hv with hv | hv
  · exact (hx v hv ht).mono (List.subset_append_left xs ys)
  · exact (hy v hv ht).mono (List.subset_append_right xs ys)

theorem root {v : Visit σ} {rest : List (Visit σ)} (hv : v.target = false) (hrest : Targeted w rest) :
    Targeted w (v :: rest) := by
  intro u hu ht
  rcases List.mem_cons.mp hu with rfl | hu
  · rw [hv] at ht
    cases ht
  · exact (hrest u hu ht).mono (List.subset_cons_self v rest)

/-- The visits of an assignment. -/
theorem assign (h : Header) (id : NodeId) (span : Span) (lhs rhs : Expr) (s : σ)
    {visits : List (Visit σ)} (hr : Targeted w visits) :
    Targeted w (⟨.expr (.binary id span .assign lhs rhs), some h, false, s⟩ ::
      (lhs.visits w h true s ++ visits)) := by
  intro v hv ht
  rcases List.mem_cons.mp hv with rfl | hv
  · cases ht
  · rcases List.mem_append.mp hv with hv | hv
    · exact ⟨h, id, span, lhs, rhs, s, List.mem_cons_self, hv⟩
    · exact (hr v hv ht).mono
        (List.subset_cons_of_subset _ (List.subset_append_right _ _))

end Targeted

variable (w)

mutual
theorem Expr.targeted_visits (h : Header) : ∀ (e : Expr) (s : σ), Targeted w (e.visits w h false s)
  | .literal .., s | .path .., s | .ret _ _ none, s => by
    rw [Expr.visits]
    exact .root rfl .nil
  | .grouped _ _ inner, s => by
    rw [Expr.visits]
    exact .root rfl (inner.targeted_visits h s)
  | .unary _ _ _ operand, s => by
    rw [Expr.visits]
    exact .root rfl (operand.targeted_visits h s)
  | .binary id span op lhs rhs, s => by
    rw [Expr.visits]
    by_cases ho : op = .assign
    · subst ho
      exact .assign h id span lhs rhs s (rhs.targeted_visits h _)
    · rw [decide_eq_false ho]
      exact .root rfl ((lhs.targeted_visits h s).append (rhs.targeted_visits h _))
  | .call _ _ _ args, s => by
    rw [Expr.visits]
    exact .root rfl (targeted_exprVisits h args s)
  | .ret _ _ (some value), s => by
    rw [Expr.visits]
    exact .root rfl (value.targeted_visits h s)
  | .block _ _ body, s | .loop _ _ body, s => by
    rw [Expr.visits]
    exact .root rfl (body.targeted_visits h s)
  | .while _ _ cond body, s => by
    rw [Expr.visits]
    exact .root rfl ((cond.targeted_visits h s).append (body.targeted_visits h _))
  | .cond _ _ branches, s => by
    rw [Expr.visits]
    exact .root rfl (branches.targeted_visits h s)

theorem targeted_exprVisits (h : Header) :
    ∀ (es : List Expr) (s : σ), Targeted w (exprVisits w h false es s)
  | [], s => .nil
  | e :: es, s => by
    rw [exprVisits]
    exact (e.targeted_visits h s).append (targeted_exprVisits h es _)

theorem Cond.targeted_visits (h : Header) : ∀ (c : Cond) (s : σ), Targeted w (c.visits w h false s)
  | .only cond yes, s => by
    rw [Cond.visits]
    exact (cond.targeted_visits h s).append (yes.targeted_visits h _)
  | .orElse cond yes no, s => by
    rw [Cond.visits]
    exact ((cond.targeted_visits h s).append (yes.targeted_visits h _)).append (no.targeted_visits h _)
  | .orIf cond yes no, s => by
    rw [Cond.visits]
    exact ((cond.targeted_visits h s).append (yes.targeted_visits h _)).append (no.targeted_visits h _)

theorem Block.targeted_visits (h : Header) : ∀ (b : Block) (s : σ), Targeted w (b.visits w h false s)
  | .mk _ _ items stmts none, s => by
    rw [Block.visits]
    exact .root rfl ((targeted_itemVisits items _).append (targeted_stmtVisits h stmts _))
  | .mk _ _ items stmts (some e), s => by
    rw [Block.visits]
    exact .root rfl (((targeted_itemVisits items _).append (targeted_stmtVisits h stmts _)).append
      (e.targeted_visits h _))

theorem targeted_stmtVisits (h : Header) :
    ∀ (ss : List Stmt) (s : σ), Targeted w (stmtVisits w h false ss s)
  | [], s => .nil
  | stmt :: ss, s => by
    rw [stmtVisits]
    exact (stmt.targeted_visits h s).append (targeted_stmtVisits h ss _)

theorem Stmt.targeted_visits (h : Header) :
    ∀ (stmt : Stmt) (s : σ), Targeted w (stmt.visits w h false s)
  | .bind _ _ _ _ init, s => by
    rw [Stmt.visits]
    exact .root rfl (init.targeted_visits h s)
  | .expr _ value _, s => by
    rw [Stmt.visits]
    exact .root rfl (value.targeted_visits h s)

theorem targeted_itemVisits : ∀ (is : List Item) (s : σ), Targeted w (itemVisits w false is s)
  | [], s => .nil
  | i :: is, s => by
    rw [itemVisits]
    exact (i.targeted_visits s).append (targeted_itemVisits is _)

theorem Item.targeted_visits : ∀ (i : Item) (s : σ), Targeted w (i.visits w false s)
  | .function h body, s => by
    rw [Item.visits]
    exact .root rfl (body.targeted_visits h _)
  | .foreign .., s => .root rfl .nil
end

theorem Program.targeted_visits (p : Program) (s : σ) : Targeted w (p.visits w s) :=
  targeted_itemVisits w p.items s

end Ferrite
