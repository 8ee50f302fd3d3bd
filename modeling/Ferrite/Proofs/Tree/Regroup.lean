import Ferrite.Proofs.Tree.Relabel

/-!
Parentheses in a tree. The same tree without any, and with a pair around each operator and no others,
as it is printed.
-/

namespace Ferrite

variable (wrap : Expr → Expr)

mutual
/-- Without the parentheses of the source, and with each operator wrapped. -/
def Expr.regroup : Expr → Expr
  | .literal id span value => .literal id span value
  | .path id span name => .path id span name
  | .grouped _ _ inner => inner.regroup
  | .unary id span op operand => wrap (.unary id span op operand.regroup)
  | .binary id span op lhs rhs => wrap (.binary id span op lhs.regroup rhs.regroup)
  | .call id span callee args => .call id span callee (regroupExprs args)
  | .ret id span none => .ret id span none
  | .ret id span (some value) => .ret id span (some value.regroup)
  | .block id span body => .block id span body.regroup
  | .loop id span body => .loop id span body.regroup
  | .while id span cond body => .while id span cond.regroup body.regroup
  | .cond id span branches => .cond id span branches.regroup

def regroupExprs : List Expr → List Expr
  | [] => []
  | e :: es => e.regroup :: regroupExprs es

def Cond.regroup : Cond → Cond
  | .only cond yes => .only cond.regroup yes.regroup
  | .orElse cond yes no => .orElse cond.regroup yes.regroup no.regroup
  | .orIf cond yes no => .orIf cond.regroup yes.regroup no.regroup

def Block.regroup : Block → Block
  | .mk id span items stmts none => .mk id span (regroupItems items) (regroupStmts stmts) none
  | .mk id span items stmts (some e) =>
      .mk id span (regroupItems items) (regroupStmts stmts) (some e.regroup)

def regroupStmts : List Stmt → List Stmt
  | [] => []
  | s :: ss => s.regroup :: regroupStmts ss

def Stmt.regroup : Stmt → Stmt
  | .bind id span name type init => .bind id span name type init.regroup
  | .expr span value semi => .expr span value.regroup semi

def regroupItems : List Item → List Item
  | [] => []
  | i :: is => i.regroup :: regroupItems is

def Item.regroup : Item → Item
  | .function header body => .function header body.regroup
  | .foreign span abi functions => .foreign span abi functions
end

@[simp] theorem regroupExprs_eq (es : List Expr) : regroupExprs wrap es = es.map (Expr.regroup wrap) := by
  induction es with
  | nil => rfl
  | cons e es ih => rw [regroupExprs, ih, List.map_cons]

@[simp] theorem regroupStmts_eq (ss : List Stmt) : regroupStmts wrap ss = ss.map (Stmt.regroup wrap) := by
  induction ss with
  | nil => rfl
  | cons s ss ih => rw [regroupStmts, ih, List.map_cons]

@[simp] theorem regroupItems_eq (is : List Item) : regroupItems wrap is = is.map (Item.regroup wrap) := by
  induction is with
  | nil => rfl
  | cons i is ih => rw [regroupItems, ih, List.map_cons]

/-- Without any parentheses. -/
abbrev Expr.ungroup : Expr → Expr := Expr.regroup fun e => e

abbrev Item.ungroup : Item → Item := Item.regroup fun e => e

/-- What a program is without its places, its numbers and its parentheses. -/
def Program.shape (p : Program) : List Item := p.items.map fun i => (i.relabel .bare).ungroup

def Expr.parenthesize (e : Expr) : Expr := .grouped 0 default e

/-- With parentheses around each operator and no others. -/
abbrev Expr.full : Expr → Expr := Expr.regroup Expr.parenthesize

/-! ## Without the parentheses again -/

section

variable (r : Relabel)

mutual
theorem Expr.ungroup_regroup (e : Expr) : ((e.regroup .parenthesize).relabel r).ungroup = (e.relabel r).ungroup := by
  cases e with
  | literal | path => rfl
  | grouped id span inner => exact inner.ungroup_regroup
  | unary id span op operand => simp only [Expr.regroup, Expr.parenthesize, Expr.relabel, operand.ungroup_regroup]
  | binary id span op lhs rhs =>
    simp only [Expr.regroup, Expr.parenthesize, Expr.relabel, lhs.ungroup_regroup, rhs.ungroup_regroup]
  | call id span callee args => simp only [Expr.regroup, Expr.relabel, ungroup_regroupExprs args]
  | ret id span value =>
    cases value with
    | none => rfl
    | some value => simp only [Expr.regroup, Expr.relabel, value.ungroup_regroup]
  | block id span body => simp only [Expr.regroup, Expr.relabel, body.ungroup_regroup]
  | loop id span body => simp only [Expr.regroup, Expr.relabel, body.ungroup_regroup]
  | «while» id span cond body =>
    simp only [Expr.regroup, Expr.relabel, cond.ungroup_regroup, body.ungroup_regroup]
  | cond id span branches => simp only [Expr.regroup, Expr.relabel, branches.ungroup_regroup]

theorem ungroup_regroupExprs (es : List Expr) :
    regroupExprs (fun e => e) (relabelExprs r (regroupExprs .parenthesize es)) =
      regroupExprs (fun e => e) (relabelExprs r es) := by
  cases es with
  | nil => rfl
  | cons e es => simp only [regroupExprs, relabelExprs, e.ungroup_regroup, ungroup_regroupExprs es]

theorem Cond.ungroup_regroup (c : Cond) :
    ((c.regroup .parenthesize).relabel r).regroup (fun e => e) = (c.relabel r).regroup fun e => e := by
  cases c with
  | only cond yes => simp only [Cond.regroup, Cond.relabel, cond.ungroup_regroup, yes.ungroup_regroup]
  | orElse cond yes no =>
    simp only [Cond.regroup, Cond.relabel, cond.ungroup_regroup, yes.ungroup_regroup, no.ungroup_regroup]
  | orIf cond yes no =>
    simp only [Cond.regroup, Cond.relabel, cond.ungroup_regroup, yes.ungroup_regroup, no.ungroup_regroup]

theorem Block.ungroup_regroup (b : Block) :
    ((b.regroup .parenthesize).relabel r).regroup (fun e => e) = (b.relabel r).regroup fun e => e := by
  obtain ⟨id, span, items, stmts, tail⟩ := b
  cases tail with
  | none =>
    simp only [Block.regroup, Block.relabel, ungroup_regroupItems items, ungroup_regroupStmts stmts]
  | some e =>
    simp only [Block.regroup, Block.relabel, ungroup_regroupItems items, ungroup_regroupStmts stmts,
      e.ungroup_regroup]

theorem ungroup_regroupStmts (ss : List Stmt) :
    regroupStmts (fun e => e) (relabelStmts r (regroupStmts .parenthesize ss)) =
      regroupStmts (fun e => e) (relabelStmts r ss) := by
  cases ss with
  | nil => rfl
  | cons s ss => simp only [regroupStmts, relabelStmts, s.ungroup_regroup, ungroup_regroupStmts ss]

theorem Stmt.ungroup_regroup (s : Stmt) :
    ((s.regroup .parenthesize).relabel r).regroup (fun e => e) = (s.relabel r).regroup fun e => e := by
  cases s with
  | bind id span name type init => simp only [Stmt.regroup, Stmt.relabel, init.ungroup_regroup]
  | expr span value semi => simp only [Stmt.regroup, Stmt.relabel, value.ungroup_regroup]

theorem ungroup_regroupItems (is : List Item) :
    regroupItems (fun e => e) (relabelItems r (regroupItems .parenthesize is)) =
      regroupItems (fun e => e) (relabelItems r is) := by
  cases is with
  | nil => rfl
  | cons i is => simp only [regroupItems, relabelItems, i.ungroup_regroup, ungroup_regroupItems is]

theorem Item.ungroup_regroup (i : Item) : ((i.regroup .parenthesize).relabel r).ungroup = (i.relabel r).ungroup := by
  cases i with
  | function header body => simp only [Item.regroup, Item.relabel, body.ungroup_regroup]
  | «foreign» => rfl
end

end

end Ferrite
