import Ferrite.Lower.Module
import Ferrite.Proofs.Tree.Number
import Ferrite.Proofs.Tree.Relabel

/-! The same tree at other places is lowered to the same module. -/

namespace Ferrite.Lower

variable (place : Span → Span)

theorem parameters_relabel (h : Header) : parameters (h.relabel (.moved place)) = parameters h := by
  simp only [parameters, Header.relabel, List.length_map, List.zipIdx_map, List.map_map]
  rfl

mutual
theorem expr_relabel (env : Env) (e : Expr) : expr env (e.relabel (.moved place)) = expr env e := by
  cases e with
  | literal | path => rfl
  | grouped id span inner => rw [Expr.relabel, expr, expr, expr_relabel env inner]; rfl
  | unary id span op operand =>
    rw [Expr.relabel, expr, expr, expr_relabel env operand, Expr.relabel_id]
    rfl
  | binary id span op lhs rhs =>
    have hbinary : binary env op (lhs.relabel (.moved place)) (rhs.relabel (.moved place)) =
        binary env op lhs rhs := by
      rw [binary, binary, Expr.relabel_id, Expr.relabel_id]
      rfl
    rw [Expr.relabel, expr, expr, expr_relabel env lhs, expr_relabel env rhs, hbinary,
      Expr.relabel_place?]
    cases lhs.place? <;> rfl
  | call id span callee args =>
    rw [Expr.relabel, relabelExprs_eq, expr, expr, exprs_relabel env args]
    rfl
  | ret id span value =>
    cases value with
    | none => rfl
    | some value => rw [Expr.relabel, expr, expr, expr_relabel env value]; rfl
  | block id span body => rw [Expr.relabel, expr, expr, block_relabel env body]; rfl
  | loop id span body =>
    rw [Expr.relabel, expr, expr, block_relabel env body, Block.relabel_id]
    rfl
  | «while» id span cond body =>
    rw [Expr.relabel, expr, expr, expr_relabel env cond, block_relabel env body, Block.relabel_id]
    rfl
  | cond id span links =>
    rw [Expr.relabel, expr, expr, cond_relabel env links]
    rfl

theorem exprs_relabel (env : Env) (es : List Expr) :
    exprs env (es.map (Expr.relabel (.moved place))) = exprs env es := by
  cases es with
  | nil => rfl
  | cons e es => rw [List.map_cons, exprs, exprs, expr_relabel env e, exprs_relabel env es]

theorem cond_relabel (env : Env) (c : Cond) : cond env (c.relabel (.moved place)) = cond env c := by
  funext t
  cases c with
  | only c yes =>
    rw [Cond.relabel, cond, cond, expr_relabel env c, block_relabel env yes, Block.relabel_id]
    rfl
  | orElse c yes no =>
    rw [Cond.relabel, cond, cond, expr_relabel env c, block_relabel env yes, block_relabel env no]
  | orIf c yes no =>
    rw [Cond.relabel, cond, cond, expr_relabel env c, block_relabel env yes, cond_relabel env no]

theorem block_relabel (env : Env) (b : Block) : block env (b.relabel (.moved place)) = block env b := by
  obtain ⟨id, span, is, ss, tail⟩ := b
  rw [Block.relabel_mk]
  cases tail with
  | none => rw [Option.map_none, block, block, items_relabel env is, stmts_relabel env ss]
  | some e =>
    rw [Option.map_some, block, block, items_relabel env is, stmts_relabel env ss, expr_relabel env e]

theorem stmts_relabel (env : Env) (ss : List Stmt) :
    stmts env (ss.map (Stmt.relabel (.moved place))) = stmts env ss := by
  cases ss with
  | nil => rfl
  | cons s ss => rw [List.map_cons, stmts, stmts, stmt_relabel env s, stmts_relabel env ss]

theorem stmt_relabel (env : Env) (s : Stmt) : stmt env (s.relabel (.moved place)) = stmt env s := by
  cases s with
  | bind id span name declared init => rw [Stmt.relabel, stmt, stmt, expr_relabel env init]; rfl
  | expr span value semi =>
    rw [Stmt.relabel, stmt, stmt, expr_relabel env value, Expr.relabel_id]
    rfl

theorem items_relabel (env : Env) (is : List Item) :
    items env (is.map (Item.relabel (.moved place))) = items env is := by
  cases is with
  | nil => rfl
  | cons i is => rw [List.map_cons, items, items, item_relabel env i, items_relabel env is]

theorem item_relabel (env : Env) (i : Item) : item env (i.relabel (.moved place)) = item env i := by
  cases i with
  | function h body =>
    rw [Item.relabel, item, item, block_relabel env body, parameters_relabel]
    rfl
  | «foreign» span abi functions => rfl
end

variable (p : Program)

theorem foreigns_relabel : foreigns (p.relabel (.moved place)) =
    (foreigns p).map fun f => ⟨f.abi, f.header.relabel (.moved place)⟩ := by
  rw [foreigns, foreigns, Program.allItems_relabel, List.flatMap_map, List.map_flatMap]
  refine List.flatMap_congr fun i _ => ?_
  cases i with
  | function h body => rfl
  | «foreign» span abi functions =>
    rw [Item.relabel, foreignOf, foreignOf, List.map_map, List.map_map]
    rfl

theorem definedOf_relabel (is : List Item) : (is.map (Item.relabel (.moved place))).filterMap definedOf =
    (is.filterMap definedOf).map (Header.relabel (.moved place)) := by
  rw [List.filterMap_map, List.map_filterMap]
  congr 1
  funext i
  cases i <;> rfl

theorem definitions_relabel : definitions (p.relabel (.moved place)) =
    (definitions p).map (Header.relabel (.moved place)) := by
  rw [definitions, Program.allItems_relabel, definedOf_relabel, definitions]

theorem headers_relabel :
    headers (p.relabel (.moved place)) = (headers p).map (Header.relabel (.moved place)) := by
  rw [headers, headers, foreigns_relabel, definitions_relabel, List.map_append, List.map_map, List.map_map]
  rfl

theorem ids_relabel (hs : List Header) :
    (hs.map (Header.relabel (.moved place))).map Header.id = hs.map Header.id := by
  rw [List.map_map]
  rfl

theorem env_relabel (types : TypeTable) : env (p.relabel (.moved place)) types = env p types := by
  rw [env, env, headers_relabel, definitions_relabel, ids_relabel, ids_relabel]

theorem bodies_relabel (checked : Check.Checked) :
    bodies (p.relabel (.moved place)) checked = bodies p checked := by
  unfold bodies
  rw [env_relabel, Program.relabel, items_relabel]

theorem imports_relabel : imports (p.relabel (.moved place)) = imports p := by
  rw [imports, imports, foreigns_relabel, List.zipIdx_map, List.map_map]
  rfl

theorem exports_relabel : exports (p.relabel (.moved place)) = exports p := by
  have htop : ((p.relabel (.moved place)).items.filterMap definedOf).map Header.id =
      (p.items.filterMap definedOf).map Header.id := by
    rw [Program.relabel, definedOf_relabel, ids_relabel]
  unfold exports
  simp only [htop, headers_relabel, definitions_relabel, List.filter_map, List.map_map]
  rfl

/-- The module of a program does not depend on its places. -/
theorem generate_relabel (checked : Check.Checked) :
    generate (p.relabel (.moved place)) checked = generate p checked := by
  have hfunctions : ((definitions (p.relabel (.moved place))).zipIdx
      (foreigns (p.relabel (.moved place))).length).map (·.2) =
        ((definitions p).zipIdx (foreigns p).length).map (·.2) := by
    rw [definitions_relabel, foreigns_relabel, List.length_map, List.zipIdx_map, List.map_map]
    rfl
  unfold generate
  rw [hfunctions, bodies_relabel, headers_relabel, definitions_relabel, imports_relabel, exports_relabel,
    List.mapM_map]
  simp only [List.mapM_map]
  rfl

end Ferrite.Lower
