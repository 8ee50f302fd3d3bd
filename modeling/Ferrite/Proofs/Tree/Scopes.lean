import Ferrite.Proofs.Tree.Number
import Ferrite.Scope.Stack

/-!
The order in which a walk over a tree opens scopes and closes them: a block has a scope of its
own, and so has a function, around that of its body.
-/

namespace Ferrite
open Scope (Event)

/-- A scope around what happens inside it. -/
def enclosed (inside : List Event) : List Event := .push :: (inside ++ [.pop])

theorem count_enclosed (inside : List Event) :
    (enclosed inside).count .push = inside.count .push + 1 := by
  simp [enclosed, List.count_append]

mutual
def Expr.scopes : Expr → List Event
  | .literal .. | .path .. | .ret _ _ none => []
  | .grouped _ _ inner => inner.scopes
  | .unary _ _ _ operand => operand.scopes
  | .binary _ _ _ lhs rhs => lhs.scopes ++ rhs.scopes
  | .call _ _ _ args => exprScopes args
  | .ret _ _ (some value) => value.scopes
  | .block _ _ body | .loop _ _ body => body.scopes
  | .while _ _ cond body => cond.scopes ++ body.scopes
  | .cond _ _ branches => branches.scopes

def exprScopes : List Expr → List Event
  | [] => []
  | e :: es => e.scopes ++ exprScopes es

def Cond.scopes : Cond → List Event
  | .only cond yes => cond.scopes ++ yes.scopes
  | .orElse cond yes no => cond.scopes ++ yes.scopes ++ no.scopes
  | .orIf cond yes no => cond.scopes ++ yes.scopes ++ no.scopes

def Block.scopes : Block → List Event
  | .mk _ _ items stmts none => enclosed (itemScopes items ++ stmtScopes stmts)
  | .mk _ _ items stmts (some e) => enclosed (itemScopes items ++ stmtScopes stmts ++ e.scopes)

def stmtScopes : List Stmt → List Event
  | [] => []
  | s :: ss => s.scopes ++ stmtScopes ss

def Stmt.scopes : Stmt → List Event
  | .bind _ _ _ _ init => init.scopes
  | .expr _ value _ => value.scopes

def itemScopes : List Item → List Event
  | [] => []
  | i :: is => i.scopes ++ itemScopes is

def Item.scopes : Item → List Event
  | .function _ body => enclosed body.scopes
  | .foreign .. => []
end

/-- The scope of the program itself is around those of its functions. -/
def Program.scopes (p : Program) : List Event := enclosed (itemScopes p.items)

/-- What is assigned to opens no scope. -/
theorem Expr.scopes_of_place? : ∀ (e : Expr) (name : Ident), e.place? = some name → e.scopes = []
  | .path .., _, _ => rfl
  | .grouped _ _ inner, name, h => by
    rw [Expr.scopes]
    exact inner.scopes_of_place? name h

/-- The nodes that carry a number of their own. -/
def ids (ns : List Node) : List NodeId := ns.filterMap Node.id?

@[simp] theorem ids_nil : ids [] = [] := rfl

@[simp] theorem ids_append (ms ns : List Node) : ids (ms ++ ns) = ids ms ++ ids ns := by
  simp [ids]

@[simp] theorem ids_expr (e : Expr) (ns : List Node) : ids (.expr e :: ns) = e.id :: ids ns := rfl

@[simp] theorem ids_block (b : Block) (ns : List Node) : ids (.block b :: ns) = b.id :: ids ns := rfl

@[simp] theorem ids_item (i : Item) (ns : List Node) : ids (.item i :: ns) = ids ns := rfl

@[simp] theorem ids_bind (id : NodeId) (span : Span) (name : Ident) (type : Option Ty) (init : Expr)
    (ns : List Node) : ids (.stmt (.bind id span name type init) :: ns) = id :: ids ns := rfl

@[simp] theorem ids_stmt_expr (span : Span) (value : Expr) (semi : Bool) (ns : List Node) :
    ids (.stmt (.expr span value semi) :: ns) = ids ns := rfl

theorem Expr.mem_nodes (e : Expr) : .expr e ∈ e.nodes := by
  cases e <;> try exact List.mem_cons_self
  rename_i value
  cases value <;> exact List.mem_cons_self

theorem item_mem_nodes {i : Item} {is : List Item} (h : i ∈ is) : .item i ∈ itemNodes is := by
  rw [itemNodes_eq, List.mem_flatMap]
  refine ⟨i, h, ?_⟩
  cases i <;> exact List.mem_cons_self

theorem mem_ids {e : Expr} {ns : List Node} (h : .expr e ∈ ns) : e.id ∈ ids ns :=
  List.mem_filterMap.mpr ⟨_, h, rfl⟩

theorem Expr.id_mem (e : Expr) : e.id ∈ ids e.nodes := mem_ids e.mem_nodes

/-- What a block returns last is one of its nodes. -/
theorem Block.returned_mem_nodes {b : Block} {value : Expr} (h : b.trailingReturn? = some (some value)) :
    .expr value ∈ stmtNodes b.stmts := by
  unfold Block.trailingReturn? at h
  split at h
  · rename_i place e semi htail hlast
    rw [stmtNodes_eq, List.mem_flatMap]
    refine ⟨_, List.mem_of_getLast? hlast, ?_⟩
    cases e with
    | ret id span v =>
      simp only [Expr.returned?, Option.some_inj] at h
      subst h
      exact List.mem_cons_of_mem _ (List.mem_cons_of_mem _ value.mem_nodes)
    | _ => cases h
  · cases h

theorem Block.id_mem (b : Block) : b.id ∈ ids b.nodes := by
  rw [b.nodes_eq, ids_block]
  exact List.mem_cons_self

/-- Besides these numbers, only functions carry some. -/
theorem ids_sublist_numbers (ns : List Node) : List.Sublist (ids ns) (numbers ns) := by
  induction ns with
  | nil => exact .slnil
  | cons n ns ih =>
    rw [numbers_cons]
    rcases n with e | b | (⟨id, span, name, type, init⟩ | ⟨span, value, semi⟩) | i
    · exact ih.cons_cons _
    · exact ih.cons_cons _
    · exact ih.cons_cons _
    · exact ih
    · exact ih.trans (List.sublist_append_right _ _)

end Ferrite
