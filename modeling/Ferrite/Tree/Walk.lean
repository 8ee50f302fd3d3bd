import Ferrite.Tree.Basic

/-! What a tree contains, from front to back: each node stands before those inside it. -/

namespace Ferrite

inductive Node
  | expr (e : Expr)
  | block (b : Block)
  | stmt (s : Stmt)
  | item (i : Item)

mutual
def Expr.nodes : Expr → List Node
  | e@(.literal ..) | e@(.path ..) | e@(.ret _ _ none) => [.expr e]
  | e@(.grouped _ _ inner) => .expr e :: inner.nodes
  | e@(.unary _ _ _ operand) => .expr e :: operand.nodes
  | e@(.binary _ _ _ lhs rhs) => .expr e :: (lhs.nodes ++ rhs.nodes)
  | e@(.call _ _ _ args) => .expr e :: exprNodes args
  | e@(.ret _ _ (some value)) => .expr e :: value.nodes
  | e@(.block _ _ body) | e@(.loop _ _ body) => .expr e :: body.nodes
  | e@(.while _ _ cond body) => .expr e :: (cond.nodes ++ body.nodes)
  | e@(.cond _ _ branches) => .expr e :: branches.nodes

def exprNodes : List Expr → List Node
  | [] => []
  | e :: es => e.nodes ++ exprNodes es

def Cond.nodes : Cond → List Node
  | .only cond yes => cond.nodes ++ yes.nodes
  | .orElse cond yes no => cond.nodes ++ yes.nodes ++ no.nodes
  | .orIf cond yes no => cond.nodes ++ yes.nodes ++ no.nodes

def Block.nodes : Block → List Node
  | b@(.mk _ _ items stmts none) => .block b :: (itemNodes items ++ stmtNodes stmts)
  | b@(.mk _ _ items stmts (some e)) =>
      .block b :: (itemNodes items ++ stmtNodes stmts ++ e.nodes)

def stmtNodes : List Stmt → List Node
  | [] => []
  | s :: ss => s.nodes ++ stmtNodes ss

def Stmt.nodes : Stmt → List Node
  | s@(.bind _ _ _ _ init) => .stmt s :: init.nodes
  | s@(.expr _ value _) => .stmt s :: value.nodes

def itemNodes : List Item → List Node
  | [] => []
  | i :: is => i.nodes ++ itemNodes is

def Item.nodes : Item → List Node
  | i@(.function _ body) => .item i :: body.nodes
  | i@(.foreign ..) => [.item i]
end

namespace Node

/-- The number of an expression, block or `let` statement. -/
def id? : Node → Option NodeId
  | .expr e => some e.id
  | .block b => some b.id
  | .stmt (.bind id ..) => some id
  | _ => none

/-- The text of a literal, or of a name that stands for a value. -/
def leaf? : Node → Option String
  | .expr (.literal _ _ value) => some value.display
  | .expr (.path _ _ name) => some name.text
  | _ => none

def item? : Node → Option Item
  | .item i => some i
  | _ => none

end Node

namespace Program

def nodes (p : Program) : List Node := itemNodes p.items

def ids (p : Program) : List NodeId := p.nodes.filterMap Node.id?

def leaves (p : Program) : List String := p.nodes.filterMap Node.leaf?

/-- The items at every depth. -/
def allItems (p : Program) : List Item := p.nodes.filterMap Node.item?

end Program
end Ferrite
