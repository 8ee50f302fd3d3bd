import Ferrite.Tree.Operator
import Ferrite.Ty

/-!
Syntax trees. Expressions, blocks, `let` statements and functions carry a number by which later
passes refer to them; the trees themselves are never changed.
-/

namespace Ferrite

abbrev NodeId := Nat

/-- A name at a place. -/
structure Ident where
  text : String
  span : Span
  deriving DecidableEq, Repr

/-- A function up to its body. -/
structure Header where
  id : NodeId
  name : Ident
  params : List Ident
  signature : Signature
  span : Span
  deriving DecidableEq, Repr

mutual
inductive Expr
  | literal (id : NodeId) (span : Span) (value : Literal)
  | path (id : NodeId) (span : Span) (name : Ident)
  | grouped (id : NodeId) (span : Span) (inner : Expr)
  | unary (id : NodeId) (span : Span) (op : UnaryOp) (operand : Expr)
  | binary (id : NodeId) (span : Span) (op : BinaryOp) (lhs rhs : Expr)
  | call (id : NodeId) (span : Span) (callee : Ident) (args : List Expr)
  | ret (id : NodeId) (span : Span) (value : Option Expr)
  | block (id : NodeId) (span : Span) (body : Block)
  | loop (id : NodeId) (span : Span) (body : Block)
  | while (id : NodeId) (span : Span) (cond : Expr) (body : Block)
  | cond (id : NodeId) (span : Span) (branches : Cond)

/-- A chain of conditions. Only its first link is an expression of its own. -/
inductive Cond
  | only (cond : Expr) (yes : Block)
  | orElse (cond : Expr) (yes no : Block)
  | orIf (cond : Expr) (yes : Block) (no : Cond)

inductive Block
  | mk (id : NodeId) (span : Span) (items : List Item) (stmts : List Stmt) (tail : Option Expr)

inductive Stmt
  | bind (id : NodeId) (span : Span) (name : Ident) (type : Option Ty) (init : Expr)
  | expr (span : Span) (value : Expr) (semi : Bool)

inductive Item
  | function (header : Header) (body : Block)
  | foreign (span : Span) (abi : String) (functions : List Header)
end

/-- A whole source text. -/
structure Program where
  items : List Item
  span : Span

namespace Block

def id : Block → NodeId
  | .mk id .. => id

def span : Block → Span
  | .mk _ span .. => span

def items : Block → List Item
  | .mk _ _ items .. => items

def stmts : Block → List Stmt
  | .mk _ _ _ stmts _ => stmts

def tail : Block → Option Expr
  | .mk _ _ _ _ tail => tail

end Block

namespace Expr

def id : Expr → NodeId
  | .literal id .. | .path id .. | .grouped id .. | .unary id .. | .binary id .. | .call id ..
  | .ret id .. | .block id .. | .loop id .. | .while id .. | .cond id .. => id

def span : Expr → Span
  | .literal _ span _ | .path _ span _ | .grouped _ span _ | .unary _ span .. | .binary _ span ..
  | .call _ span .. | .ret _ span _ | .block _ span _ | .loop _ span _ | .while _ span ..
  | .cond _ span _ => span

/-- Whether the expression ends with a block, so that no `;` has to follow it. -/
def endsInBlock : Expr → Bool
  | .block .. | .loop .. | .while .. | .cond .. => true
  | _ => false

/-- What a `return` gives back; the outer option tells whether it is one. -/
def returned? : Expr → Option (Option Expr)
  | .ret _ _ value => some value
  | _ => none

/-- The name that can be assigned to, if the expression is one. -/
def place? : Expr → Option Ident
  | .path _ _ name => some name
  | .grouped _ _ inner => inner.place?
  | _ => none

end Expr

namespace Cond

def cond : Cond → Expr
  | .only c _ | .orElse c _ _ | .orIf c _ _ => c

def yes : Cond → Block
  | .only _ b | .orElse _ b _ | .orIf _ b _ => b

end Cond

namespace Stmt

def span : Stmt → Span
  | .bind _ span .. | .expr span .. => span

end Stmt

namespace Item

def span : Item → Span
  | .function header _ => header.span
  | .foreign span .. => span

/-- A function's name, or the convention of foreign functions. -/
def label : Item → String
  | .function header _ => header.name.text
  | .foreign _ abi _ => "extern " ++ abi

/-- The functions that the item declares by itself. -/
def headers : Item → List Header
  | .function header _ => [header]
  | .foreign _ _ functions => functions

end Item

namespace Block

/-- What the block returns, if its last statement is a `return` and nothing follows it. -/
def trailingReturn? (b : Block) : Option (Option Expr) :=
  match b.tail, b.stmts.getLast? with
  | none, some (.expr _ value _) => value.returned?
  | _, _ => none

def endsInReturn (b : Block) : Bool := b.trailingReturn?.isSome

end Block
end Ferrite
