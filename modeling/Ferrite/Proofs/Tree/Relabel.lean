import Mathlib.Data.List.Basic
import Ferrite.Diagnostic
import Ferrite.Failure
import Ferrite.Proofs.Tree.Parts
import Ferrite.Tree.Printer

/-!
The same tree with other places and other numbers. Two trees say the same if they become equal when
all their places are made one, and their numbers too where these do not matter.
-/

namespace Ferrite

/-- New places and new numbers for all that carries some. -/
structure Relabel where
  place : Span → Span
  number : NodeId → NodeId

namespace Relabel

/-- New places, and the same numbers. -/
abbrev moved (place : Span → Span) : Relabel := ⟨place, id⟩

/-- Keeps the numbers and forgets the places. -/
abbrev unplaced : Relabel := moved fun _ => default

/-- Forgets the places and the numbers. -/
def bare : Relabel := ⟨fun _ => default, fun _ => 0⟩

/-- What was made of places and numbers is made of the new ones in the same way. -/
structure Lawful (r : Relabel) : Prop where
  join : ∀ a b, r.place (a.join b) = (r.place a).join (r.place b)
  succ : ∀ n, r.number (n + 1) = r.number n + 1

theorem unplaced_lawful : unplaced.Lawful where
  join _ _ := rfl
  succ _ := rfl

end Relabel

variable (r : Relabel)

def Token.relabel (t : Token) : Token := { t with span := r.place t.span }

def Located.relabel {α : Type} (l : Located α) : Located α := { l with span := r.place l.span }

def Diagnostic.relabel (d : Diagnostic) : Diagnostic := { d with span := r.place d.span }

def Ident.relabel (i : Ident) : Ident := { i with span := r.place i.span }

def Header.relabel (h : Header) : Header where
  id := r.number h.id
  name := h.name.relabel r
  params := h.params.map (Ident.relabel r)
  signature := h.signature
  span := r.place h.span

mutual
def Expr.relabel : Expr → Expr
  | .literal id span value => .literal (r.number id) (r.place span) value
  | .path id span name => .path (r.number id) (r.place span) (name.relabel r)
  | .grouped id span inner => .grouped (r.number id) (r.place span) inner.relabel
  | .unary id span op operand => .unary (r.number id) (r.place span) op operand.relabel
  | .binary id span op lhs rhs => .binary (r.number id) (r.place span) op lhs.relabel rhs.relabel
  | .call id span callee args =>
      .call (r.number id) (r.place span) (callee.relabel r) (relabelExprs args)
  | .ret id span none => .ret (r.number id) (r.place span) none
  | .ret id span (some value) => .ret (r.number id) (r.place span) (some value.relabel)
  | .block id span body => .block (r.number id) (r.place span) body.relabel
  | .loop id span body => .loop (r.number id) (r.place span) body.relabel
  | .while id span cond body => .while (r.number id) (r.place span) cond.relabel body.relabel
  | .cond id span branches => .cond (r.number id) (r.place span) branches.relabel

def relabelExprs : List Expr → List Expr
  | [] => []
  | e :: es => e.relabel :: relabelExprs es

def Cond.relabel : Cond → Cond
  | .only cond yes => .only cond.relabel yes.relabel
  | .orElse cond yes no => .orElse cond.relabel yes.relabel no.relabel
  | .orIf cond yes no => .orIf cond.relabel yes.relabel no.relabel

def Block.relabel : Block → Block
  | .mk id span items stmts none =>
      .mk (r.number id) (r.place span) (relabelItems items) (relabelStmts stmts) none
  | .mk id span items stmts (some e) =>
      .mk (r.number id) (r.place span) (relabelItems items) (relabelStmts stmts) (some e.relabel)

def relabelStmts : List Stmt → List Stmt
  | [] => []
  | s :: ss => s.relabel :: relabelStmts ss

def Stmt.relabel : Stmt → Stmt
  | .bind id span name type init =>
      .bind (r.number id) (r.place span) (name.relabel r) type init.relabel
  | .expr span value semi => .expr (r.place span) value.relabel semi

def relabelItems : List Item → List Item
  | [] => []
  | i :: is => i.relabel :: relabelItems is

def Item.relabel : Item → Item
  | .function header body => .function (header.relabel r) body.relabel
  | .foreign span abi functions => .foreign (r.place span) abi (functions.map (Header.relabel r))
end

def Program.relabel (p : Program) : Program := ⟨p.items.map (Item.relabel r), r.place p.span⟩

def Failure.relabel : Failure → Failure
  | .unsupported construct span => .unsupported construct (r.place span)
  | f => f

@[simp] theorem relabelExprs_eq (es : List Expr) : relabelExprs r es = es.map (Expr.relabel r) := by
  induction es with
  | nil => rfl
  | cons e es ih => rw [relabelExprs, ih, List.map_cons]

@[simp] theorem relabelStmts_eq (ss : List Stmt) : relabelStmts r ss = ss.map (Stmt.relabel r) := by
  induction ss with
  | nil => rfl
  | cons s ss ih => rw [relabelStmts, ih, List.map_cons]

@[simp] theorem relabelItems_eq (is : List Item) : relabelItems r is = is.map (Item.relabel r) := by
  induction is with
  | nil => rfl
  | cons i is ih => rw [relabelItems, ih, List.map_cons]

@[simp] theorem Block.relabel_mk (id : NodeId) (span : Span) (items : List Item) (stmts : List Stmt)
    (tail : Option Expr) : (Block.mk id span items stmts tail).relabel r =
      .mk (r.number id) (r.place span) (items.map (Item.relabel r)) (stmts.map (Stmt.relabel r))
        (tail.map (Expr.relabel r)) := by
  cases tail <;> simp [Block.relabel]

@[simp] theorem Expr.relabel_ret (id : NodeId) (span : Span) (value : Option Expr) :
    (Expr.ret id span value).relabel r =
      .ret (r.number id) (r.place span) (value.map (Expr.relabel r)) := by
  cases value <;> rfl

@[simp] theorem Expr.relabel_span (e : Expr) : (e.relabel r).span = r.place e.span := by
  cases e with
  | ret id span value => cases value <;> rfl
  | _ => rfl

@[simp] theorem Expr.relabel_id (e : Expr) : (e.relabel r).id = r.number e.id := by
  cases e with
  | ret id span value => cases value <;> rfl
  | _ => rfl

@[simp] theorem Block.relabel_span (b : Block) : (b.relabel r).span = r.place b.span := by
  obtain ⟨id, span, items, stmts, tail⟩ := b
  cases tail <;> rfl

@[simp] theorem Block.relabel_id (b : Block) : (b.relabel r).id = r.number b.id := by
  obtain ⟨id, span, items, stmts, tail⟩ := b
  cases tail <;> rfl

@[simp] theorem Expr.relabel_endsInBlock (e : Expr) : (e.relabel r).endsInBlock = e.endsInBlock := by
  cases e with
  | ret id span value => cases value <;> rfl
  | _ => rfl

@[simp] theorem Expr.relabel_returned? (e : Expr) :
    (e.relabel r).returned? = e.returned?.map (Option.map (Expr.relabel r)) := by
  cases e with
  | ret id span value => cases value <;> rfl
  | _ => rfl

@[simp] theorem Expr.relabel_place? (e : Expr) :
    (e.relabel r).place? = e.place?.map (Ident.relabel r) := by
  induction e using Expr.place?.induct with
  | case1 => rfl
  | case2 id span inner ih => exact ih
  | case3 e hpath hgrouped =>
    cases e with
    | path => exact absurd rfl (hpath _ _ _)
    | grouped => exact absurd rfl (hgrouped _ _ _)
    | ret id span value => cases value <;> rfl
    | _ => rfl

@[simp] theorem Block.relabel_trailingReturn? (b : Block) : (b.relabel r).trailingReturn? =
    b.trailingReturn?.map (Option.map (Expr.relabel r)) := by
  obtain ⟨id, span, items, stmts, tail⟩ := b
  cases tail with
  | some e => rfl
  | none =>
    simp only [Block.relabel_mk, Block.trailingReturn?, Block.tail, Block.stmts, Option.map_none,
      List.getLast?_map]
    rcases stmts.getLast? with _ | _ | ⟨place, value, semi⟩
    · rfl
    · rfl
    · exact value.relabel_returned? r

@[simp] theorem Block.relabel_endsInReturn (b : Block) :
    (b.relabel r).endsInReturn = b.endsInReturn := by
  rw [Block.endsInReturn, Block.relabel_trailingReturn?, Option.isSome_map, Block.endsInReturn]

@[simp] theorem Cond.relabel_cond (c : Cond) : (c.relabel r).cond = c.cond.relabel r := by
  cases c <;> rfl

@[simp] theorem Cond.relabel_yes (c : Cond) : (c.relabel r).yes = c.yes.relabel r := by
  cases c <;> rfl

@[simp] theorem Item.relabel_headers (i : Item) :
    (i.relabel r).headers = i.headers.map (Header.relabel r) := by
  cases i <;> rfl

/-! ## Twice -/

/-- One relabelling behind the other. -/
def Relabel.comp (s r : Relabel) : Relabel := ⟨s.place ∘ r.place, s.number ∘ r.number⟩

section

variable (s : Relabel)

theorem Header.relabel_relabel (h : Header) : (h.relabel r).relabel s = h.relabel (s.comp r) := by
  simp only [Header.relabel, List.map_map]
  rfl

mutual
theorem Expr.relabel_relabel (e : Expr) : (e.relabel r).relabel s = e.relabel (s.comp r) := by
  cases e with
  | literal | path => rfl
  | grouped id span inner => simp only [Expr.relabel, inner.relabel_relabel]; rfl
  | unary id span op operand => simp only [Expr.relabel, operand.relabel_relabel]; rfl
  | binary id span op lhs rhs => simp only [Expr.relabel, lhs.relabel_relabel, rhs.relabel_relabel]; rfl
  | call id span callee args => simp only [Expr.relabel, relabelExprs_relabel args]; rfl
  | ret id span value =>
    cases value with
    | none => rfl
    | some value => simp only [Expr.relabel, value.relabel_relabel]; rfl
  | block id span body => simp only [Expr.relabel, body.relabel_relabel]; rfl
  | loop id span body => simp only [Expr.relabel, body.relabel_relabel]; rfl
  | «while» id span cond body => simp only [Expr.relabel, cond.relabel_relabel, body.relabel_relabel]; rfl
  | cond id span branches => simp only [Expr.relabel, branches.relabel_relabel]; rfl

theorem relabelExprs_relabel (es : List Expr) :
    relabelExprs s (relabelExprs r es) = relabelExprs (s.comp r) es := by
  cases es with
  | nil => rfl
  | cons e es => rw [relabelExprs, relabelExprs, relabelExprs, e.relabel_relabel, relabelExprs_relabel es]

theorem Cond.relabel_relabel (c : Cond) : (c.relabel r).relabel s = c.relabel (s.comp r) := by
  cases c with
  | only cond yes => simp only [Cond.relabel, cond.relabel_relabel, yes.relabel_relabel]
  | orElse cond yes no =>
    simp only [Cond.relabel, cond.relabel_relabel, yes.relabel_relabel, no.relabel_relabel]
  | orIf cond yes no =>
    simp only [Cond.relabel, cond.relabel_relabel, yes.relabel_relabel, no.relabel_relabel]

theorem Block.relabel_relabel (b : Block) : (b.relabel r).relabel s = b.relabel (s.comp r) := by
  obtain ⟨id, span, items, stmts, tail⟩ := b
  cases tail with
  | none => simp only [Block.relabel, relabelItems_relabel items, relabelStmts_relabel stmts]; rfl
  | some e =>
    simp only [Block.relabel, relabelItems_relabel items, relabelStmts_relabel stmts, e.relabel_relabel]
    rfl

theorem relabelStmts_relabel (ss : List Stmt) :
    relabelStmts s (relabelStmts r ss) = relabelStmts (s.comp r) ss := by
  cases ss with
  | nil => rfl
  | cons t ss => rw [relabelStmts, relabelStmts, relabelStmts, t.relabel_relabel, relabelStmts_relabel ss]

theorem Stmt.relabel_relabel (t : Stmt) : (t.relabel r).relabel s = t.relabel (s.comp r) := by
  cases t with
  | bind id span name type init => simp only [Stmt.relabel, init.relabel_relabel]; rfl
  | expr span value semi => simp only [Stmt.relabel, value.relabel_relabel]; rfl

theorem relabelItems_relabel (is : List Item) :
    relabelItems s (relabelItems r is) = relabelItems (s.comp r) is := by
  cases is with
  | nil => rfl
  | cons i is => rw [relabelItems, relabelItems, relabelItems, i.relabel_relabel, relabelItems_relabel is]

theorem Item.relabel_relabel (i : Item) : (i.relabel r).relabel s = i.relabel (s.comp r) := by
  cases i with
  | function header body => simp only [Item.relabel, header.relabel_relabel, body.relabel_relabel]
  | «foreign» span abi functions =>
    simp only [Item.relabel, List.map_map, Function.comp_def, Header.relabel_relabel]
    rfl
end

end

/-! ## Nodes -/

namespace Node

def relabel : Node → Node
  | .expr e => .expr (e.relabel r)
  | .block b => .block (b.relabel r)
  | .stmt s => .stmt (s.relabel r)
  | .item i => .item (i.relabel r)

theorem parts_cond_relabel (c : Cond) : (c.relabel r).parts = c.parts.map (relabel r) := by
  cases c with
  | only | orElse => rfl
  | orIf cond yes no => simp [Cond.relabel, Cond.parts, parts_cond_relabel no, relabel]

theorem parts_relabel (n : Node) : (n.relabel r).parts = n.parts.map (relabel r) := by
  cases n with
  | expr e =>
    cases e with
    | ret id span value => cases value <;> rfl
    | call id span callee args => simp [relabel, Expr.relabel, parts]
    | cond id span branches => exact parts_cond_relabel r branches
    | _ => rfl
  | block b =>
    obtain ⟨id, span, items, stmts, tail⟩ := b
    rw [relabel, Block.relabel_mk]
    simp only [parts, Block.items, Block.stmts, Block.tail, List.map_append, List.map_map]
    cases tail <;> rfl
  | stmt s => cases s <;> rfl
  | item i => cases i <;> rfl

theorem nodes_relabel (n : Node) : (n.relabel r).nodes = n.nodes.map (relabel r) := by
  rw [nodes_eq, n.nodes_eq, parts_relabel, List.flatMap_map, List.map_cons, List.map_flatMap]
  refine congrArg (_ :: ·) (List.flatMap_congr fun m hm => ?_)
  exact nodes_relabel m
termination_by n.nodes.length
decreasing_by exact length_lt_of_part hm

end Node

theorem Program.nodes_relabel (p : Program) : (p.relabel r).nodes = p.nodes.map (Node.relabel r) := by
  rw [Program.nodes_eq, p.nodes_eq, Program.relabel, List.map_map, List.flatMap_map, List.flatMap_map,
    List.map_flatMap]
  exact List.flatMap_congr fun i _ => Node.nodes_relabel r (.item i)

theorem Program.allItems_relabel (p : Program) :
    (p.relabel r).allItems = p.allItems.map (Item.relabel r) := by
  rw [allItems, allItems, nodes_relabel, List.filterMap_map, List.map_filterMap]
  congr 1
  funext n
  cases n <;> rfl

/-! ## Printing -/

theorem Header.print_relabel (h : Header) : (h.relabel r).print = h.print := by
  have hparams : (h.relabel r).params.zip h.signature.params =
      (h.params.zip h.signature.params).map (Prod.map (Ident.relabel r) (fun t => t)) := by
    rw [Header.relabel, List.zip_map_left]
    rfl
  unfold print
  rw [show (h.relabel r).signature = h.signature from rfl, hparams, List.map_map]
  rfl

mutual
theorem Expr.print_relabel (e : Expr) : (e.relabel r).print = e.print := by
  cases e with
  | literal | path => rfl
  | grouped id span inner => exact inner.print_relabel
  | unary id span op operand => rw [Expr.relabel, Expr.print, Expr.print, operand.print_relabel]
  | binary id span op lhs rhs =>
    rw [Expr.relabel, Expr.print, Expr.print, lhs.print_relabel, rhs.print_relabel]
  | call id span callee args =>
    rw [Expr.relabel, Expr.print, Expr.print, printArgs_relabel args]
    rfl
  | ret id span value =>
    cases value with
    | none => rfl
    | some value => rw [Expr.relabel, Expr.print, Expr.print, value.print_relabel]
  | block id span body => exact body.print_relabel
  | loop id span body => rw [Expr.relabel, Expr.print, Expr.print, body.print_relabel]
  | «while» id span cond body =>
    rw [Expr.relabel, Expr.print, Expr.print, cond.print_relabel, body.print_relabel]
  | cond id span branches => exact branches.print_relabel

theorem printArgs_relabel (es : List Expr) : printArgs (relabelExprs r es) = printArgs es := by
  cases es with
  | nil => rfl
  | cons e es => rw [relabelExprs, printArgs, printArgs, e.print_relabel, printArgs_relabel es]

theorem Cond.print_relabel (c : Cond) : (c.relabel r).print = c.print := by
  cases c with
  | only cond yes => rw [Cond.relabel, Cond.print, Cond.print, cond.print_relabel, yes.print_relabel]
  | orElse cond yes no =>
    rw [Cond.relabel, Cond.print, Cond.print, cond.print_relabel, yes.print_relabel, no.print_relabel]
  | orIf cond yes no =>
    rw [Cond.relabel, Cond.print, Cond.print, cond.print_relabel, yes.print_relabel, no.print_relabel]

theorem Block.print_relabel (b : Block) : (b.relabel r).print = b.print := by
  obtain ⟨id, span, items, stmts, tail⟩ := b
  cases tail with
  | none =>
    rw [Block.relabel, Block.print, Block.print, printItems_relabel items, printStmts_relabel stmts]
  | some e =>
    rw [Block.relabel, Block.print, Block.print, printItems_relabel items, printStmts_relabel stmts]
    simp only [e.print_relabel]

theorem printStmts_relabel (ss : List Stmt) : printStmts (relabelStmts r ss) = printStmts ss := by
  cases ss with
  | nil => rfl
  | cons s ss => rw [relabelStmts, printStmts, printStmts, s.print_relabel, printStmts_relabel ss]

theorem Stmt.print_relabel (s : Stmt) : (s.relabel r).print = s.print := by
  cases s with
  | bind id span name type init =>
    rw [Stmt.relabel, Stmt.print, Stmt.print, init.print_relabel]
    rfl
  | expr span value semi => rw [Stmt.relabel, Stmt.print, Stmt.print, value.print_relabel]

theorem printItems_relabel (is : List Item) : printItems (relabelItems r is) = printItems is := by
  cases is with
  | nil => rfl
  | cons i is => rw [relabelItems, printItems, printItems, i.print_relabel, printItems_relabel is]

theorem Item.print_relabel (i : Item) : (i.relabel r).print = i.print := by
  cases i with
  | function header body =>
    rw [Item.relabel, Item.print, Item.print, header.print_relabel, body.print_relabel]
  | «foreign» span abi functions =>
    rw [Item.relabel, Item.print, Item.print, List.map_map]
    simp only [Function.comp_def, Header.print_relabel]
end

theorem Program.print_relabel (p : Program) : (p.relabel r).print = p.print := by
  rw [print, relabel, List.map_map, print]
  simp only [Function.comp_def, Item.print_relabel]

end Ferrite
