import Ferrite.Check.Walk
import Ferrite.Proofs.Tree.Places
import Ferrite.Proofs.Tree.Relabel

/-!
Checking a tree side by side with the same tree at other places. A relation of steps that is kept by all
that checking is made of relates the two walks; a property of steps is such a relation that does not look
at the second one.
-/

namespace Ferrite

/-- A node at an allowed place, and at such places the names that are written in it. -/
structure Node.Spots (ok : Span → Prop) (n : Node) : Prop where
  span : ok n.span
  names : ∀ name ∈ n.names, ok name.span
  declared : ∀ h ∈ n.declared, ok h.name.span

theorem Node.Sits.spots {ok : Span → Prop} {n : Node} (h : n.Sits ok) : n.Spots ok where
  span := h.span
  names name hname := (h.names name hname).1
  declared f hf := ((h.declared f hf).1.names _ List.mem_cons_self).1

/-- Nothing is asked of the places. -/
theorem Node.spots_anywhere (n : Node) : n.Spots fun _ => True :=
  ⟨trivial, fun _ _ => trivial, fun _ _ => trivial⟩

namespace Check

/-- Declares a local, if its name is free. -/
def insertLocal (name : String) (t : Ty) : Checker Bool :=
  modifyGet fun s =>
    let (free, scopes) := s.scopes.insertLocal name t
    (free, { s with scopes })

/-- Declares a function, if its name is free. -/
def insertDecl (d : Decl) : Checker Bool :=
  modifyGet fun s =>
    let (free, scopes) := s.scopes.insertDecl d
    (free, { s with scopes })

/-- A relation of steps that is kept by what the rules for types are made of. What the first step reports
at an allowed place, the second one reports at its other place. -/
structure Lockstep (ok : Span → Prop) (place : Span → Span)
    (R : {α : Type} → Checker α → Checker α → Prop) : Prop where
  pure : ∀ {α : Type} (a : α), R (Pure.pure a) (Pure.pure a)
  bind : ∀ {α β : Type} {p q : Checker α} {f g : α → Checker β}, R p q → (∀ a, R (f a) (g a)) →
    R (p >>= f) (q >>= g)
  report : ∀ (problem : Problem) {span : Span}, ok span →
    R (report problem span) (report problem (place span))
  owner? : R owner? owner?
  local? : ∀ name, R (local? name) (local? name)
  decl? : ∀ name, R (decl? name) (decl? name)

/-- The same for a walk over a tree. What a block returns last is looked up among the types that its
statements noted, so the two steps are related together. -/
structure LockstepWalk (ok : Span → Prop) (place : Span → Span)
    (R : {α : Type} → Checker α → Checker α → Prop) : Prop extends Lockstep ok place R where
  lawful : (Relabel.moved place).Lawful
  join : ∀ a b, ok a → ok b → ok (a.join b)
  record : ∀ id t, R (record id t) (record id t)
  insertLocal : ∀ name t, R (insertLocal name t) (insertLocal name t)
  insertDecl : ∀ d, R (insertDecl d) (insertDecl d)
  within : ∀ {α : Type} (owner : Owner) {p q : Checker α}, R p q → R (within owner p) (within owner q)
  inScope : ∀ {α : Type} {p q : Checker α}, R p q → R (inScope p) (inScope q)
  inFunctionScope : ∀ {α : Type} {p q : Checker α}, R p q → R (inFunctionScope p) (inFunctionScope q)
  returning : ∀ {b : Block}, R (stmts b.stmts) (stmts (b.relabel (.moved place)).stmts) →
    R (do stmts b.stmts; blockType b none)
      (do stmts (b.relabel (.moved place)).stmts; blockType (b.relabel (.moved place)) none)

variable {ok : Span → Prop} {place : Span → Span} {R : {α : Type} → Checker α → Checker α → Prop}

/-! ## Rules -/

namespace Lockstep

variable (hl : Lockstep ok place R)
include hl

omit hl in
theorem ite {α : Type} {c : Prop} [Decidable c] {p p' q q' : Checker α} (hp : R p q) (hp' : R p' q') :
    R (if c then p else p') (if c then q else q') := by
  split
  · exact hp
  · exact hp'

theorem reportIf (condition : Bool) (problem : Problem) {span : Span} (h : ok span) :
    R (reportIf condition problem span) (reportIf condition problem (place span)) :=
  ite (hl.report problem h) (hl.pure ())

theorem path {name : Ident} (h : ok name.span) : R (path name) (path (name.relabel (.moved place))) := by
  refine hl.bind (hl.local? _) fun found => ?_
  cases found with
  | some t => exact hl.pure t
  | none =>
    refine hl.bind (hl.decl? _) fun found => ?_
    cases found with
    | some d => exact hl.pure _
    | none => exact hl.bind (hl.report _ h) fun _ => hl.pure _

theorem unary (op : UnaryOp) {span : Span} (h : ok span) (t : Ty) :
    R (unary op span t) (unary op (place span) t) :=
  hl.bind (hl.reportIf _ _ h) fun _ => hl.pure t

theorem assignment {target value : Expr} (htarget : ok target.span) (hvalue : ok value.span) (l r : Ty) :
    R (assignment target value l r)
      (assignment (target.relabel (.moved place)) (value.relabel (.moved place)) l r) := by
  have hrest : ∀ isLocal : Bool, R
      (do
        if !isLocal then Check.report .assignment target.span
        else Check.reportIf (!r.fits l) (.mismatch l r) value.span
        return Ty.unit)
      (do
        if !isLocal then Check.report .assignment (place target.span)
        else Check.reportIf (!r.fits l) (.mismatch l r) (place value.span)
        return Ty.unit) := fun isLocal =>
    ite (hl.bind (hl.report _ htarget) fun _ => hl.pure _)
      (hl.bind (hl.reportIf _ _ hvalue) fun _ => hl.pure _)
  unfold Check.assignment
  simp only [Expr.relabel_place?, Expr.relabel_span]
  refine ite ?_ (hl.pure _)
  cases target.place? with
  | none => exact hl.bind (hl.pure _) hrest
  | some name => exact hl.bind (hl.local? _) fun _ => hl.bind (hl.pure _) hrest

theorem binary (op : BinaryOp) {span : Span} (h : ok span) (l r : Ty) :
    R (binary op span l r) (binary op (place span) l r) :=
  ite (hl.bind (hl.report _ h) fun _ => hl.pure _) (hl.bind (hl.reportIf _ _ h) fun _ => hl.pure _)

theorem arguments (callee : String) (number : Nat) {args : List Expr} (h : ∀ arg ∈ args, ok arg.span)
    (types params : List Ty) : R (arguments callee number args types params)
      (arguments callee number (args.map (Expr.relabel (.moved place))) types params) := by
  induction args generalizing number types params with
  | nil => exact hl.pure _
  | cons arg args ih =>
    rw [List.forall_mem_cons] at h
    rcases types with _ | ⟨found, founds⟩
    · exact hl.pure _
    · rcases params with _ | ⟨expected, params⟩
      · exact hl.pure _
      · rw [List.map_cons, Check.arguments, Check.arguments, Expr.relabel_span]
        exact hl.bind (hl.reportIf _ _ h.1) fun _ => ih _ h.2 _ _

theorem call {callee : Ident} {span : Span} {args : List Expr} (hcallee : ok callee.span) (hspan : ok span)
    (hargs : ∀ arg ∈ args, ok arg.span) (types : List Ty) : R (call callee span args types)
      (call (callee.relabel (.moved place)) (place span) (args.map (Expr.relabel (.moved place))) types) := by
  refine hl.bind (hl.local? _) fun found => ?_
  cases found with
  | some t => exact hl.bind (hl.report _ hcallee) fun _ => hl.pure _
  | none =>
    refine hl.bind (hl.decl? _) fun found => ?_
    cases found with
    | none => exact hl.bind (hl.report _ hcallee) fun _ => hl.pure _
    | some d =>
      exact ite (hl.bind (hl.report _ hspan) fun _ => hl.pure _)
        (hl.bind (hl.arguments _ _ hargs _ _) fun _ => hl.pure _)

theorem returned {span : Span} (h : ok span) (t : Ty) : R (returned span t) (returned (place span) t) := by
  refine hl.bind hl.owner? fun found => ?_
  cases found with
  | some o => exact hl.bind (hl.reportIf _ _ h) fun _ => hl.pure _
  | none => exact hl.bind (hl.pure _) fun _ => hl.pure _

theorem truth {span : Span} (h : ok span) (t : Ty) : R (truth span t) (truth (place span) t) :=
  hl.reportIf _ _ h

theorem withoutElse {yes : Block} (h : ok yes.span) (t : Ty) :
    R (withoutElse yes t) (withoutElse (yes.relabel (.moved place)) t) := by
  unfold Check.withoutElse
  rw [Block.relabel_endsInReturn, Block.relabel_span]
  exact hl.bind (hl.reportIf _ _ h) fun _ => hl.pure _

theorem branches (yesReturns : Bool) (yes : Ty) (noReturns : Bool) {span : Span} (h : ok span) (no : Ty) :
    R (branches yesReturns yes noReturns span no) (branches yesReturns yes noReturns (place span) no) :=
  ite (hl.pure _) (ite (hl.pure _) (hl.bind (hl.reportIf _ _ h) fun _ => hl.pure _))

theorem functionBody (f : Header) {body : Block} (h : ok body.span) (t : Ty) :
    R (functionBody f body t)
      (functionBody (f.relabel (.moved place)) (body.relabel (.moved place)) t) := by
  unfold Check.functionBody
  rw [Block.relabel_endsInReturn, Block.relabel_span]
  exact hl.reportIf _ _ h

theorem forM {β γ : Type} {f : β → Checker Unit} {g : γ → Checker Unit} {move : β → γ} {xs : List β}
    (h : ∀ x ∈ xs, R (f x) (g (move x))) : R (xs.forM f) ((xs.map move).forM g) := by
  induction xs with
  | nil => exact hl.pure ()
  | cons x xs ih =>
    rw [List.forall_mem_cons] at h
    exact hl.bind h.1 fun _ => ih h.2

end Lockstep

/-! ## The walk -/

section

variable {e : Expr} {b : Block} {s : Stmt}

theorem expr_spots (h : ∀ n ∈ e.nodes, n.Spots ok) : (Node.expr e).Spots ok :=
  h _ (Node.expr e).self_mem_nodes

theorem block_spots (h : ∀ n ∈ b.nodes, n.Spots ok) : (Node.block b).Spots ok :=
  h _ (Node.block b).self_mem_nodes

theorem stmt_spots (h : ∀ n ∈ s.nodes, n.Spots ok) : (Node.stmt s).Spots ok :=
  h _ (Node.stmt s).self_mem_nodes

/-- The first condition of a chain, and the block behind it. -/
theorem cond_spots {c : Cond} (h : ∀ n ∈ c.nodes, n.Spots ok) : ok c.cond.span ∧ ok c.yes.span := by
  cases c <;> simp only [Cond.nodes, List.forall_mem_append] at h
  · exact ⟨(expr_spots h.1).span, (block_spots h.2).span⟩
  · exact ⟨(expr_spots h.1.1).span, (block_spots h.1.2).span⟩
  · exact ⟨(expr_spots h.1.1).span, (block_spots h.1.2).span⟩

theorem args_spots {es : List Expr} (h : ∀ n ∈ exprNodes es, n.Spots ok) : ∀ e ∈ es, ok e.span := by
  rw [exprNodes_eq] at h
  intro e he
  exact (expr_spots fun n hn => h n (List.mem_flatMap.mpr ⟨e, he, hn⟩)).span

theorem items_spots {is : List Item} (h : ∀ n ∈ itemNodes is, n.Spots ok) :
    ∀ f ∈ is.flatMap Item.headers, ok f.name.span := by
  rw [itemNodes_eq] at h
  intro f hf
  obtain ⟨i, hi, hf⟩ := List.mem_flatMap.mp hf
  have hspots := h (.item i) (List.mem_flatMap.mpr ⟨i, hi, (Node.item i).self_mem_nodes⟩)
  cases i with
  | function header body =>
    rw [List.mem_singleton.mp hf]
    exact hspots.names _ List.mem_cons_self
  | «foreign» span abi functions => exact hspots.declared f hf

end

namespace LockstepWalk

theorem recorded (hl : LockstepWalk ok place R) {id : NodeId} {p q : Checker Ty} (h : R p q) :
    R (recorded id p) (recorded id q) :=
  hl.bind h fun _ => hl.bind (hl.record id _) fun _ => hl.pure _

theorem bindName (hl : LockstepWalk ok place R) {name : Ident} (h : ok name.span) (t : Ty) (taken : Problem) :
    R (Check.bind name t taken) (Check.bind (name.relabel (.moved place)) t taken) :=
  hl.bind (hl.insertLocal name.text t) fun _ => hl.reportIf _ _ h

theorem declare (hl : LockstepWalk ok place R) {f : Header} (h : ok f.name.span) :
    R (declare f) (declare (f.relabel (.moved place))) :=
  hl.bind (hl.insertDecl ⟨f.id, f.name.text, f.signature⟩) fun _ => hl.reportIf _ _ h

theorem binding (hl : LockstepWalk ok place R) (id : NodeId) {name : Ident} {init : Expr}
    (hname : ok name.span) (hinit : ok init.span) (declared : Option Ty) (t : Ty) :
    R (binding id name declared init t)
      (binding id (name.relabel (.moved place)) declared (init.relabel (.moved place)) t) := by
  unfold Check.binding
  rw [Expr.relabel_span]
  cases declared with
  | none => exact hl.bind (hl.record _ _) fun _ => hl.bindName hname _ _
  | some expected =>
    exact hl.bind (hl.reportIf _ _ hinit) fun _ => hl.bind (hl.record _ _) fun _ => hl.bindName hname _ _

theorem declareItems (hl : LockstepWalk ok place R) {is : List Item}
    (h : ∀ f ∈ is.flatMap Item.headers, ok f.name.span) :
    R (declareItems is) (declareItems (is.map (Item.relabel (.moved place)))) := by
  have hheaders : (is.map (Item.relabel (.moved place))).flatMap Item.headers =
      (is.flatMap Item.headers).map (Header.relabel (.moved place)) := by
    rw [List.flatMap_map, List.map_flatMap]
    simp only [Item.relabel_headers]
  unfold Check.declareItems
  rw [hheaders]
  exact hl.forM fun f hf => hl.declare (h f hf)

theorem bindParams (hl : LockstepWalk ok place R) {f : Header} (h : ∀ name ∈ f.params, ok name.span) :
    R (bindParams f) (bindParams (f.relabel (.moved place))) := by
  have hparams : (f.relabel (.moved place)).params.zip f.signature.params =
      (f.params.zip f.signature.params).map (Prod.map (Ident.relabel (.moved place)) id) := by
    rw [Header.relabel, List.zip_map_left]
  unfold Check.bindParams
  rw [show (f.relabel (.moved place)).signature = f.signature from rfl, hparams]
  exact hl.forM fun p hp => hl.bindName (h p.1 (List.of_mem_zip hp).1) p.2 _

mutual
theorem expr (hl : LockstepWalk ok place R) (e : Expr) (h : ∀ n ∈ e.nodes, n.Spots ok) :
    R (Check.expr e) (Check.expr (e.relabel (.moved place))) := by
  have hspots := expr_spots h
  cases e with
  | literal id span value => exact hl.recorded (hl.pure _)
  | path id span name => exact hl.recorded (hl.path (hspots.names name List.mem_cons_self))
  | grouped id span inner =>
    rw [Expr.nodes, List.forall_mem_cons] at h
    exact hl.recorded (hl.expr inner h.2)
  | unary id span op operand =>
    rw [Expr.nodes, List.forall_mem_cons] at h
    exact hl.recorded (hl.bind (hl.expr operand h.2) fun _ => hl.unary _ hspots.span _)
  | binary id span op lhs rhs =>
    rw [Expr.nodes, List.forall_mem_cons, List.forall_mem_append] at h
    obtain ⟨-, hlhs, hrhs⟩ := h
    exact hl.recorded (hl.bind (hl.expr lhs hlhs) fun _ => hl.bind (hl.expr rhs hrhs) fun _ =>
      Lockstep.ite (hl.assignment (expr_spots hlhs).span (expr_spots hrhs).span _ _)
        (hl.binary _ hspots.span _ _))
  | call id span callee args =>
    rw [Expr.nodes, List.forall_mem_cons] at h
    rw [Expr.relabel, relabelExprs_eq]
    have hcallee := hspots.names callee List.mem_cons_self
    exact hl.recorded (hl.bind (hl.exprs args h.2) fun _ =>
      hl.call hcallee hspots.span (args_spots h.2) _)
  | ret id span value =>
    cases value with
    | none => exact hl.recorded (hl.returned hspots.span _)
    | some value =>
      rw [Expr.nodes, List.forall_mem_cons] at h
      rw [Expr.relabel, Check.expr, Check.expr, Expr.relabel_span]
      exact hl.recorded (hl.bind (hl.expr value h.2) fun _ => hl.returned (expr_spots h.2).span _)
  | block id span body =>
    rw [Expr.nodes, List.forall_mem_cons] at h
    exact hl.recorded (hl.block body h.2)
  | loop id span body =>
    rw [Expr.nodes, List.forall_mem_cons] at h
    exact hl.recorded (hl.bind (hl.block body h.2) fun _ => hl.pure _)
  | «while» id span cond body =>
    rw [Expr.nodes, List.forall_mem_cons, List.forall_mem_append] at h
    obtain ⟨-, hcond, hbody⟩ := h
    rw [Expr.relabel, Check.expr, Check.expr, Expr.relabel_span]
    exact hl.recorded (hl.bind (hl.expr cond hcond) fun _ =>
      hl.bind (hl.truth (expr_spots hcond).span _) fun _ => hl.bind (hl.block body hbody) fun _ =>
        hl.pure _)
  | cond id span links =>
    rw [Expr.nodes, List.forall_mem_cons] at h
    exact hl.recorded (hl.cond links h.2)

theorem exprs (hl : LockstepWalk ok place R) (es : List Expr)
    (h : ∀ n ∈ exprNodes es, n.Spots ok) : R (Check.exprs es)
      (Check.exprs (es.map (Expr.relabel (.moved place)))) := by
  cases es with
  | nil => exact hl.pure _
  | cons e es =>
    rw [exprNodes, List.forall_mem_append] at h
    exact hl.bind (hl.expr e h.1) fun _ => hl.bind (hl.exprs es h.2) fun _ => hl.pure _

theorem cond (hl : LockstepWalk ok place R) (c : Cond) (h : ∀ n ∈ c.nodes, n.Spots ok) :
    R (Check.cond c) (Check.cond (c.relabel (.moved place))) := by
  have hspots := cond_spots h
  cases c with
  | only c yes =>
    rw [Cond.nodes, List.forall_mem_append] at h
    rw [Cond.relabel, Check.cond, Check.cond, Expr.relabel_span]
    exact hl.bind (hl.expr c h.1) fun _ => hl.bind (hl.truth hspots.1 _) fun _ =>
      hl.bind (hl.block yes h.2) fun _ => hl.withoutElse hspots.2 _
  | orElse c yes no =>
    rw [Cond.nodes, List.forall_mem_append, List.forall_mem_append] at h
    obtain ⟨⟨hc, hyes⟩, hno⟩ := h
    rw [Cond.relabel, Check.cond, Check.cond, Expr.relabel_span, Block.relabel_endsInReturn,
      Block.relabel_endsInReturn, Block.relabel_span]
    exact hl.bind (hl.expr c hc) fun _ => hl.bind (hl.truth hspots.1 _) fun _ =>
      hl.bind (hl.block yes hyes) fun _ => hl.bind (hl.block no hno) fun _ =>
        hl.branches _ _ _ (block_spots hno).span _
  | orIf c yes no =>
    rw [Cond.nodes, List.forall_mem_append, List.forall_mem_append] at h
    obtain ⟨⟨hc, hyes⟩, hno⟩ := h
    have hspan : (no.relabel (.moved place)).cond.span.join (no.relabel (.moved place)).yes.span =
        place (no.cond.span.join no.yes.span) := by
      rw [Cond.relabel_cond, Cond.relabel_yes, Expr.relabel_span, Block.relabel_span]
      exact (hl.lawful.join _ _).symm
    have hjoin := hl.join _ _ (cond_spots hno).1 (cond_spots hno).2
    rw [Cond.relabel, Check.cond, Check.cond, Expr.relabel_span, Block.relabel_endsInReturn, hspan]
    exact hl.bind (hl.expr c hc) fun _ => hl.bind (hl.truth hspots.1 _) fun _ =>
      hl.bind (hl.block yes hyes) fun _ => hl.bind (hl.cond no hno) fun _ =>
        hl.branches _ _ _ hjoin _

theorem block (hl : LockstepWalk ok place R) (b : Block)
    (h : ∀ n ∈ b.nodes, n.Spots ok) :
    R (Check.block b) (Check.block (b.relabel (.moved place))) := by
  obtain ⟨id, span, is, ss, tail⟩ := b
  rw [Block.relabel_mk]
  cases tail with
  | none =>
    rw [Block.nodes, List.forall_mem_cons, List.forall_mem_append] at h
    obtain ⟨-, his, hss⟩ := h
    have hstmts := hl.stmts ss hss
    have hreturning := hl.returning (b := .mk id span is ss none) (by rwa [Block.relabel_mk])
    rw [Block.relabel_mk] at hreturning
    exact hl.recorded (hl.inScope (hl.bind (hl.declareItems (items_spots his)) fun _ =>
      hl.bind (hl.items is his) fun _ => hreturning))
  | some e =>
    rw [Block.nodes, List.forall_mem_cons, List.forall_mem_append, List.forall_mem_append] at h
    obtain ⟨-, ⟨his, hss⟩, he⟩ := h
    exact hl.recorded (hl.inScope (hl.bind (hl.declareItems (items_spots his)) fun _ =>
      hl.bind (hl.items is his) fun _ => hl.bind (hl.stmts ss hss) fun _ =>
        hl.bind (hl.expr e he) fun t => hl.pure t))

theorem stmts (hl : LockstepWalk ok place R) (ss : List Stmt)
    (h : ∀ n ∈ stmtNodes ss, n.Spots ok) : R (Check.stmts ss)
      (Check.stmts (ss.map (Stmt.relabel (.moved place)))) := by
  cases ss with
  | nil => exact hl.pure _
  | cons s ss =>
    rw [stmtNodes, List.forall_mem_append] at h
    exact hl.bind (hl.stmt s h.1) fun _ => hl.stmts ss h.2

theorem stmt (hl : LockstepWalk ok place R) (s : Stmt) (h : ∀ n ∈ s.nodes, n.Spots ok) :
    R (Check.stmt s) (Check.stmt (s.relabel (.moved place))) := by
  have hspots := stmt_spots h
  cases s with
  | bind id span name declared init =>
    rw [Stmt.nodes, List.forall_mem_cons] at h
    have hname := hspots.names name List.mem_cons_self
    exact hl.bind (hl.expr init h.2) fun _ => hl.binding _ hname (expr_spots h.2).span _ _
  | expr span value semi =>
    rw [Stmt.nodes, List.forall_mem_cons] at h
    exact hl.bind (hl.expr value h.2) fun _ => hl.pure _

theorem items (hl : LockstepWalk ok place R) (is : List Item) (h : ∀ n ∈ itemNodes is, n.Spots ok) :
    R (Check.items is) (Check.items (is.map (Item.relabel (.moved place)))) := by
  cases is with
  | nil => exact hl.pure _
  | cons i is =>
    rw [itemNodes, List.forall_mem_append] at h
    exact hl.bind (hl.item i h.1) fun _ => hl.items is h.2

theorem item (hl : LockstepWalk ok place R) (i : Item) (h : ∀ n ∈ i.nodes, n.Spots ok) :
    R (Check.item i) (Check.item (i.relabel (.moved place))) := by
  cases i with
  | function f body =>
    rw [Item.nodes, List.forall_mem_cons] at h
    have hparams : ∀ name ∈ f.params, ok name.span := fun name hname =>
      h.1.names name (List.mem_cons_of_mem _ hname)
    exact hl.within _ (hl.inFunctionScope (hl.bind (hl.bindParams hparams) fun _ =>
      hl.bind (hl.block body h.2) fun _ => hl.functionBody f (block_spots h.2).span _))
  | «foreign» span abi functions => exact hl.pure _
end

theorem program (hl : LockstepWalk ok place R) (p : Program) (h : ∀ n ∈ p.nodes, n.Spots ok) :
    R (Check.program p) (Check.program (p.relabel (.moved place))) :=
  hl.inScope (hl.bind (hl.declareItems (items_spots h)) fun _ => hl.items p.items h)

end LockstepWalk

end Check
end Ferrite
