import Ferrite.Proofs.Check.Lockstep
import Ferrite.Proofs.Scope.Growth
import Ferrite.Proofs.Tree.Scopes

/-!
What checking a part of a program adds to the state: one type for each numbered node, the scopes
of the part in their order, and problems. What was there before stays.
-/

namespace Ferrite.Check
open Scope (Event)

variable {α β : Type}

/-- The state behind a step. -/
def after (act : Checker α) (s : State) : State := (act.run s).2

/-- What a step gives. -/
def value (act : Checker α) (s : State) : α := (act.run s).1

@[simp] theorem after_pure (a : α) (s : State) : after (pure a) s = s := rfl

@[simp] theorem value_pure (a : α) (s : State) : value (pure a) s = a := rfl

@[simp] theorem after_bind (m : Checker α) (f : α → Checker β) (s : State) :
    after (m >>= f) s = after (f (value m s)) (after m s) := rfl

@[simp] theorem value_bind (m : Checker α) (f : α → Checker β) (s : State) :
    value (m >>= f) s = value (f (value m s)) (after m s) := rfl

@[simp] theorem after_map (f : α → β) (m : Checker α) (s : State) : after (f <$> m) s = after m s := rfl

@[simp] theorem value_map (f : α → β) (m : Checker α) (s : State) : value (f <$> m) s = f (value m s) := rfl

@[simp] theorem after_get (s : State) : after get s = s := rfl

@[simp] theorem value_get (s : State) : value get s = s := rfl

@[simp] theorem after_modify (f : State → State) (s : State) : after (modify f) s = f s := rfl

@[simp] theorem after_owner? (s : State) : after owner? s = s := rfl

@[simp] theorem value_owner? (s : State) : value owner? s = s.owners.head? := rfl

@[simp] theorem after_local? (name : String) (s : State) : after (local? name) s = s := rfl

@[simp] theorem value_local? (name : String) (s : State) :
    value (local? name) s = s.scopes.local? name := rfl

@[simp] theorem after_decl? (name : String) (s : State) : after (decl? name) s = s := rfl

@[simp] theorem value_decl? (name : String) (s : State) :
    value (decl? name) s = s.scopes.decl? name := rfl

/-- From one state to a later one: types for the nodes and the events of the scopes between, in the same
functions. -/
structure Grows (own : Bool) (nodes : List NodeId) (passed : List Event) (s s' : State) : Prop where
  scopes : s.scopes.Grows own passed s'.scopes
  owners : s'.owners = s.owners
  types : ∃ new, s'.types.entries = new ++ s.types.entries ∧ (new.map Prod.fst).Perm nodes
  problems : s.problems <:+ s'.problems

/-- A scope was just opened, and nothing else was done but declaring names in it. -/
structure Opens (s s' : State) : Prop where
  scopes : s.scopes.Opens s'.scopes
  owners : s'.owners = s.owners
  types : s'.types = s.types
  problems : s.problems <:+ s'.problems

section

variable {s s' s'' : State} {own : Bool} {nodes more : List NodeId} {passed next : List Event}

namespace Grows

theorem refl (own : Bool) (s : State) : Grows own [] [] s s where
  scopes := .refl own s.scopes
  owners := rfl
  types := ⟨[], rfl, .refl _⟩
  problems := List.suffix_refl _

theorem trans (h : Grows own nodes passed s s') (h' : Grows own more next s' s'') :
    Grows own (nodes ++ more) (passed ++ next) s s'' where
  scopes := h.scopes.trans h'.scopes
  owners := h'.owners.trans h.owners
  types := by
    obtain ⟨new, hnew, hp⟩ := h.types
    obtain ⟨new', hnew', hp'⟩ := h'.types
    refine ⟨new' ++ new, by rw [hnew', hnew, List.append_assoc], ?_⟩
    rw [List.map_append]
    exact (hp'.append hp).trans List.perm_append_comm
  problems := h.problems.trans h'.problems

theorem weaken (h : Grows false nodes passed s s') : Grows own nodes passed s s' :=
  ⟨h.scopes.weaken, h.owners, h.types, h.problems⟩

theorem bind {m : Checker α} {f : α → Checker β} (h : Grows own nodes passed s (after m s))
    (h' : ∀ a, Grows own more next (after m s) (after (f a) (after m s))) :
    Grows own (nodes ++ more) (passed ++ next) s (after (m >>= f) s) :=
  h.trans (h' _)

end Grows

/-- A step that does nothing but report problems. -/
def Reports (act : Checker α) : Prop :=
  ∀ s, ∃ new, after act s = { s with problems := new ++ s.problems }

namespace Reports

theorem grows {act : Checker α} (h : Reports act) (own : Bool) (s : State) :
    Grows own [] [] s (after act s) := by
  obtain ⟨new, hs⟩ := h s
  rw [hs]
  exact ⟨.refl own s.scopes, rfl, ⟨[], rfl, .refl _⟩, List.suffix_append _ _⟩

theorem pure (a : α) : Reports (Pure.pure a : Checker α) := fun _ => ⟨[], rfl⟩

theorem bind {m : Checker α} {f : α → Checker β} (hm : Reports m) (hf : ∀ a, Reports (f a)) :
    Reports (m >>= f) := by
  intro s
  obtain ⟨new, hs⟩ := hm s
  obtain ⟨new', hs'⟩ := hf (value m s) (after m s)
  refine ⟨new' ++ new, ?_⟩
  rw [after_bind, hs', hs, List.append_assoc]

theorem get : Reports (get : Checker State) := fun _ => ⟨[], rfl⟩

theorem owner? : Reports Check.owner? := fun _ => ⟨[], rfl⟩

theorem local? (name : String) : Reports (Check.local? name) := fun _ => ⟨[], rfl⟩

theorem decl? (name : String) : Reports (Check.decl? name) := fun _ => ⟨[], rfl⟩

theorem report (problem : Problem) (span : Span) : Reports (Check.report problem span) :=
  fun _ => ⟨[⟨problem, span⟩], rfl⟩

theorem reportIf (condition : Bool) (problem : Problem) (span : Span) :
    Reports (Check.reportIf condition problem span) := by
  unfold Check.reportIf
  split
  · exact report problem span
  · exact pure ()

end Reports

theorem reports_lockstep : Lockstep (fun _ => True) id fun p _ => Reports p where
  pure := .pure
  bind := .bind
  report problem span _ := .report problem span
  owner? := .owner?
  local? := .local?
  decl? := .decl?

theorem reports_path (name : Ident) : Reports (path name) := reports_lockstep.path trivial

theorem reports_unary (op : UnaryOp) (span : Span) (t : Ty) : Reports (unary op span t) :=
  reports_lockstep.unary op trivial t

theorem reports_assignment (target value : Expr) (lhs rhs : Ty) :
    Reports (assignment target value lhs rhs) :=
  reports_lockstep.assignment trivial trivial lhs rhs

theorem reports_binary (op : BinaryOp) (span : Span) (lhs rhs : Ty) :
    Reports (binary op span lhs rhs) :=
  reports_lockstep.binary op trivial lhs rhs

theorem reports_operation (op : BinaryOp) (span : Span) (lhs rhs : Expr) (l r : Ty) :
    Reports (if op = .assign then assignment lhs rhs l r else binary op span l r) := by
  split
  · exact reports_assignment lhs rhs l r
  · exact reports_binary op span l r

theorem reports_arguments (callee : String) (number : Nat) (args : List Expr) (types params : List Ty) :
    Reports (arguments callee number args types params) :=
  reports_lockstep.arguments callee number (fun _ _ => trivial) types params

theorem reports_call (callee : Ident) (span : Span) (args : List Expr) (types : List Ty) :
    Reports (call callee span args types) :=
  reports_lockstep.call trivial trivial (fun _ _ => trivial) types

theorem reports_returned (span : Span) (t : Ty) : Reports (returned span t) :=
  reports_lockstep.returned trivial t

theorem reports_withoutElse (yes : Block) (t : Ty) : Reports (withoutElse yes t) :=
  reports_lockstep.withoutElse trivial t

theorem reports_branches (yesReturns : Bool) (yes : Ty) (noReturns : Bool) (span : Span) (no : Ty) :
    Reports (branches yesReturns yes noReturns span no) :=
  reports_lockstep.branches yesReturns yes noReturns trivial no

theorem reports_blockType (b : Block) (tail : Option Ty) : Reports (blockType b tail) := by
  unfold blockType
  split
  · exact .bind .get fun _ => .pure _
  · exact .pure _
  · exact .pure _

theorem reports_functionBody (h : Header) (body : Block) (t : Ty) : Reports (functionBody h body t) :=
  .reportIf _ _ _

theorem grows_recorded {act : Checker Ty} (id : NodeId) (h : Grows own nodes passed s (after act s)) :
    Grows own (id :: nodes) passed s (after (recorded id act) s) where
  scopes := h.scopes
  owners := h.owners
  types := by
    obtain ⟨new, hnew, hp⟩ := h.types
    refine ⟨(id, value act s) :: new, ?_, hp.cons id⟩
    have hentries : (after (recorded id act) s).types.entries =
        (id, value act s) :: (after act s).types.entries := rfl
    rw [hentries, hnew, List.cons_append]
  problems := h.problems

theorem grows_bind (name : Ident) (t : Ty) (taken : Problem) (s : State) :
    Grows true [] [] s (after (bind name t taken) s) := by
  have hscopes : Grows true [] [] s
      { s with scopes := s.scopes.modifyTop (·.addLocal name.text t) } :=
    ⟨Scope.Stack.grows_addLocal _ _ _, rfl, ⟨[], rfl, .refl _⟩, List.suffix_refl _⟩
  exact hscopes.trans ((Reports.reportIf _ _ _).grows true _)

theorem grows_binding (id : NodeId) (name : Ident) (declared : Option Ty) (init : Expr) (t : Ty)
    (s : State) : Grows true [id] [] s (after (binding id name declared init t) s) := by
  have hrecord : ∀ (bound : Ty) (s : State), Grows true [id] [] s (after (record id bound) s) := by
    intro bound s
    exact ⟨.refl true _, rfl, ⟨[(id, bound)], rfl, .refl _⟩, List.suffix_refl _⟩
  have hrest : ∀ (bound : Ty) (s : State), Grows true [id] [] s
      (after (do record id bound; bind name bound (.repeatedLocal name.text)) s) := by
    intro bound s
    exact (hrecord bound s).trans (grows_bind name bound _ _)
  rcases declared with _ | expected
  · exact hrest t s
  · exact ((Reports.reportIf _ _ _).grows true s).trans (hrest expected _)

namespace Opens

theorem enter (s : State) : Opens s { s with scopes := s.scopes.enter } :=
  ⟨.push _ _, rfl, rfl, List.suffix_refl _⟩

theorem enterFunction (s : State) : Opens s { s with scopes := s.scopes.enterFunction } :=
  ⟨.push _ _, rfl, rfl, List.suffix_refl _⟩

theorem report {act : Checker α} (h : Opens s s') (hr : Reports act) : Opens s (after act s') := by
  obtain ⟨new, hs⟩ := hr s'
  rw [hs]
  exact ⟨h.scopes, h.owners, h.types, h.problems.trans (List.suffix_append _ _)⟩

theorem modifyTop (h : Opens s s') (f : Scope.Frame → Scope.Frame) :
    Opens s { s' with scopes := s'.scopes.modifyTop f } :=
  ⟨h.scopes.modifyTop f, h.owners, h.types, h.problems⟩

theorem forM {f : β → Checker Unit} (hf : ∀ b s', Opens s s' → Opens s (after (f b) s')) :
    ∀ (bs : List β) (s' : State), Opens s s' → Opens s (after (bs.forM f) s')
  | [], _, h => h
  | b :: bs, s', h => forM hf bs _ (hf b s' h)

theorem declareItems (h : Opens s s') (is : List Item) :
    Opens s (after (Check.declareItems is) s') := by
  refine forM ?_ _ s' h
  intro header s' h
  exact (h.modifyTop _).report (.reportIf _ _ _)

theorem bindParams (h : Opens s s') (header : Header) :
    Opens s (after (Check.bindParams header) s') := by
  refine forM ?_ _ s' h
  rintro ⟨name, t⟩ s' h
  exact (h.modifyTop _).report (.reportIf _ _ _)

/-- Leaving the scope again, behind what was done in it. -/
theorem leave (ho : Opens s s') (h : Grows own nodes passed s' s'') :
    Grows false nodes (enclosed passed) s { s'' with scopes := s''.scopes.leave } where
  scopes := ho.scopes.leave h.scopes
  owners := h.owners.trans ho.owners
  types := ho.types ▸ h.types
  problems := ho.problems.trans h.problems

end Opens

/-- A function is done with when its body is. -/
theorem grows_within {owner : Owner} {act : Checker α}
    (h : Grows own nodes passed (s.into owner) (after act (s.into owner))) :
    Grows own nodes passed s (after (within owner act) s) where
  scopes := h.scopes
  owners := congrArg List.tail h.owners
  types := h.types
  problems := h.problems

end

/-- The state at the start of a block with the given items. -/
def atBlock (is : List Item) (s : State) : State :=
  after (declareItems is) { s with scopes := s.scopes.enter }

/-- The state at the start of a function. -/
def atFunction (h : Header) (s : State) : State :=
  after (bindParams h) { s.into (.of h) with scopes := s.scopes.enterFunction }

theorem opens_atBlock (is : List Item) (s : State) : Opens s (atBlock is s) :=
  (Opens.enter s).declareItems is

theorem opens_atFunction (h : Header) (s : State) : Opens (s.into (.of h)) (atFunction h s) :=
  (Opens.enterFunction (s.into (.of h))).bindParams h

theorem grows_test (span : Span) (t : Ty) (own : Bool) (s : State) :
    Grows own [] [] s (after (truth span t) s) :=
  (Reports.reportIf _ _ _).grows own s

mutual
theorem expr_grows : ∀ (e : Expr) (s : State),
    Grows false (ids e.nodes) e.scopes s (after (expr e) s)
  | .literal id _ value, s => by
    rw [Expr.nodes, ids_expr, Expr.scopes, expr]
    exact grows_recorded id ((Reports.pure _).grows false s)
  | .path id _ name, s => by
    rw [Expr.nodes, ids_expr, Expr.scopes, expr]
    exact grows_recorded id ((reports_path name).grows false s)
  | .grouped id _ inner, s => by
    rw [Expr.nodes, ids_expr, Expr.scopes, expr]
    exact grows_recorded id (expr_grows inner s)
  | .unary id span op operand, s => by
    rw [Expr.nodes, ids_expr, Expr.scopes, expr]
    have h := (expr_grows operand s).bind fun t => (reports_unary op span t).grows false _
    rw [List.append_nil, List.append_nil] at h
    exact grows_recorded id h
  | .binary id span op lhs rhs, s => by
    rw [Expr.nodes, ids_expr, ids_append, Expr.scopes, expr]
    have h := (expr_grows lhs s).bind fun l => (expr_grows rhs _).bind fun r =>
      (reports_operation op span lhs rhs l r).grows false _
    rw [List.append_nil, List.append_nil] at h
    exact grows_recorded id h
  | .call id span callee args, s => by
    rw [Expr.nodes, ids_expr, Expr.scopes, expr]
    have h := (exprs_grows args s).bind fun ts =>
      (reports_call callee span args ts).grows false _
    rw [List.append_nil, List.append_nil] at h
    exact grows_recorded id h
  | .ret id _ none, s => by
    rw [Expr.nodes, ids_expr, Expr.scopes, expr]
    exact grows_recorded id ((reports_returned _ _).grows false s)
  | .ret id _ (some value), s => by
    rw [Expr.nodes, ids_expr, Expr.scopes, expr]
    have h := (expr_grows value s).bind fun t =>
      (reports_returned value.span t).grows false _
    rw [List.append_nil, List.append_nil] at h
    exact grows_recorded id h
  | .block id _ body, s => by
    rw [Expr.nodes, ids_expr, Expr.scopes, expr]
    exact grows_recorded id (block_grows body s)
  | .loop id _ body, s => by
    rw [Expr.nodes, ids_expr, Expr.scopes, expr]
    exact grows_recorded id (block_grows body s)
  | .while id _ c body, s => by
    rw [Expr.nodes, ids_expr, ids_append, Expr.scopes, expr]
    have h := (expr_grows c s).bind fun t =>
      (grows_test c.span t false _).bind fun _ => block_grows body _
    exact grows_recorded id h
  | .cond id _ links, s => by
    rw [Expr.nodes, ids_expr, Expr.scopes, expr]
    exact grows_recorded id (cond_grows links s)

theorem exprs_grows : ∀ (es : List Expr) (s : State),
    Grows false (ids (exprNodes es)) (exprScopes es) s (after (exprs es) s)
  | [], s => by
    rw [exprs]
    exact .refl false s
  | e :: es, s => by
    rw [exprNodes, ids_append, exprScopes, exprs]
    exact (expr_grows e s).trans (exprs_grows es _)

theorem cond_grows : ∀ (c : Cond) (s : State),
    Grows false (ids c.nodes) c.scopes s (after (cond c) s)
  | .only c yes, s => by
    rw [Cond.nodes, ids_append, Cond.scopes, cond]
    have h := (expr_grows c s).bind fun t => (grows_test c.span t false _).bind fun _ =>
      (block_grows yes _).bind fun y => (reports_withoutElse yes y).grows false _
    rw [List.append_nil, List.append_nil] at h
    exact h
  | .orElse c yes no, s => by
    rw [Cond.nodes, ids_append, ids_append, Cond.scopes, cond, List.append_assoc, List.append_assoc]
    have h := (expr_grows c s).bind fun t => (grows_test c.span t false _).bind fun _ =>
      (block_grows yes _).bind fun y => (block_grows no _).bind fun n =>
      (reports_branches yes.endsInReturn y no.endsInReturn no.span n).grows false _
    rw [List.append_nil, List.append_nil] at h
    exact h
  | .orIf c yes no, s => by
    rw [Cond.nodes, ids_append, ids_append, Cond.scopes, cond, List.append_assoc, List.append_assoc]
    have h := (expr_grows c s).bind fun t => (grows_test c.span t false _).bind fun _ =>
      (block_grows yes _).bind fun y => (cond_grows no _).bind fun n =>
      (reports_branches yes.endsInReturn y false (no.cond.span.join no.yes.span) n).grows false _
    rw [List.append_nil, List.append_nil] at h
    exact h

theorem block_grows : ∀ (b : Block) (s : State),
    Grows false (ids b.nodes) b.scopes s (after (block b) s)
  | .mk id span is ss none, s => by
    rw [Block.nodes, ids_block, ids_append, Block.scopes, block]
    have h := (items_grows is (atBlock is s)).weaken.bind fun _ => (stmts_grows ss _).bind fun _ =>
      (reports_blockType (.mk id span is ss none) none).grows true _
    rw [List.append_nil, List.append_nil] at h
    exact grows_recorded id ((opens_atBlock is s).leave h)
  | .mk id span is ss (some e), s => by
    rw [Block.nodes, ids_block, ids_append, ids_append, Block.scopes, block, List.append_assoc,
      List.append_assoc]
    have h := (items_grows is (atBlock is s)).weaken.bind fun _ => (stmts_grows ss _).bind fun _ =>
      (expr_grows e _).weaken.bind fun t =>
      (reports_blockType (.mk id span is ss (some e)) (some t)).grows true _
    rw [List.append_nil, List.append_nil] at h
    exact grows_recorded id ((opens_atBlock is s).leave h)

theorem stmts_grows : ∀ (ss : List Stmt) (s : State),
    Grows true (ids (stmtNodes ss)) (stmtScopes ss) s (after (stmts ss) s)
  | [], s => by
    rw [stmts]
    exact .refl true s
  | stmt :: ss, s => by
    rw [stmtNodes, ids_append, stmtScopes, stmts]
    exact (stmt_grows stmt s).trans (stmts_grows ss _)

theorem stmt_grows : ∀ (stmt : Stmt) (s : State),
    Grows true (ids stmt.nodes) stmt.scopes s (after (Check.stmt stmt) s)
  | .bind id _ name declared init, s => by
    rw [Stmt.nodes, Stmt.scopes, Check.stmt]
    have h := (expr_grows init s).weaken.bind fun t => grows_binding id name declared init t _
    rw [List.append_nil] at h
    exact ⟨h.scopes, h.owners, h.types.imp fun _ hn => ⟨hn.1, hn.2.trans List.perm_append_comm⟩, h.problems⟩
  | .expr _ value _, s => by
    rw [Stmt.nodes, Stmt.scopes, Check.stmt]
    exact (expr_grows value s).weaken

theorem items_grows : ∀ (is : List Item) (s : State),
    Grows false (ids (itemNodes is)) (itemScopes is) s (after (items is) s)
  | [], s => by
    rw [items]
    exact .refl false s
  | i :: is, s => by
    rw [itemNodes, ids_append, itemScopes, items]
    exact (item_grows i s).trans (items_grows is _)

theorem item_grows : ∀ (i : Item) (s : State),
    Grows false (ids i.nodes) i.scopes s (after (item i) s)
  | .function h body, s => by
    rw [Item.nodes, ids_item, Item.scopes, item]
    have hb := (block_grows body (atFunction h s)).bind fun t =>
      (reports_functionBody h body t).grows false _
    rw [List.append_nil, List.append_nil] at hb
    exact grows_within ((opens_atFunction h s).leave hb)
  | .foreign .., s => by
    rw [item]
    exact .refl false s
end

/-- The state in which the items of a program are checked. -/
def start (p : Program) : State := atBlock p.items {}

theorem run_eq (p : Program) :
    run p = (⟨(after (items p.items) (start p)).types,
      (after (items p.items) (start p)).scopes.leave.finish⟩,
      (after (items p.items) (start p)).problems.reverse) := rfl

theorem program_grows (p : Program) :
    Grows false (ids p.nodes) p.scopes {} (after (program p) {}) :=
  (opens_atBlock p.items {}).leave (items_grows p.items (start p))

/-- Checking records the scopes of the program and nothing else. -/
theorem events_run (p : Program) : (run p).1.record.events.toList = p.scopes := by
  have h := (program_grows p).scopes
  have hopened : (after (program p) {}).scopes.opened = [] := h.opened
  have hevents : (after (program p) {}).scopes.record.events.toList = p.scopes := h.events
  have hrun : (run p).1.record.events = (after (program p) {}).scopes.record.events ++
      Array.replicate (after (program p) {}).scopes.opened.length .pop := rfl
  rw [hrun, hopened, List.length_nil, Array.replicate_zero, Array.append_empty, hevents]

theorem size_run (p : Program) : (run p).1.record.frames.size = p.scopes.count .push := by
  have h := (program_grows p).scopes.size
  rw [show ({} : State).scopes.record.frames.size = 0 from rfl, Nat.zero_add] at h
  exact h

/-- Checking notes one type for each node with a number. -/
theorem types_run (p : Program) : ((run p).1.types.entries.map Prod.fst).Perm (ids p.nodes) := by
  obtain ⟨new, hnew, hp⟩ := (program_grows p).types
  have hrun : (run p).1.types = (after (program p) {}).types := rfl
  rw [hrun, hnew, List.append_nil]
  exact hp

end Ferrite.Check
