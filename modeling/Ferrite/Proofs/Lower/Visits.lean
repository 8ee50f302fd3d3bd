import Ferrite.Proofs.Check.Visits
import Ferrite.Proofs.Lower.Growth

/-!
Lowering as a pass over a tree, side by side with checking, and the local that each name gets
where it is declared.
-/

namespace Ferrite.Lower
open Wasm (ValType)

/-- The state behind a step. -/
def after {α : Type} (m : Lowering α) (s : State) : State :=
  match m s with
  | .ok _ s' | .error _ s' => s'

theorem after_ok {α : Type} {m : Lowering α} {s s' : State} {a : α} (h : m s = .ok a s') :
    after m s = s' := by
  rw [after, h]

theorem typeOf_ok {env : Env} {id : NodeId} {s s' : State} {t : Ty}
    (h : env.typeOf id s = .ok t s') : env.types.get? id = some t ∧ s' = s := by
  unfold Env.typeOf at h
  cases hg : env.types.get? id with
  | some u =>
    rw [hg] at h
    cases h
    exact ⟨rfl, rfl⟩
  | none =>
    rw [hg] at h
    cases h

theorem orFail_ok {α : Type} {x : Except Fault α} {s s' : State} {a : α} (h : orFail x s = .ok a s') :
    x = .ok a ∧ s' = s := by
  cases x with
  | ok b =>
    cases h
    exact ⟨rfl, rfl⟩
  | error f => cases h

theorem valueOf_ok {env : Env} {id : NodeId} {s s' : State} {v : Option ValType}
    (h : env.valueOf id s = .ok v s') : ∃ t, env.types.get? id = some t ∧ valType t = .ok v ∧ s' = s := by
  obtain ⟨t, s₁, ht, hv⟩ := run_bind_ok h
  obtain ⟨htype, rfl⟩ := typeOf_ok ht
  obtain ⟨hvalue, rfl⟩ := orFail_ok hv
  exact ⟨t, htype, hvalue, rfl⟩

theorem run_replayed {step : Scope.Replay → Except Scope.Divergence Scope.Replay} {s : State}
    {r : Scope.Replay} (h : step s.replay = .ok r) : replayed step s = .ok () { s with replay := r } := by
  have hends : Ends (replayed step) s (fun _ s' => s' = { s with replay := r }) (fun _ _ => False) := by
    rw [replayed_iff, h]
  unfold Ends at hends
  split at hends
  · rename_i hrun
    rw [hrun, hends]
  · exact hends.elim

/-- At the start of a block. -/
def State.atBlock (s : State) : State :=
  { s with replay := entered s.replay, locals.frames := [] :: s.locals.frames }

/-- At the start of the body of a function. -/
def State.atFunction (h : Header) (s : State) : State :=
  { s with replay := entered s.replay, locals := parameters h }

/-- What is assigned to is not lowered. -/
def pass (env : Env) : Pass State where
  expr _ e := after (expr env e)
  target _ _ s := s
  test _ c := after (expr env c)
  block _ b := after (block env b)
  stmt _ s := after (stmt env s)
  item i := after (item env i)
  atBlock _ := after do
    replayed Scope.Replay.enter
    modifyLocals fun l => { l with frames := [] :: l.frames }
  atFunction h := after do
    modifyLocals fun _ => parameters h
    replayed Scope.Replay.enter

/-- Checking and lowering side by side. -/
def joint (env : Env) : Pass (Check.State × State) := Check.pass.prod (pass env)

abbrev JointVisit := Visit (Check.State × State)

/-- A name that a function declares in a frame, and the local that it gets. -/
structure Declaration where
  owner : NodeId
  frame : Nat
  name : String
  slot : Option Nat
  deriving DecidableEq, Repr

/-- The frame and the name; what a name stands for is known by them. -/
def Declaration.key (d : Declaration) : Nat × String := (d.frame, d.name)

/-- The parameters of a function, in the frame of the given number. -/
def paramDeclarations (h : Header) (frame : Nat) : List Declaration :=
  h.params.zipIdx.map fun (p, i) => ⟨h.id, frame, p.text, some i⟩

/-- What is declared where a node is visited: the name of a `let` statement gets the local that it
has behind the statement, and each parameter the one of its place. -/
def declarations (env : Env) (v : JointVisit) : List Declaration :=
  match v.node, v.owner with
  | .stmt (.bind id span name declared init), some h =>
      [{ owner := h.id
         frame := v.state.1.scopes.opened.head?.getD 0
         name := name.text
         slot := ((after (stmt env (.bind id span name declared init)) v.state.2).locals.lookup
          name.text).join }]
  | .item (.function h _), _ => paramDeclarations h v.state.1.scopes.record.frames.size
  | _, _ => []

theorem joint_atBlock {s : State} (he : s.replay.enter = .ok (entered s.replay)) (env : Env)
    (is : List Item) (c : Check.State) :
    (joint env).atBlock is (c, s) = (Check.atBlock is c, s.atBlock) := by
  refine congrArg (Prod.mk _) (after_ok (a := ()) ?_)
  simp only [bind, EStateM.bind, run_replayed he]
  rfl

theorem joint_atFunction {s : State} (he : s.replay.enter = .ok (entered s.replay)) (env : Env)
    (h : Header) (c : Check.State) :
    (joint env).atFunction h (c, s) = (Check.atFunction h c, s.atFunction h) := by
  have hrun : replayed Scope.Replay.enter { s with locals := parameters h } = .ok () (s.atFunction h) :=
    run_replayed he
  exact congrArg (Prod.mk _) (after_ok (a := ()) hrun)

theorem joint_left {op : BinaryOp} (ho : op ≠ .assign) (env : Env) (h : Header) (e : Expr)
    (s : Check.State × State) :
    (joint env).left h op e s = (Check.after (Check.expr e) s.1, after (expr env e) s.2) := by
  unfold Pass.left
  rw [if_neg ho]
  rfl

theorem pass_stmts {env : Env} {h : Header} {ss : List Stmt} {s s' : State} {is : List Wasm.Instr}
    (hs : stmts env ss s = .ok is s') : (pass env).stmts h ss s = s' := by
  induction ss generalizing s is with
  | nil =>
    rw [stmts] at hs
    cases hs
    rfl
  | cons stmt ss ih =>
    rw [stmts] at hs
    obtain ⟨first, s₁, hfirst, hs⟩ := run_bind_ok hs
    obtain ⟨rest, s₂, hrest, hs⟩ := run_bind_ok hs
    cases hs
    rw [← ih hrest]
    exact congrArg ((pass env).stmts h ss) (after_ok hfirst)

theorem pass_items {env : Env} {is : List Item} {s s' : State} (hs : items env is s = .ok () s') :
    (pass env).items is s = s' := by
  induction is generalizing s with
  | nil =>
    rw [items] at hs
    cases hs
    rfl
  | cons i is ih =>
    rw [items] at hs
    obtain ⟨_, s₁, hfirst, hs⟩ := run_bind_ok hs
    rw [← ih hs]
    exact congrArg ((pass env).items is) (after_ok hfirst)

section

variable {env : Env} {h : Header} {c : Check.State} {s s' : State} {is : List Wasm.Instr}

/-- What is assigned to is visited in one state. -/
theorem visits_place {name : Ident} : ∀ (e : Expr), e.place? = some name →
    ∀ v ∈ e.visits (joint env) h true (c, s), v.state = (c, s) ∧ v.owner = some h ∧ v.target = true ∧
      ∃ e', v.node = .expr e' ∧ e'.place? = some name
  | .path .., hp, v, hv => by
    rw [Expr.visits, List.mem_singleton] at hv
    subst hv
    exact ⟨rfl, rfl, rfl, _, rfl, hp⟩
  | .grouped _ _ inner, hp, v, hv => by
    rw [Expr.visits, List.mem_cons] at hv
    rcases hv with rfl | hv
    · exact ⟨rfl, rfl, rfl, _, rfl, hp⟩
    · exact visits_place inner hp v hv

theorem joint_expr {e : Expr} (hrun : expr env e s = .ok is s') :
    (joint env).expr h e (c, s) = (Check.after (Check.expr e) c, s') :=
  congrArg (Prod.mk _) (after_ok hrun)

theorem joint_test {e : Expr} (hrun : expr env e s = .ok is s') :
    (joint env).test h e (c, s) = (Check.pass.test h e c, s') :=
  congrArg (Prod.mk _) (after_ok hrun)

theorem joint_block {b : Block} (hrun : block env b s = .ok is s') :
    (joint env).block h b (c, s) = (Check.after (Check.block b) c, s') :=
  congrArg (Prod.mk _) (after_ok hrun)

theorem joint_stmt {stmt : Stmt} (hrun : Lower.stmt env stmt s = .ok is s') :
    (joint env).stmt h stmt (c, s) = (Check.after (Check.stmt stmt) c, s') :=
  congrArg (Prod.mk _) (after_ok hrun)

theorem joint_item {i : Item} (hrun : item env i s = .ok () s') :
    (joint env).item i (c, s) = (Check.after (Check.item i) c, s') :=
  congrArg (Prod.mk _) (after_ok hrun)

theorem joint_items {items : List Item} (hrun : Lower.items env items s = .ok () s') :
    (joint env).items items (c, s) = (Check.after (Check.items items) c, s') := by
  rw [joint, Pass.prod_items, Check.pass_items, pass_items hrun]

theorem joint_stmts {ss : List Stmt} (hrun : stmts env ss s = .ok is s') :
    (joint env).stmts h ss (c, s) = (Check.after (Check.stmts ss) c, s') := by
  rw [joint, Pass.prod_stmts, Check.pass_stmts, pass_stmts hrun]

end

end Ferrite.Lower
