import Ferrite.Proofs.Lower.Inversion
import Ferrite.Proofs.Lower.Module

/-!
Where the code of a node ends up: in the code of the function that the node is part of, between
other instructions or inside one of them.
-/

namespace Ferrite

/-- The sequences of instructions inside an instruction. -/
def Wasm.Instr.bodies : Wasm.Instr → List (List Wasm.Instr)
  | .block body | .loop body | .ifThen body => [body]
  | .ifElse _ yes no => [yes, no]
  | _ => []

namespace Lower
open Wasm (Instr)

/-- A sequence of instructions is part of another one. -/
inductive Within (is : List Instr) : List Instr → Prop
  | part {code : List Instr} (h : is <:+: code) : Within is code
  | inside {i : Instr} {body code : List Instr} (hi : i ∈ code) (hb : body ∈ i.bodies)
      (h : Within is body) : Within is code

namespace Within

variable {is js ks : List Instr}

theorem refl (is : List Instr) : Within is is := .part List.infix_rfl

theorem widen (h : Within is js) (hj : js <:+: ks) : Within is ks := by
  cases h with
  | part h => exact .part (h.trans hj)
  | inside hi hb h => exact .inside (hj.subset hi) hb h

theorem trans (h : Within is js) (hj : Within js ks) : Within is ks := by
  induction hj with
  | part hj => exact h.widen hj
  | inside hi hb _ ih => exact .inside hi hb ih

theorem left (is js : List Instr) : Within is (is ++ js) := .part (List.prefix_append _ _).isInfix

theorem right (is js : List Instr) : Within js (is ++ js) := .part (List.suffix_append _ _).isInfix

theorem middle (is js ks : List Instr) : Within js (is ++ js ++ ks) := .part (List.infix_append _ _ _)

/-- The only body of an instruction behind others. -/
theorem body {i : Instr} (hb : i.bodies = [js]) (is ks : List Instr) : Within js (is ++ i :: ks) :=
  .inside (List.mem_append_right _ List.mem_cons_self) (hb ▸ List.mem_cons_self) (refl js)

theorem yes (code : List Instr) (result : Option Wasm.ValType) (is js : List Instr) :
    Within is (code ++ [.ifElse result is js]) :=
  .inside (List.mem_append_right _ List.mem_cons_self) List.mem_cons_self (refl is)

theorem no (code : List Instr) (result : Option Wasm.ValType) (is js : List Instr) :
    Within js (code ++ [.ifElse result is js]) :=
  .inside (List.mem_append_right _ List.mem_cons_self)
    (List.mem_cons_of_mem _ List.mem_cons_self) (refl js)

theorem sealed (t : Ty) (is : List Instr) : Within is (sealed t is) := by
  unfold Lower.sealed
  split
  · exact left is _
  · exact refl is

end Within

/-- The code is part of other code, with locals that are the first ones there. -/
structure PartOf (c c' : Wasm.Code) : Prop where
  locals : c.locals <+: c'.locals
  body : Within c.body c'.body

theorem PartOf.refl (c : Wasm.Code) : PartOf c c := ⟨List.prefix_rfl, .refl _⟩

theorem PartOf.trans {c c' c'' : Wasm.Code} (h : PartOf c c') (h' : PartOf c' c'') : PartOf c c'' :=
  ⟨h.locals.trans h'.locals, h.body.trans h'.body⟩

/-- The code of a node, and the state behind it. -/
def Makes (env : Env) (s : State) : Node → List Instr → State → Prop
  | .expr e, is, s' => expr env e s = .ok is s'
  | .block b, is, s' => block env b s = .ok is s'
  | .stmt stmt, is, s' => Lower.stmt env stmt s = .ok is s'
  | .item (.function h body), is, s' => block env body (s.atFunction h) = .ok is s'
  | .item (.foreign ..), _, _ => False

/-- The function whose code holds that of a node. -/
def function? (v : JointVisit) : Option Header :=
  match v.node with
  | .item (.function h _) => some h
  | _ => v.owner

/-- The bodies that are done. -/
def Done (s : State) (f : Header) (c : Wasm.Code) : Prop := (f.id, c) ∈ s.bodies

/-- The bodies that are done, and the code of the function at hand. -/
def DoneOr (h : Header) (is : List Instr) (s : State) (f : Header) (c : Wasm.Code) : Prop :=
  f = h ∧ c = ⟨s.locals.types, is⟩ ∨ Done s f c

/-- The code of a node is part of that of its function, as `placed` gives it. That of the body of a
function is all of it, and done. -/
structure Emitted (env : Env) (s : State) (placed : Header → Wasm.Code → Prop) (v : JointVisit) :
    Prop where
  code : v.target = false → ∀ f, function? v = some f → ∃ is s', Makes env v.state.2 v.node is s' ∧
    ∃ c, placed f c ∧ PartOf ⟨s'.locals.types, is⟩ c
  body : ∀ f b, v.node = .item (.function f b) → v.target = false →
    v.state.2.replay.enter = .ok (entered v.state.2.replay) ∧
      ∃ is s', block env b (v.state.2.atFunction f) = .ok is s' ∧ Done s f ⟨s'.locals.types, is⟩

section

variable {env : Env} {h : Header} {s s' s'' : State} {is is' : List Instr} {v : JointVisit}
  {placed placed' : Header → Wasm.Code → Prop} {own : Bool} {defs : List NodeId}
  {passed : List Scope.Event}

theorem Done.mono {f : Header} {c : Wasm.Code} (hd : Done s f c) (hb : ∃ new, s'.bodies = new ++ s.bodies) :
    Done s' f c := by
  obtain ⟨new, hnew⟩ := hb
  rw [Done, hnew]
  exact List.mem_append_right _ hd

theorem Emitted.mono (hv : Emitted env s placed v) (hb : ∃ new, s'.bodies = new ++ s.bodies)
    (hp : ∀ f c, placed f c → ∃ c', placed' f c' ∧ PartOf c c') : Emitted env s' placed' v where
  code htarget f hf := by
    obtain ⟨is, s', hmakes, c, hc, hpart⟩ := hv.code htarget f hf
    obtain ⟨c', hc', hpart'⟩ := hp f c hc
    exact ⟨is, s', hmakes, c', hc', hpart.trans hpart'⟩
  body f b hn htarget := by
    obtain ⟨he, is, s', hbody, hdone⟩ := hv.body f b hn htarget
    exact ⟨he, is, s', hbody, hdone.mono hb⟩

/-- The code of a node stays part of the code around it. -/
theorem Emitted.around (hv : Emitted env s (DoneOr h is s) v) (hw : Within is is')
    (hl : s.locals.types <+: s'.locals.types) (hb : ∃ new, s'.bodies = new ++ s.bodies) :
    Emitted env s' (DoneOr h is' s') v := by
  refine hv.mono hb ?_
  rintro f c (⟨rfl, rfl⟩ | hd)
  · exact ⟨_, .inl ⟨rfl, rfl⟩, hl, hw⟩
  · exact ⟨c, .inr (hd.mono hb), .refl c⟩

/-- The same, behind a step. -/
theorem Emitted.past (hv : Emitted env s (DoneOr h is s) v) (hw : Within is is')
    (hg : Grows own defs passed s s') : Emitted env s' (DoneOr h is' s') v :=
  hv.around hw hg.types (hg.bodies.imp fun _ hn => hn.1)

/-- The same, with no other state. -/
theorem Emitted.within (hv : Emitted env s (DoneOr h is s) v) (hw : Within is is') :
    Emitted env s (DoneOr h is' s) v :=
  hv.around hw List.prefix_rfl ⟨[], rfl⟩

theorem Emitted.done (hv : Emitted env s (Done s) v) (hb : ∃ new, s'.bodies = new ++ s.bodies) :
    Emitted env s' (Done s') v :=
  hv.mono hb fun _ c hd => ⟨c, hd.mono hb, .refl c⟩

theorem Emitted.inFunction (hv : Emitted env s (Done s) v) (hb : ∃ new, s'.bodies = new ++ s.bodies) :
    Emitted env s' (DoneOr h is s') v :=
  hv.mono hb fun _ c hd => ⟨c, .inr (hd.mono hb), .refl c⟩

/-- A node is emitted with its parts. -/
theorem emitted_root {n : Node} {visits : List JointVisit} {c : Check.State} (hn : n.item? = none)
    (hm : Makes env s n is s') (hrest : ∀ v ∈ visits, Emitted env s' (DoneOr h is s') v) :
    ∀ v ∈ (⟨n, some h, false, (c, s)⟩ : JointVisit) :: visits, Emitted env s' (DoneOr h is s') v := by
  refine List.forall_mem_cons.mpr ⟨⟨?_, ?_⟩, hrest⟩
  · intro _ f hf
    refine ⟨is, s', hm, ⟨s'.locals.types, is⟩, .inl ⟨?_, rfl⟩, .refl _⟩
    unfold function? at hf
    cases n with
    | item i => cases hn
    | _ =>
      cases hf
      rfl
  · rintro f b rfl
    cases hn

/-- What is assigned to has no code. -/
theorem emitted_target {e : Expr} {name : Ident} {c : Check.State} (he : e.place? = some name) :
    ∀ v ∈ e.visits (joint env) h true (c, s), Emitted env s' placed v := by
  intro v hv
  obtain ⟨-, -, htrue, -⟩ := visits_place e he v hv
  constructor
  · intro htarget
    rw [htrue] at htarget
    cases htarget
  · intro _ _ _ htarget
    rw [htrue] at htarget
    cases htarget

end

variable {env : Env}

mutual
/-- The code of each part of an expression is part of its own, or of a function inside it. -/
theorem expr_emitted (h : Header) :
    ∀ (e : Expr) (c : Check.State) {s s' : State} {is : List Instr}, expr env e s = .ok is s' →
    ∀ v ∈ e.visits (joint env) h false (c, s), Emitted env s' (DoneOr h is s') v
  | .literal id span value, c, s, s', is, hrun => by
    rw [Expr.visits]
    exact emitted_root rfl hrun (List.forall_mem_nil _)
  | .path id span name, c, s, s', is, hrun => by
    rw [Expr.visits]
    exact emitted_root rfl hrun (List.forall_mem_nil _)
  | .grouped id span inner, c, s, s', is, hrun => by
    obtain ⟨t, code, -, hinner, rfl⟩ := expr_grouped_ok hrun
    rw [Expr.visits]
    refine emitted_root rfl hrun fun v hv => ?_
    exact (expr_emitted h inner c hinner v hv).within (.sealed t code)
  | .unary id span op operand, c, s, s', is, hrun => by
    obtain ⟨t, u, code, -, -, hoperand, hcode⟩ := expr_unary_ok hrun
    rw [Expr.visits]
    refine emitted_root rfl hrun fun v hv => ?_
    refine (expr_emitted h operand c hoperand v hv).within ?_
    rcases hcode with ⟨-, rfl⟩ | ⟨-, before, behind, -, rfl⟩
    · exact .sealed t code
    · rw [List.append_assoc (before ++ code)]
      exact (Within.middle before code (behind ++ normalize t)).trans (.sealed t _)
  | .binary id span op lhs rhs, c, s, s', is, hrun => by
    rw [Expr.visits]
    refine emitted_root rfl hrun ?_
    by_cases ho : op = .assign
    · subst ho
      obtain ⟨t, name, value, slot, -, hname, hvalue, -, rfl⟩ := expr_assign_ok hrun
      refine List.forall_mem_append.mpr ⟨emitted_target hname, fun v hv => ?_⟩
      exact (expr_emitted h rhs _ hvalue v hv).within ((Within.left value _).trans (.sealed t _))
    · obtain ⟨t, l, s₁, r, s₂, code, -, hl, hr, hop, rfl⟩ := expr_binary_ok ho hrun
      have htarget : (false || decide (op = .assign)) = false := by simp [ho]
      rw [htarget, joint_left ho, after_ok hl]
      have hgrows : Grows false [] [] s₂ s' := (Lowers.binary op lhs rhs s₂).ok hop
      refine List.forall_mem_append.mpr ⟨fun v hv => ?_, fun v hv => ?_⟩
      · have hlhs := (expr_emitted h lhs c hl v hv).past (Within.left l r) ((expr_lowers env rhs s₁).ok hr)
        exact hlhs.past ((Within.left (l ++ r) code).trans (.sealed t _)) hgrows
      · exact (expr_emitted h rhs _ hr v hv).past ((Within.middle l r code).trans (.sealed t _)) hgrows
  | .call id span callee args, c, s, s', is, hrun => by
    obtain ⟨t, values, d, index, -, hvalues, -, -, rfl⟩ := expr_call_ok hrun
    rw [Expr.visits]
    refine emitted_root rfl hrun fun v hv => ?_
    exact (exprs_emitted h args c hvalues v hv).within ((Within.left values _).trans (.sealed t _))
  | .ret id span none, c, s, s', is, hrun => by
    rw [Expr.visits]
    exact emitted_root rfl hrun (List.forall_mem_nil _)
  | .ret id span (some value), c, s, s', is, hrun => by
    obtain ⟨t, code, -, hvalue, rfl⟩ := expr_ret_some_ok hrun
    rw [Expr.visits]
    refine emitted_root rfl hrun fun v hv => ?_
    exact (expr_emitted h value c hvalue v hv).within ((Within.left code _).trans (.sealed t _))
  | .block id span body, c, s, s', is, hrun => by
    obtain ⟨t, code, -, hbody, rfl⟩ := expr_block_ok hrun
    rw [Expr.visits]
    refine emitted_root rfl hrun fun v hv => ?_
    exact (block_emitted h body c hbody v hv).within (.sealed t code)
  | .loop id span body, c, s, s', is, hrun => by
    obtain ⟨t, code, b, w, -, hbody, -, -, rfl⟩ := expr_loop_ok hrun
    rw [Expr.visits]
    refine emitted_root rfl hrun fun v hv => ?_
    refine (block_emitted h body c hbody v hv).within (.trans ?_ (.sealed t _))
    rw [List.append_assoc]
    exact (Within.left code _).trans (.body rfl [] _)
  | .while id span test body, c, s, s', is, hrun => by
    obtain ⟨t, code, s₁, code', b, w, -, htest, hbody, -, -, rfl⟩ := expr_while_ok hrun
    rw [Expr.visits, joint_test htest]
    have hloop : ∀ inner : List Instr, Within inner (sealed t [.block [.loop inner]]) := fun inner =>
      ((Within.body rfl [] []).trans (.body rfl [] [])).trans (.sealed t _)
    refine emitted_root rfl hrun (List.forall_mem_append.mpr ⟨fun v hv => ?_, fun v hv => ?_⟩)
    · refine (expr_emitted h test c htest v hv).past (.trans ?_ (hloop _))
        ((block_lowers env body s₁).ok hbody)
      simp only [List.append_assoc]
      exact .left code _
    · refine (block_emitted h body _ hbody v hv).within (.trans ?_ (hloop _))
      rw [List.append_assoc _ (dropCode w)]
      exact .middle _ code' _
  | .cond id span links, c, s, s', is, hrun => by
    obtain ⟨t, code, -, hlinks, rfl⟩ := expr_cond_ok hrun
    rw [Expr.visits]
    refine emitted_root rfl hrun fun v hv => ?_
    exact (cond_emitted h links t c hlinks v hv).within (.sealed t code)

theorem exprs_emitted (h : Header) :
    ∀ (es : List Expr) (c : Check.State) {s s' : State} {is : List Instr}, exprs env es s = .ok is s' →
    ∀ v ∈ exprVisits (joint env) h false es (c, s), Emitted env s' (DoneOr h is s') v
  | [], c, s, s', is, hrun => List.forall_mem_nil _
  | e :: es, c, s, s', is, hrun => by
    obtain ⟨first, s₁, rest, hfirst, hrest, rfl⟩ := exprs_cons_ok hrun
    rw [exprVisits, joint_expr hfirst]
    refine List.forall_mem_append.mpr ⟨fun v hv => ?_, fun v hv => ?_⟩
    · exact (expr_emitted h e c hfirst v hv).past (.left first rest) ((exprs_lowers env es s₁).ok hrest)
    · exact (exprs_emitted h es _ hrest v hv).within (.right first rest)

theorem cond_emitted (h : Header) :
    ∀ (links : Cond) (t : Ty) (c : Check.State) {s s' : State} {is : List Instr},
    cond env links t s = .ok is s' →
    ∀ v ∈ links.visits (joint env) h false (c, s), Emitted env s' (DoneOr h is s') v
  | .only test yes, t, c, s, s', is, hrun => by
    obtain ⟨code, s₁, code', b, w, htest, hyes, -, -, rfl⟩ := cond_only_ok hrun
    rw [Cond.visits, joint_test htest]
    refine List.forall_mem_append.mpr ⟨fun v hv => ?_, fun v hv => ?_⟩
    · exact (expr_emitted h test c htest v hv).past (.left code _) ((block_lowers env yes s₁).ok hyes)
    · exact (block_emitted h yes _ hyes v hv).within ((Within.left code' _).trans (.body rfl code []))
  | .orElse test yes no, t, c, s, s', is, hrun => by
    obtain ⟨code, s₁, result, yesCode, s₂, noCode, htest, -, hyes, hno, rfl⟩ := cond_orElse_ok hrun
    have hgrows := (block_lowers env no s₂).ok hno
    rw [Cond.visits, joint_test htest, joint_block hyes]
    refine List.forall_mem_append.mpr ⟨List.forall_mem_append.mpr ⟨fun v hv => ?_, fun v hv => ?_⟩,
      fun v hv => ?_⟩
    · have hcond := (expr_emitted h test c htest v hv).past (.left code []) ((block_lowers env yes s₁).ok hyes)
      rw [List.append_nil] at hcond
      exact hcond.past (.left code _) hgrows
    · exact (block_emitted h yes _ hyes v hv).past (.yes _ _ _ _) hgrows
    · exact (block_emitted h no _ hno v hv).within (.no _ _ _ _)
  | .orIf test yes no, t, c, s, s', is, hrun => by
    obtain ⟨code, s₁, result, yesCode, s₂, noCode, htest, -, hyes, hno, rfl⟩ := cond_orIf_ok hrun
    have hgrows := (cond_lowers env no t s₂).ok hno
    rw [Cond.visits, joint_test htest, joint_block hyes]
    refine List.forall_mem_append.mpr ⟨List.forall_mem_append.mpr ⟨fun v hv => ?_, fun v hv => ?_⟩,
      fun v hv => ?_⟩
    · have hcond := (expr_emitted h test c htest v hv).past (.left code []) ((block_lowers env yes s₁).ok hyes)
      rw [List.append_nil] at hcond
      exact hcond.past (.left code _) hgrows
    · exact (block_emitted h yes _ hyes v hv).past (.yes _ _ _ _) hgrows
    · exact (cond_emitted h no t _ hno v hv).within (.no _ _ _ _)

theorem block_emitted (h : Header) :
    ∀ (b : Block) (c : Check.State) {s s' : State} {is : List Instr}, block env b s = .ok is s' →
    ∀ v ∈ b.visits (joint env) h false (c, s), Emitted env s' (DoneOr h is s') v
  | .mk id span items ss none, c, s, s', is, hrun => by
    obtain ⟨he, s₁, s₂, hitems, hstmts, hbodies, hlocals⟩ := block_none_ok hrun
    have hgrows := (stmts_lowers env ss s₁).ok hstmts
    have htypes : s'.locals.types = s₂.locals.types := by rw [hlocals]
    have hl : s₂.locals.types <+: s'.locals.types := htypes ▸ List.prefix_rfl
    have hb : ∃ new, s'.bodies = new ++ s₂.bodies := ⟨[], hbodies⟩
    rw [Block.visits, joint_atBlock he, joint_items hitems]
    refine emitted_root rfl hrun (List.forall_mem_append.mpr ⟨fun v hv => ?_, fun v hv => ?_⟩)
    · have hdone := (items_emitted items _ hitems v hv).done (hgrows.bodies.imp fun _ hn => hn.1)
      exact hdone.inFunction hb
    · exact (stmts_emitted h ss _ hstmts v hv).around (.refl is) hl hb
  | .mk id span items ss (some e), c, s, s', is, hrun => by
    obtain ⟨he, s₁, code, s₂, last, s₃, hitems, hstmts, hlast, rfl, hbodies, hlocals⟩ :=
      block_some_ok hrun
    have hgrows := (stmts_lowers env ss s₁).ok hstmts
    have hgrows' := (expr_lowers env e s₂).ok hlast
    have htypes : s'.locals.types = s₃.locals.types := by rw [hlocals]
    have hl : s₃.locals.types <+: s'.locals.types := htypes ▸ List.prefix_rfl
    have hb : ∃ new, s'.bodies = new ++ s₃.bodies := ⟨[], hbodies⟩
    rw [Block.visits, joint_atBlock he, joint_items hitems, joint_stmts hstmts]
    refine emitted_root rfl hrun (List.forall_mem_append.mpr ⟨List.forall_mem_append.mpr
      ⟨fun v hv => ?_, fun v hv => ?_⟩, fun v hv => ?_⟩)
    · have hdone := (items_emitted items _ hitems v hv).done (hgrows.bodies.imp fun _ hn => hn.1)
      exact (hdone.done (hgrows'.bodies.imp fun _ hn => hn.1)).inFunction hb
    · have hstmt := (stmts_emitted h ss _ hstmts v hv).past (.left code last) hgrows'
      exact hstmt.around (.refl _) hl hb
    · exact (expr_emitted h e _ hlast v hv).around (.right code last) hl hb

theorem stmts_emitted (h : Header) :
    ∀ (ss : List Stmt) (c : Check.State) {s s' : State} {is : List Instr}, stmts env ss s = .ok is s' →
    ∀ v ∈ stmtVisits (joint env) h false ss (c, s), Emitted env s' (DoneOr h is s') v
  | [], c, s, s', is, hrun => List.forall_mem_nil _
  | stmt :: ss, c, s, s', is, hrun => by
    obtain ⟨first, s₁, rest, hfirst, hrest, rfl⟩ := stmts_cons_ok hrun
    rw [stmtVisits, joint_stmt hfirst]
    refine List.forall_mem_append.mpr ⟨fun v hv => ?_, fun v hv => ?_⟩
    · exact (stmt_emitted h stmt c hfirst v hv).past (.left first rest) ((stmts_lowers env ss s₁).ok hrest)
    · exact (stmts_emitted h ss _ hrest v hv).within (.right first rest)

theorem stmt_emitted (h : Header) :
    ∀ (stmt : Stmt) (c : Check.State) {s s' : State} {is : List Instr},
    Lower.stmt env stmt s = .ok is s' →
    ∀ v ∈ stmt.visits (joint env) h false (c, s), Emitted env s' (DoneOr h is s') v
  | .bind id span name declared init, c, s, s', is, hrun => by
    obtain ⟨value, s₁, code, hvalue, hcode, rfl⟩ := stmt_bind_ok hrun
    rw [Stmt.visits]
    refine emitted_root rfl hrun fun v hv => ?_
    exact (expr_emitted h init c hvalue v hv).past (.left value code)
      ((Lowers.binding id name s₁).ok hcode)
  | .expr span e semi, c, s, s', is, hrun => by
    obtain ⟨code, t, w, hcode, -, -, rfl⟩ := stmt_expr_ok hrun
    rw [Stmt.visits]
    refine emitted_root rfl hrun fun v hv => ?_
    exact (expr_emitted h e c hcode v hv).within (.left code _)

theorem items_emitted :
    ∀ (items : List Item) (c : Check.State) {s s' : State}, Lower.items env items s = .ok () s' →
    ∀ v ∈ itemVisits (joint env) false items (c, s), Emitted env s' (Done s') v
  | [], c, s, s', hrun => List.forall_mem_nil _
  | i :: items, c, s, s', hrun => by
    obtain ⟨s₁, hfirst, hrest⟩ := items_cons_ok hrun
    rw [itemVisits, joint_item hfirst]
    refine List.forall_mem_append.mpr ⟨fun v hv => ?_, fun v hv => ?_⟩
    · exact (item_emitted i c hfirst v hv).done
        (((items_lowers env items s₁).ok hrest).bodies.imp fun _ hn => hn.1)
    · exact items_emitted items _ hrest v hv

theorem item_emitted :
    ∀ (i : Item) (c : Check.State) {s s' : State}, item env i s = .ok () s' →
    ∀ v ∈ i.visits (joint env) false (c, s), Emitted env s' (Done s') v
  | .function h body, c, s, s', hrun => by
    obtain ⟨he, code, s₁, hbody, hbodies, -⟩ := function_ok hrun
    have hself : (h.id, ⟨s₁.locals.types, code⟩) ∈ s'.bodies := by
      rw [hbodies]
      exact List.mem_cons_self
    rw [Item.visits, joint_atFunction he]
    refine List.forall_mem_cons.mpr ⟨⟨?_, ?_⟩, fun v hv => ?_⟩
    · rintro - f ⟨⟩
      exact ⟨code, s₁, hbody, _, hself, .refl _⟩
    · rintro f b ⟨⟩ -
      exact ⟨he, code, s₁, hbody, hself⟩
    · refine (block_emitted h body _ hbody v hv).mono ⟨[_], hbodies⟩ ?_
      rintro f c (⟨rfl, rfl⟩ | hd)
      · exact ⟨_, hself, .refl _⟩
      · exact ⟨c, hd.mono ⟨[_], hbodies⟩, .refl c⟩
  | .foreign span abi functions, c, s, s', hrun => by
    rw [Item.visits]
    refine List.forall_mem_singleton.mpr ⟨?_, ?_⟩
    · rintro - f ⟨⟩
    · rintro f b ⟨⟩
end

end Lower
end Ferrite
