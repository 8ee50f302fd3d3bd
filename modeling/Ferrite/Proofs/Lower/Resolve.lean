import Ferrite.Proofs.Lower.Mirror

/-!
Lowering a clean program beside the state that checking it was in: the same names are in sight
wherever both come to a node. It gives up only on values that WebAssembly has no place for.
-/

namespace Ferrite.Lower
open Scope (Replay)
open Wasm (ValType Instr)

/-- Whether a fault is excused, in the bodies of a clean program: by a value without a place, or
else by the record or the types. -/
def Excused (given : Prop) : Fault → Prop
  | .value _ | .functionValue _ | .stringLiteral => ¬ given
  | .diverged _ | .untyped _ | .notCollected _ | .noBody _ => True
  | _ => False

/-- What is known of a node before it is lowered. -/
structure Prepared (S : Setting) (env : Env) (given : Prop) (headers : List Header) (v : JointVisit) :
    Prop where
  clean : Check.Clean env.types given headers v.fst
  declared : ∀ d ∈ declarations env v, d ∈ S.declared

/-- Whether there is code for a node. -/
def Runs (env : Env) (τ : State) : Node → Prop
  | .expr e => ∃ is τ', expr env e τ = .ok is τ'
  | .stmt s => ∃ is τ', stmt env s τ = .ok is τ'
  | _ => True

/-- What is known of a node when it is lowered: the same names are in sight as when it was checked.
What is assigned to is not lowered, and is a local. -/
structure Simulated (S : Setting) (env : Env) (v : JointVisit) : Prop where
  complete : Over S v.state.1
  beside : Beside S v.state.1 v.state.2
  sim : ∀ h, v.owner = some h → Sim S h v.state.1 v.state.2
  runs : v.target = false → Runs env v.state.2 v.node
  place : v.target = true → ∃ e name, v.node = .expr e ∧ e.place? = some name ∧
    (v.state.1.scopes.local? name.text).isSome

/-- The functions of a program: each has an index and, in a typed setting, typed parameters. -/
structure Indexed (S : Setting) (env : Env) (headers : List Header) : Prop where
  sound : ∀ h ∈ headers, h.Sound
  index : ∀ h ∈ headers, h.id ∈ env.functions
  params : S.typed → ∀ h ∈ headers, HasParams h

section

variable {S : Setting} {env : Env} {given : Prop} {headers : List Header} {h : Header}
  {σ : Check.State} {τ : State} {t : Ty} {good : Prop} {bad : Fault → Prop} {α : Type}

/-- A run that ends well with a fact, or gives up with a fault of a kind. -/
abbrev Gives (m : Lowering α) (τ : State) (good : Prop) (bad : Fault → Prop) : Prop :=
  Ends m τ (fun _ _ => good) (fun f _ => bad f)

theorem Gives.imp {good' : Prop} {m : Lowering α} (h : Gives m τ good bad) (hg : good → good') :
    Gives m τ good' bad :=
  h.mono (fun _ _ _ hgood => hg hgood) fun _ _ _ hb => hb

/-- A step that gives a fact, and what is made behind it. -/
theorem Gives.bind {β : Type} {m : Lowering α} {f : α → Lowering β} {first : Prop}
    (hm : Gives m τ first bad)
    (h : ∀ a τ', m τ = .ok a τ' → first → Gives (f a) τ' good bad) : Gives (m >>= f) τ good bad :=
  Ends.bind_iff.mpr (Ends.mono hm h fun _ _ _ hb => hb)

/-- A last step, whose code is put with that of the steps before. -/
theorem Gives.map {β : Type} {m : Lowering α} {f : α → β} {first : Prop} (hm : Gives m τ first bad)
    (h : first → good) : Gives (m >>= fun a => Pure.pure (f a)) τ good bad :=
  hm.bind fun _ _ _ hfirst => h hfirst

theorem gives_typeOf {id : NodeId} (ht : env.types.get? id = some t) {f : Ty → Lowering α}
    (h : Gives (f t) τ good bad) : Gives (env.typeOf id >>= f) τ good bad := by
  rw [Gives, Ends.bind_iff, Env.typeOf, ht]
  exact h

theorem gives_typed {id : NodeId} {code : Ty → Lowering (List Instr)} (ht : env.types.get? id = some t)
    (h : Gives (code t) τ good bad) : Gives (typed env id code) τ good bad := by
  refine gives_typeOf ht ?_
  rw [Gives, Ends.bind_iff]
  exact h

theorem valType_of_supported (hk : t.hasUnknown = false) (hs : t.isUnsupported = false) :
    ∃ v, valType t = .ok v := by
  unfold valType
  split
  · exact ⟨_, rfl⟩
  · exact ⟨_, rfl⟩
  · exact ⟨_, rfl⟩
  · exact ⟨_, rfl⟩
  · exact ⟨_, rfl⟩
  · rename_i h1 h2 h3 h4 h5
    cases t with
    | tuple parts => cases parts <;> simp_all [Ty.isUnsupported]
    | unknown => cases hk
    | _ => simp_all [Ty.isUnsupported]

theorem excused_valType (hf : Check.Fine given t) {f : Fault} (h : valType t = .error f) :
    Excused given f := by
  have hnot : ¬ given := by
    intro hg
    obtain ⟨v, hv⟩ := valType_of_supported hf.known (hf.supported hg)
    rw [hv] at h
    cases h
  unfold valType at h
  split at h <;> cases h
  exact hnot

theorem gives_orFail {x : Except Fault α} {β : Type} {f : α → Lowering β}
    (hx : ∀ e, x = .error e → bad e) (h : ∀ a, x = .ok a → Gives (f a) τ good bad) :
    Gives (orFail x >>= f) τ good bad := by
  rw [Gives, Ends.bind_iff]
  cases x with
  | ok a => exact h a rfl
  | error e => exact hx e rfl

theorem gives_valueOf {id : NodeId} {f : Option ValType → Lowering α} (ht : env.types.get? id = some t)
    (hf : Check.Fine given t) (h : ∀ v, Gives (f v) τ good (Excused given)) :
    Gives (env.valueOf id >>= f) τ good (Excused given) := by
  unfold Env.valueOf
  rw [bind_assoc]
  exact gives_typeOf ht (gives_orFail (fun e => excused_valType hf) fun v _ => h v)

theorem gives_dropValue {id : NodeId} (ht : env.types.get? id = some t) (hf : Check.Fine given t) :
    Gives (dropValue env id) τ True (Excused given) :=
  gives_valueOf ht hf fun _ => trivial

theorem gives_binding {id : NodeId} {name : Ident} (ht : env.types.get? id = some t)
    (hf : Check.Fine given t) : Gives (binding env id name) τ True (Excused given) := by
  refine gives_valueOf ht hf ?_
  rintro (_ | v)
  · trivial
  · trivial

/-- Every literal has code but a text, and texts have no place. -/
theorem gives_constant {l : Literal} (hf : Check.Fine given l.type) :
    Gives (orFail (constant l)) τ True (Excused given) := by
  cases l with
  | text text =>
    intro hg
    cases hf.supported hg
  | float t bits => cases t <;> trivial
  | _ => trivial

/-- A name has code if it stands for a local, and functions as values have no place. -/
theorem gives_path {name : Ident} (hs : Sim S h σ τ) (hf : Check.Fine given t)
    (hrule : σ.scopes.local? name.text = some t ∨
      σ.scopes.local? name.text = none ∧ ∃ d : Decl, t = d.signature.type) :
    Gives (path name) τ True (Excused given) := by
  unfold path
  rw [Gives, Ends.bind_iff, Ends.get_iff]
  rcases hrule with hl | ⟨hl, d, rfl⟩
  · obtain ⟨k, slot, -, hslot, -⟩ := hs.lookup_some hl
    rw [hslot]
    cases slot <;> trivial
  · rw [hs.lookup_none hl]
    intro hg
    cases hf.supported hg

theorem gives_assign {name : Ident} (hs : Sim S h σ τ) (hl : σ.scopes.local? name.text = some t) :
    Gives (assign name) τ True bad := by
  obtain ⟨k, slot, -, hslot, -⟩ := hs.lookup_some hl
  unfold assign
  rw [Gives, Ends.bind_iff, Ends.get_iff, hslot]
  cases slot <;> trivial

/-- A function that is in sight has an index. -/
theorem gives_call {callee : Ident} {d : Header} (hi : Indexed S env headers) (hd : d ∈ headers)
    (hb : Beside S σ τ) (ho : Over S σ) (hdecl : σ.scopes.decl? callee.text = some d.decl) :
    Gives (call env callee) τ True bad := by
  obtain ⟨index, hindex⟩ := Option.isSome_iff_exists.mp (List.isSome_idxOf?.mpr (hi.index d hd))
  unfold call
  rw [Gives, Ends.bind_iff, Ends.get_iff, hb.decl? ho, hdecl]
  dsimp only [Header.decl]
  rw [hindex]
  trivial

theorem unaryCode?_isSome {op : UnaryOp} (h : op.accepts t) : (unaryCode? op t).isSome := by
  unfold unaryCode?
  cases op <;> cases t <;> simp_all [UnaryOp.accepts, arithmetic?, Ty.isSigned, Ty.isFloat, Ty.isInteger]

theorem gives_unaryCode {op : UnaryOp} {f : List Instr × List Instr → Lowering α}
    (hop : op.accepts t) (h : ∀ code, Gives (f code) τ good bad) :
    Gives (unaryCode op t >>= f) τ good bad := by
  obtain ⟨code, hcode⟩ := Option.isSome_iff_exists.mp (unaryCode?_isSome hop)
  unfold unaryCode
  rw [hcode]
  exact h code

theorem binaryInstr?_isSome {op : BinaryOp} {a : Arithmetic} (ha : arithmetic? t = some a)
    (h : op.accepts t) (ho : op ≠ .assign) (hr : ∀ size, ¬ (op = .rem ∧ a = .float size)) :
    (binaryInstr? op a).isSome := by
  cases t with
  | bool => cases ha; cases op <;> first | rfl | exact absurd rfl ho
  | int t => cases ha; cases op <;> first | rfl | exact absurd rfl ho
  | float t =>
    cases ha
    cases op with
    | rem => exact absurd ⟨rfl, rfl⟩ (hr t.size)
    | _ => first | rfl | exact absurd rfl ho | cases h
  | _ => cases ha

theorem exists_arithmetic {op : BinaryOp} (h : op.accepts t) : ∃ a, arithmetic? t = some a := by
  cases t with
  | bool | int t | float t => exact ⟨_, rfl⟩
  | _ => cases op <;> cases h

/-- Every operator that checking accepts has code. -/
theorem gives_operator {op : BinaryOp} (h : op.accepts t) (ho : op ≠ .assign) :
    Gives (operator op t) τ True bad := by
  obtain ⟨a, ha⟩ := exists_arithmetic h
  by_cases hr : ∃ size, op = .rem ∧ a = .float size
  · obtain ⟨size, rfl, rfl⟩ := hr
    unfold operator
    rw [ha]
    trivial
  · obtain ⟨i, hi⟩ := Option.isSome_iff_exists.mp
      (binaryInstr?_isSome ha h ho fun size hsize => hr ⟨size, hsize⟩)
    unfold operator
    split
    · trivial
    · rw [ha, Option.bind_some, hi]
      trivial

theorem gives_binary {op : BinaryOp} {lhs rhs : Expr} {l r : Ty} (hop : Check.Operates op l r t)
    (ho : op ≠ .assign) (hl : env.types.get? lhs.id = some l) (hr : env.types.get? rhs.id = some r) :
    Gives (binary env op lhs rhs) τ True bad := by
  have hrest : ∀ u, Check.operandType l r = u →
      Gives (if u = .never then Pure.pure [] else operator op u) τ True bad := by
    intro u hu
    split
    · trivial
    · rename_i hn
      rcases hop.accepts with hnever | haccepts
      · exact absurd (hu ▸ hnever) hn
      · exact gives_operator (hu ▸ haccepts) ho
  unfold binary
  refine gives_typeOf hl ?_
  split
  · rename_i hn
    exact gives_typeOf hr (hrest r (by rw [Check.operandType, if_pos hn]))
  · rename_i hn
    exact hrest l (by rw [Check.operandType, if_neg hn])

/-- A block begins in the state in which its parts are visited. -/
theorem gives_inBlock (env : Env) {act : Lowering (List Instr)} (is : List Item)
    (hd : ∀ d, bad (.diverged d))
    (hact : (∀ σ, (joint env).atBlock is (σ, τ) = (Check.atBlock is σ, τ.atBlock)) →
      Gives act τ.atBlock good bad) :
    Gives (inScope (inFrame act)) τ good bad := by
  unfold inScope inFrame modifyLocals
  rw [Gives, Ends.bind_iff, replayed_iff]
  rcases enter_cases τ.replay with ⟨he, -⟩ | ⟨d, he, -⟩
  · rw [he]
    dsimp only
    rw [Ends.bind_iff, Ends.bind_iff, Ends.modify_iff, Ends.bind_iff]
    refine (hact (joint_atBlock he env is)).mono ?_ fun _ _ _ hb => hb
    intro a τ' _ hgood
    rw [Ends.bind_iff, Ends.modify_iff, Ends.pure_iff, Ends.bind_iff, replayed_iff]
    cases τ'.replay.leave with
    | ok r => exact hgood
    | error d => exact hd d
  · rw [he]
    exact hd d

/-- The body of a function begins in the state in which it is visited. -/
theorem gives_inFunction (env : Env) {act : Lowering (List Instr)} (hd : ∀ d, bad (.diverged d))
    (hact : (∀ σ, (joint env).atFunction h (σ, τ) = (Check.atFunction h σ, τ.atFunction h)) →
      Gives act (τ.atFunction h) good bad) :
    Gives (do
      let (code, locals) ← withLocals (parameters h) (inScope act)
      finishBody h.id ⟨locals.types, code⟩) τ good bad := by
  unfold withLocals modifyLocals finishBody inScope
  simp only [bind_assoc, pure_bind]
  rw [Gives, Ends.bind_iff, Ends.get_iff, Ends.bind_iff, Ends.modify_iff, Ends.bind_iff, replayed_iff]
  rcases enter_cases τ.replay with ⟨he, -⟩ | ⟨d, he, -⟩
  · rw [he]
    dsimp only
    rw [Ends.bind_iff]
    refine (hact (joint_atFunction he env h)).mono ?_ fun _ _ _ hb => hb
    intro code τ' _ hgood
    rw [Ends.bind_iff, replayed_iff]
    cases τ'.replay.leave with
    | ok r => exact hgood
    | error d => exact hd d
  · rw [he]
    exact hd d

/-- A node whose parts are simulated is simulated itself. -/
theorem simulated_root {n : Node} (hs : Sim S h σ τ) (ho : Over S σ) (hr : Runs env τ n) :
    Simulated S env (⟨n, some h, false, (σ, τ)⟩ : JointVisit) := by
  refine ⟨ho, hs.toBeside, ?_, fun _ => hr, fun ht => by cases ht⟩
  rintro _ ⟨⟩
  exact hs

/-- The parts of what is assigned to stand for a local where they are visited. -/
theorem simulated_place {lhs : Expr} {name : Ident} (hs : Sim S h σ τ) (ho : Over S σ)
    (hplace : lhs.place? = some name) (hl : σ.scopes.local? name.text = some t) :
    ∀ v ∈ lhs.visits (joint env) h true (σ, τ), Simulated S env v := by
  intro v hv
  obtain ⟨hstate, howner, htarget, e, he, hname⟩ := visits_place lhs hplace v hv
  refine ⟨hstate ▸ ho, hstate ▸ hs.toBeside, ?_, ?_, fun _ => ⟨e, name, he, hname, ?_⟩⟩
  · intro h' hh'
    rw [howner] at hh'
    cases hh'
    exact hstate ▸ hs
  · intro hfalse
    rw [htarget] at hfalse
    cases hfalse
  · rw [hstate]
    exact Option.isSome_iff_exists.mpr ⟨t, hl⟩

theorem gives_root {e : Expr} {visits : List JointVisit} (hs : Sim S h σ τ) (ho : Over S σ)
    (hrest : Gives (expr env e) τ (∀ v ∈ visits, Simulated S env v) bad) :
    Gives (expr env e) τ
      (∀ v ∈ (⟨.expr e, some h, false, (σ, τ)⟩ : JointVisit) :: visits, Simulated S env v) bad := by
  refine Ends.mono hrest ?_ fun _ _ _ hb => hb
  intro is τ' hrun hvisits
  exact List.forall_mem_cons.mpr ⟨simulated_root hs ho ⟨is, τ', hrun⟩, hvisits⟩

theorem gives_stmt {s : Stmt} {visits : List JointVisit} (hs : Sim S h σ τ) (ho : Over S σ)
    (hrest : Gives (stmt env s) τ (∀ v ∈ visits, Simulated S env v) bad) :
    Gives (stmt env s) τ
      (∀ v ∈ (⟨.stmt s, some h, false, (σ, τ)⟩ : JointVisit) :: visits, Simulated S env v) bad := by
  refine Ends.mono hrest ?_ fun _ _ _ hb => hb
  intro is τ' hrun hvisits
  exact List.forall_mem_cons.mpr ⟨simulated_root hs ho ⟨is, τ', hrun⟩, hvisits⟩

theorem over_test {c : Expr} (ho : Over S (Check.pass.test h c σ)) :
    Over S (Check.after (Check.expr c) σ) := by
  have htruth : Over S (Check.after (Check.truth c.span (Check.value (Check.expr c) σ))
    (Check.after (Check.expr c) σ)) := ho
  exact htruth.reports (Check.Reports.reportIf _ _ _)

/-- Behind a condition. -/
theorem Sim.test {c : Expr} {is : List Instr} {τ' : State} (hs : Sim S h σ τ)
    (hrun : expr env c τ = .ok is τ') : Sim S h (Check.pass.test h c σ) τ' :=
  (hs.past (Check.expr_grows c σ) ((expr_lowers env c τ).ok hrun)).report
    (Check.Reports.reportIf _ _ _)

theorem clean_block {b : Block}
    (hv : ∀ v ∈ b.visits (joint env) h false (σ, τ), Prepared S env given headers v) :
    ∃ t, env.types.get? b.id = some t ∧ Check.Fine given t ∧ Check.BlockRule env.types b t :=
  (hv _ (b.self_mem_visits (joint env) h false (σ, τ))).clean

theorem clean_expr {e : Expr}
    (hv : ∀ v ∈ e.visits (joint env) h false (σ, τ), Prepared S env given headers v) :
    ∃ t, env.types.get? e.id = some t ∧ Check.Fine given t ∧
      Check.ExprRule env.types headers h σ.scopes e t :=
  Check.Clean.expr (hv _ (e.self_mem_visits (joint env) h false (σ, τ))).clean

/-- Behind a statement. -/
theorem Sim.stmt (hi : Indexed S env headers) (hh : h ∈ headers) {stmt : Stmt} {is : List Instr}
    {τ' : State} (hs : Sim S h σ τ)
    (hv : ∀ v ∈ stmt.visits (joint env) h false (σ, τ), Prepared S env given headers v)
    (ho : Over S (Check.after (Check.stmt stmt) σ)) (hrun : Lower.stmt env stmt τ = .ok is τ') :
    Sim S h (Check.after (Check.stmt stmt) σ) τ' := by
  cases stmt with
  | bind id span name declared init =>
    rw [Stmt.visits, List.forall_mem_cons] at hv
    obtain ⟨t, ht, -, -, heq, -⟩ := Check.Clean.bind hv.1.clean
    have htype : t = declared.getD (Check.value (Check.expr init) σ) := heq
    have hd : (⟨h.id, σ.scopes.opened.head?.getD 0, name.text,
        ((after (Lower.stmt env (.bind id span name declared init)) τ).locals.lookup name.text).join⟩ :
        Declaration) ∈ S.declared := hv.1.declared _ (List.mem_singleton.mpr rfl)
    rw [after_ok hrun] at hd
    rw [Lower.stmt] at hrun
    obtain ⟨value, τ₁, hvalue, hrun⟩ := run_bind_ok hrun
    obtain ⟨code, τ₂, hcode, hrun⟩ := run_bind_ok hrun
    cases hrun
    rw [Check.stmt] at ho ⊢
    have hbind : Over S (Check.after (Check.binding id name declared init
      (Check.value (Check.expr init) σ)) (Check.after (Check.expr init) σ)) := ho
    have hgrows := Check.expr_grows init σ
    rw [← hgrows.scopes.opened] at hd
    have hs₁ := hs.past hgrows ((expr_lowers env init τ).ok hvalue)
    have hs₂ := hs₁.bind hbind hcode (htype ▸ ht) hd (hi.sound h hh) fun htyped => hi.params htyped h hh
    exact hs₂
  | expr span value semi =>
    rw [Lower.stmt] at hrun
    obtain ⟨code, τ₁, hcode, hrun⟩ := run_bind_ok hrun
    obtain ⟨drop, τ₂, hdrop, hrun⟩ := run_bind_ok hrun
    cases hrun
    rw [Check.stmt]
    have hpast := hs.past (Check.expr_grows value σ) ((expr_lowers env value τ).ok hcode)
    exact hpast.past (.refl false _) ((Lowers.dropValue value.id τ₁).ok hdrop)

end

variable {S : Setting} {env : Env} {given : Prop} {headers : List Header}

mutual
theorem expr_resolves (hi : Indexed S env headers) {h : Header} (hh : h ∈ headers) :
    ∀ (e : Expr) (σ : Check.State) (τ : State), Sim S h σ τ →
    (∀ v ∈ e.visits (joint env) h false (σ, τ), Prepared S env given headers v) →
    Over S (Check.after (Check.expr e) σ) →
    Gives (expr env e) τ (∀ v ∈ e.visits (joint env) h false (σ, τ), Simulated S env v) (Excused given)
  | .literal id span l, σ, τ, hs, hv, ho => by
    have hroot := ho.before (Check.expr_grows _ σ)
    rw [Expr.visits, List.forall_mem_singleton] at hv
    obtain ⟨t, ht, hf, hrule⟩ := Check.Clean.expr hv.clean
    rw [Expr.visits]
    refine gives_root hs hroot ?_
    rw [expr]
    have hliteral : t = l.type := hrule
    exact gives_typed ht ((gives_constant (hliteral ▸ hf)).map fun _ => List.forall_mem_nil _)
  | .path id span name, σ, τ, hs, hv, ho => by
    have hroot := ho.before (Check.expr_grows _ σ)
    rw [Expr.visits, List.forall_mem_singleton] at hv
    obtain ⟨t, ht, hf, hrule⟩ := Check.Clean.expr hv.clean
    rw [Expr.visits]
    refine gives_root hs hroot ?_
    rw [expr]
    refine gives_typed ht ((gives_path hs hf ?_).imp fun _ => List.forall_mem_nil _)
    exact hrule.imp_right fun ⟨hl, d, _, htype⟩ => ⟨hl, d, htype⟩
  | .grouped id span inner, σ, τ, hs, hv, ho => by
    have hroot := ho.before (Check.expr_grows _ σ)
    rw [Expr.visits, List.forall_mem_cons] at hv
    obtain ⟨t, ht, -⟩ := Check.Clean.expr hv.1.clean
    rw [Check.expr] at ho
    rw [Expr.visits]
    refine gives_root hs hroot ?_
    rw [expr]
    exact gives_typed ht (expr_resolves hi hh inner σ τ hs hv.2 ho.recorded)
  | .unary id span op operand, σ, τ, hs, hv, ho => by
    have hroot := ho.before (Check.expr_grows _ σ)
    rw [Expr.visits, List.forall_mem_cons] at hv
    obtain ⟨t, ht, -, hoperand, hop⟩ := Check.Clean.expr hv.1.clean
    rw [Check.expr] at ho
    have hact := ho.recorded
    have hrule : Over S (Check.after (Check.unary op span (Check.value (Check.expr operand) σ))
      (Check.after (Check.expr operand) σ)) := hact
    have hinner := expr_resolves hi hh operand σ τ hs hv.2 (hrule.reports (Check.reports_unary _ _ _))
    rw [Expr.visits]
    refine gives_root hs hroot ?_
    rw [expr]
    refine gives_typed ht (gives_typeOf hoperand ?_)
    split
    · exact hinner
    · rename_i hn
      rcases hop with hnever | haccepts
      · exact absurd hnever hn
      · exact gives_unaryCode haccepts fun code => hinner.map fun hvisits => hvisits
  | .binary id span op lhs rhs, σ, τ, hs, hv, ho => by
    have hroot := ho.before (Check.expr_grows _ σ)
    rw [Expr.visits, List.forall_mem_cons, List.forall_mem_append] at hv
    obtain ⟨t, ht, -, l, r, hl, hr, hrule⟩ := Check.Clean.expr hv.1.clean
    rw [Check.expr] at ho
    have hact := ho.recorded
    have hend : Over S (Check.after (if op = .assign then
        Check.assignment lhs rhs (Check.value (Check.expr lhs) σ)
          (Check.value (Check.expr rhs) (Check.after (Check.expr lhs) σ))
      else Check.binary op span (Check.value (Check.expr lhs) σ)
        (Check.value (Check.expr rhs) (Check.after (Check.expr lhs) σ)))
      (Check.after (Check.expr rhs) (Check.after (Check.expr lhs) σ))) := hact
    have hright : Over S (Check.after (Check.expr rhs) (Check.after (Check.expr lhs) σ)) := by
      split at hend
      · exact hend.reports (Check.reports_assignment _ _ _ _)
      · exact hend.reports (Check.reports_binary _ _ _ _)
    have hgl := Check.expr_grows lhs σ
    have hgr := Check.expr_grows rhs (Check.after (Check.expr lhs) σ)
    rw [Expr.visits]
    refine gives_root hs hroot ?_
    rw [expr]
    refine gives_typed ht ?_
    by_cases hop : op = .assign
    · subst hop
      rw [if_pos rfl] at hrule ⊢
      obtain ⟨⟨name, hplace, hlocal⟩, -, -⟩ := hrule
      have hplaces : ∀ v ∈ lhs.visits (joint env) h true (σ, τ), Simulated S env v :=
        simulated_place hs hroot hplace hlocal
      rw [lhs.scopes_of_place? name hplace] at hgl
      have hs₁ := hs.past hgl (.refl false τ)
      rw [hplace]
      refine (expr_resolves hi hh rhs _ τ hs₁ hv.2.2 hright).bind fun value τ' hrun hvisits => ?_
      have hs₂ := hs₁.past hgr ((expr_lowers env rhs τ).ok hrun)
      rw [← hgl.scopes.local? hs.valid, ← hgr.scopes.local? hs₁.valid] at hlocal
      exact (gives_assign hs₂ hlocal).map fun _ => List.forall_mem_append.mpr ⟨hplaces, hvisits⟩
    · have htarget : (false || decide (op = .assign)) = false := by simp [hop]
      rw [if_neg hop] at hrule ⊢
      rw [joint_left hop, htarget] at hv ⊢
      refine (expr_resolves hi hh lhs σ τ hs hv.2.1 (hright.before hgr)).bind fun left τ₁ hrun hleft => ?_
      rw [after_ok hrun] at hv ⊢
      have hs₁ := hs.past hgl ((expr_lowers env lhs τ).ok hrun)
      refine (expr_resolves hi hh rhs _ τ₁ hs₁ hv.2.2 hright).bind fun right τ₂ _ hvisits => ?_
      exact (gives_binary hrule hop hl hr).map fun _ => List.forall_mem_append.mpr ⟨hleft, hvisits⟩
  | .call id span callee args, σ, τ, hs, hv, ho => by
    have hroot := ho.before (Check.expr_grows _ σ)
    rw [Expr.visits, List.forall_mem_cons] at hv
    obtain ⟨t, ht, -, -, d, hd, hdecl, -⟩ := Check.Clean.expr hv.1.clean
    rw [Check.expr] at ho
    have hact := ho.recorded
    have hend : Over S (Check.after (Check.call callee span args (Check.value (Check.exprs args) σ))
      (Check.after (Check.exprs args) σ)) := hact
    have hargs := hend.reports (Check.reports_call _ _ _ _)
    have hga := Check.exprs_grows args σ
    rw [Expr.visits]
    refine gives_root hs hroot ?_
    rw [expr]
    refine gives_typed ht ?_
    refine (exprs_resolves hi hh args σ τ hs hv.2 hargs).bind fun values τ' hrun hvisits => ?_
    have hs' := hs.past hga ((exprs_lowers env args τ).ok hrun)
    rw [← hga.scopes.decl? hs.valid] at hdecl
    exact (gives_call hi hd hs'.toBeside hargs hdecl).map fun _ => hvisits
  | .ret id span none, σ, τ, hs, hv, ho => by
    have hroot := ho.before (Check.expr_grows _ σ)
    rw [Expr.visits, List.forall_mem_singleton] at hv
    obtain ⟨t, ht, -⟩ := Check.Clean.expr hv.clean
    rw [Expr.visits]
    refine gives_root hs hroot ?_
    rw [expr]
    exact gives_typed ht (List.forall_mem_nil _)
  | .ret id span (some e), σ, τ, hs, hv, ho => by
    have hroot := ho.before (Check.expr_grows _ σ)
    rw [Expr.visits, List.forall_mem_cons] at hv
    obtain ⟨t, ht, -⟩ := Check.Clean.expr hv.1.clean
    rw [Check.expr] at ho
    have hact := ho.recorded
    have hrule : Over S (Check.after (Check.returned e.span (Check.value (Check.expr e) σ))
      (Check.after (Check.expr e) σ)) := hact
    rw [Expr.visits]
    refine gives_root hs hroot ?_
    rw [expr]
    exact gives_typed ht ((expr_resolves hi hh e σ τ hs hv.2
      (hrule.reports (Check.reports_returned _ _))).map fun hvisits => hvisits)
  | .block id span body, σ, τ, hs, hv, ho => by
    have hroot := ho.before (Check.expr_grows _ σ)
    rw [Expr.visits, List.forall_mem_cons] at hv
    obtain ⟨t, ht, -⟩ := Check.Clean.expr hv.1.clean
    rw [Check.expr] at ho
    rw [Expr.visits]
    refine gives_root hs hroot ?_
    rw [expr]
    exact gives_typed ht (block_resolves hi hh body σ τ hs hv.2 ho.recorded)
  | .loop id span body, σ, τ, hs, hv, ho => by
    have hroot := ho.before (Check.expr_grows _ σ)
    rw [Expr.visits, List.forall_mem_cons] at hv
    obtain ⟨t, ht, -⟩ := Check.Clean.expr hv.1.clean
    obtain ⟨b, hb, hf, -⟩ := clean_block hv.2
    rw [Check.expr] at ho
    have hact := ho.recorded
    rw [Expr.visits]
    refine gives_root hs hroot ?_
    rw [expr]
    refine gives_typed ht ?_
    refine (block_resolves hi hh body σ τ hs hv.2 hact).bind fun code τ' _ hvisits => ?_
    exact (gives_dropValue hb hf).map fun _ => hvisits
  | .while id span c body, σ, τ, hs, hv, ho => by
    have hroot := ho.before (Check.expr_grows _ σ)
    rw [Expr.visits, List.forall_mem_cons, List.forall_mem_append] at hv
    obtain ⟨t, ht, -⟩ := Check.Clean.expr hv.1.clean
    obtain ⟨b, hb, hf, -⟩ := clean_block hv.2.2
    rw [Check.expr] at ho
    have hact := ho.recorded
    have hbody : Over S (Check.after (Check.block body) (Check.pass.test h c σ)) := hact
    have htest := hbody.before (Check.block_grows body _)
    rw [Expr.visits]
    refine gives_root hs hroot ?_
    rw [expr]
    refine gives_typed ht ?_
    refine (expr_resolves hi hh c σ τ hs hv.2.1 (over_test htest)).bind fun test τ₁ hrun hcond => ?_
    have hs₁ := hs.test hrun
    rw [joint_test hrun] at hv ⊢
    refine (block_resolves hi hh body _ τ₁ hs₁ hv.2.2 hbody).bind fun code τ₂ _ hvisits => ?_
    exact (gives_dropValue hb hf).map fun _ => List.forall_mem_append.mpr ⟨hcond, hvisits⟩
  | .cond id span links, σ, τ, hs, hv, ho => by
    have hroot := ho.before (Check.expr_grows _ σ)
    rw [Expr.visits, List.forall_mem_cons] at hv
    obtain ⟨t, ht, hf, -⟩ := Check.Clean.expr hv.1.clean
    rw [Check.expr] at ho
    rw [Expr.visits]
    refine gives_root hs hroot ?_
    rw [expr]
    exact gives_typed ht (cond_resolves hi hh links t σ τ hf hs hv.2 ho.recorded)

theorem exprs_resolves (hi : Indexed S env headers) {h : Header} (hh : h ∈ headers) :
    ∀ (es : List Expr) (σ : Check.State) (τ : State), Sim S h σ τ →
    (∀ v ∈ exprVisits (joint env) h false es (σ, τ), Prepared S env given headers v) →
    Over S (Check.after (Check.exprs es) σ) →
    Gives (exprs env es) τ (∀ v ∈ exprVisits (joint env) h false es (σ, τ), Simulated S env v)
      (Excused given)
  | [], σ, τ, hs, hv, ho => by
    rw [exprs]
    exact List.forall_mem_nil _
  | e :: es, σ, τ, hs, hv, ho => by
    rw [exprVisits, List.forall_mem_append] at hv
    rw [Check.exprs] at ho
    have hrest : Over S (Check.after (Check.exprs es) (Check.after (Check.expr e) σ)) := ho
    have hfirst := hrest.before (Check.exprs_grows es _)
    rw [exprs, exprVisits]
    refine (expr_resolves hi hh e σ τ hs hv.1 hfirst).bind fun first τ' hrun hvisits => ?_
    have hs' := hs.past (Check.expr_grows e σ) ((expr_lowers env e τ).ok hrun)
    rw [joint_expr hrun] at hv ⊢
    exact (exprs_resolves hi hh es _ τ' hs' hv.2 hrest).map fun hvisits' =>
      List.forall_mem_append.mpr ⟨hvisits, hvisits'⟩

theorem cond_resolves (hi : Indexed S env headers) {h : Header} (hh : h ∈ headers) :
    ∀ (c : Cond) (t : Ty) (σ : Check.State) (τ : State), Check.Fine given t → Sim S h σ τ →
    (∀ v ∈ c.visits (joint env) h false (σ, τ), Prepared S env given headers v) →
    Over S (Check.after (Check.cond c) σ) →
    Gives (cond env c t) τ (∀ v ∈ c.visits (joint env) h false (σ, τ), Simulated S env v) (Excused given)
  | .only c yes, t, σ, τ, hf, hs, hv, ho => by
    rw [Cond.visits, List.forall_mem_append] at hv
    rw [Check.cond] at ho
    have hend : Over S (Check.after (Check.withoutElse yes (Check.value (Check.block yes)
      (Check.pass.test h c σ))) (Check.after (Check.block yes) (Check.pass.test h c σ))) := ho
    have hyes := hend.reports (Check.reports_withoutElse _ _)
    obtain ⟨b, hb, hfb, -⟩ := clean_block hv.2
    have htest := over_test (hyes.before (Check.block_grows yes _))
    rw [cond, Cond.visits]
    refine (expr_resolves hi hh c σ τ hs hv.1 htest).bind fun test τ₁ hrun hcond => ?_
    rw [joint_test hrun] at hv ⊢
    refine gives_orFail (fun f => excused_valType hf) fun _ _ => ?_
    refine (block_resolves hi hh yes _ τ₁ (hs.test hrun) hv.2 hyes).bind fun code τ₂ _ hvisits => ?_
    exact (gives_dropValue hb hfb).map fun _ => List.forall_mem_append.mpr ⟨hcond, hvisits⟩
  | .orElse c yes no, t, σ, τ, hf, hs, hv, ho => by
    rw [Cond.visits, List.forall_mem_append, List.forall_mem_append] at hv
    rw [Check.cond] at ho
    have hend : Over S (Check.after (Check.branches yes.endsInReturn
        (Check.value (Check.block yes) (Check.pass.test h c σ)) no.endsInReturn no.span
        (Check.value (Check.block no) (Check.after (Check.block yes) (Check.pass.test h c σ))))
      (Check.after (Check.block no) (Check.after (Check.block yes) (Check.pass.test h c σ)))) := ho
    have hno := hend.reports (Check.reports_branches _ _ _ _ _)
    have hyes := hno.before (Check.block_grows no _)
    have htest := over_test (hyes.before (Check.block_grows yes _))
    rw [cond, Cond.visits]
    refine (expr_resolves hi hh c σ τ hs hv.1.1 htest).bind fun test τ₁ hrun hcond => ?_
    have hs₁ := hs.test hrun
    rw [joint_test hrun] at hv ⊢
    refine gives_orFail (fun f => excused_valType hf) fun _ _ => ?_
    refine (block_resolves hi hh yes _ τ₁ hs₁ hv.1.2 hyes).bind fun code τ₂ hrun' hvisits => ?_
    have hs₂ := hs₁.past (Check.block_grows yes _) ((block_lowers env yes τ₁).ok hrun')
    rw [joint_block hrun'] at hv ⊢
    exact (block_resolves hi hh no _ τ₂ hs₂ hv.2 hno).map fun hvisits' =>
      List.forall_mem_append.mpr ⟨List.forall_mem_append.mpr ⟨hcond, hvisits⟩, hvisits'⟩
  | .orIf c yes no, t, σ, τ, hf, hs, hv, ho => by
    rw [Cond.visits, List.forall_mem_append, List.forall_mem_append] at hv
    rw [Check.cond] at ho
    have hend : Over S (Check.after (Check.branches yes.endsInReturn
        (Check.value (Check.block yes) (Check.pass.test h c σ)) false (no.cond.span.join no.yes.span)
        (Check.value (Check.cond no) (Check.after (Check.block yes) (Check.pass.test h c σ))))
      (Check.after (Check.cond no) (Check.after (Check.block yes) (Check.pass.test h c σ)))) := ho
    have hno := hend.reports (Check.reports_branches _ _ _ _ _)
    have hyes := hno.before (Check.cond_grows no _)
    have htest := over_test (hyes.before (Check.block_grows yes _))
    rw [cond, Cond.visits]
    refine (expr_resolves hi hh c σ τ hs hv.1.1 htest).bind fun test τ₁ hrun hcond => ?_
    have hs₁ := hs.test hrun
    rw [joint_test hrun] at hv ⊢
    refine gives_orFail (fun f => excused_valType hf) fun _ _ => ?_
    refine (block_resolves hi hh yes _ τ₁ hs₁ hv.1.2 hyes).bind fun code τ₂ hrun' hvisits => ?_
    have hs₂ := hs₁.past (Check.block_grows yes _) ((block_lowers env yes τ₁).ok hrun')
    rw [joint_block hrun'] at hv ⊢
    exact (cond_resolves hi hh no t _ τ₂ hf hs₂ hv.2 hno).map fun hvisits' =>
      List.forall_mem_append.mpr ⟨List.forall_mem_append.mpr ⟨hcond, hvisits⟩, hvisits'⟩

theorem block_resolves (hi : Indexed S env headers) {h : Header} (hh : h ∈ headers) :
    ∀ (b : Block) (σ : Check.State) (τ : State), Sim S h σ τ →
    (∀ v ∈ b.visits (joint env) h false (σ, τ), Prepared S env given headers v) →
    Over S (Check.after (Check.block b) σ) →
    Gives (block env b) τ (∀ v ∈ b.visits (joint env) h false (σ, τ), Simulated S env v) (Excused given)
  | .mk id span is ss none, σ, τ, hs, hv, ho => by
    have hroot := ho.before (Check.block_grows _ σ)
    rw [Block.visits, List.forall_mem_cons, List.forall_mem_append] at hv
    rw [Check.block] at ho
    have hact := ho.recorded
    have hend : Over S (Check.after (Check.blockType (.mk id span is ss none) none)
      (Check.after (Check.stmts ss) (Check.after (Check.items is) (Check.atBlock is σ)))) :=
      Over.leave hact
    have hstmts := hend.reports (Check.reports_blockType _ _)
    have hitems := hstmts.before (Check.stmts_grows ss _)
    have hself : Simulated S env (⟨.block (.mk id span is ss none), some h, false, (σ, τ)⟩ : JointVisit) :=
      simulated_root hs hroot trivial
    rw [block, Block.visits]
    refine gives_inBlock env is (fun _ => trivial) fun hjoint => ?_
    have hs₁ := hs.block (hitems.before (Check.items_grows is _))
    rw [hjoint] at hv ⊢
    refine (items_resolves hi is _ _ hs₁.toBeside hv.2.1 hitems).bind fun _ τ₁ hrun hvisits => ?_
    have hs₂ := hs₁.past (Check.items_grows is _) ((items_lowers env is _).ok hrun)
    rw [joint_items hrun] at hv ⊢
    refine Ends.mono (stmts_resolves hi hh ss _ τ₁ hs₂ hv.2.2 hstmts) ?_ fun _ _ _ hb => hb
    intro code τ₂ _ ⟨_, hvisits'⟩
    exact List.forall_mem_cons.mpr ⟨hself, List.forall_mem_append.mpr ⟨hvisits, hvisits'⟩⟩
  | .mk id span is ss (some e), σ, τ, hs, hv, ho => by
    have hroot := ho.before (Check.block_grows _ σ)
    rw [Block.visits, List.forall_mem_cons, List.forall_mem_append, List.forall_mem_append] at hv
    rw [Check.block] at ho
    have hact := ho.recorded
    have hend : Over S (Check.after (Check.blockType (.mk id span is ss (some e)) (some
        (Check.value (Check.expr e)
          (Check.after (Check.stmts ss) (Check.after (Check.items is) (Check.atBlock is σ))))))
      (Check.after (Check.expr e)
        (Check.after (Check.stmts ss) (Check.after (Check.items is) (Check.atBlock is σ))))) :=
      Over.leave hact
    have htail := hend.reports (Check.reports_blockType _ _)
    have hstmts := htail.before (Check.expr_grows e _)
    have hitems := hstmts.before (Check.stmts_grows ss _)
    have hself : Simulated S env
        (⟨.block (.mk id span is ss (some e)), some h, false, (σ, τ)⟩ : JointVisit) :=
      simulated_root hs hroot trivial
    rw [block, Block.visits]
    refine gives_inBlock env is (fun _ => trivial) fun hjoint => ?_
    have hs₁ := hs.block (hitems.before (Check.items_grows is _))
    rw [hjoint] at hv ⊢
    refine (items_resolves hi is _ _ hs₁.toBeside hv.2.1.1 hitems).bind fun _ τ₁ hrun hvisits => ?_
    have hs₂ := hs₁.past (Check.items_grows is _) ((items_lowers env is _).ok hrun)
    rw [joint_items hrun] at hv ⊢
    rw [Gives, Ends.bind_iff]
    refine Ends.mono (stmts_resolves hi hh ss _ τ₁ hs₂ hv.2.1.2 hstmts) ?_ fun _ _ _ hb => hb
    intro code τ₂ hrun' ⟨hs₃, hvisits'⟩
    rw [joint_stmts hrun'] at hv ⊢
    refine (expr_resolves hi hh e _ τ₂ hs₃ hv.2.2 htail).map fun hvisits'' => ?_
    exact List.forall_mem_cons.mpr ⟨hself,
      List.forall_mem_append.mpr ⟨List.forall_mem_append.mpr ⟨hvisits, hvisits'⟩, hvisits''⟩⟩

theorem stmts_resolves (hi : Indexed S env headers) {h : Header} (hh : h ∈ headers) :
    ∀ (ss : List Stmt) (σ : Check.State) (τ : State), Sim S h σ τ →
    (∀ v ∈ stmtVisits (joint env) h false ss (σ, τ), Prepared S env given headers v) →
    Over S (Check.after (Check.stmts ss) σ) →
    Ends (stmts env ss) τ (fun _ τ' => Sim S h (Check.after (Check.stmts ss) σ) τ' ∧
      ∀ v ∈ stmtVisits (joint env) h false ss (σ, τ), Simulated S env v) (fun f _ => Excused given f)
  | [], σ, τ, hs, hv, ho => by
    rw [stmts, Check.stmts]
    exact ⟨hs, List.forall_mem_nil _⟩
  | stmt :: ss, σ, τ, hs, hv, ho => by
    rw [stmtVisits, List.forall_mem_append] at hv
    rw [Check.stmts] at ho ⊢
    have hrest : Over S (Check.after (Check.stmts ss) (Check.after (Check.stmt stmt) σ)) := ho
    have hfirst := hrest.before (Check.stmts_grows ss _)
    rw [stmts, stmtVisits, Ends.bind_iff]
    refine Ends.mono (stmt_resolves hi hh stmt σ τ hs hv.1 hfirst) ?_ fun _ _ _ hb => hb
    intro first τ' hrun hvisits
    have hs' := hs.stmt hi hh hv.1 hfirst hrun
    rw [joint_stmt hrun] at hv ⊢
    rw [Ends.bind_iff]
    refine Ends.mono (stmts_resolves hi hh ss _ τ' hs' hv.2 hrest) ?_ fun _ _ _ hb => hb
    intro rest τ'' _ ⟨hs'', hvisits'⟩
    exact ⟨hs'', List.forall_mem_append.mpr ⟨hvisits, hvisits'⟩⟩

theorem stmt_resolves (hi : Indexed S env headers) {h : Header} (hh : h ∈ headers) :
    ∀ (stmt : Stmt) (σ : Check.State) (τ : State), Sim S h σ τ →
    (∀ v ∈ stmt.visits (joint env) h false (σ, τ), Prepared S env given headers v) →
    Over S (Check.after (Check.stmt stmt) σ) →
    Gives (Lower.stmt env stmt) τ (∀ v ∈ stmt.visits (joint env) h false (σ, τ), Simulated S env v)
      (Excused given)
  | .bind id span name declared init, σ, τ, hs, hv, ho => by
    have hroot := ho.before (Check.stmt_grows _ σ)
    rw [Stmt.visits, List.forall_mem_cons] at hv
    obtain ⟨t, ht, hf, -⟩ := Check.Clean.bind hv.1.clean
    rw [Check.stmt] at ho
    have hbind : Over S (Check.after (Check.binding id name declared init
      (Check.value (Check.expr init) σ)) (Check.after (Check.expr init) σ)) := ho
    have hinit := hbind.before (Check.grows_binding _ _ _ _ _ _)
    rw [Stmt.visits]
    refine gives_stmt hs hroot ?_
    rw [Lower.stmt]
    refine (expr_resolves hi hh init σ τ hs hv.2 hinit).bind fun value τ' _ hvisits => ?_
    exact (gives_binding ht hf).map fun _ => hvisits
  | .expr span e semi, σ, τ, hs, hv, ho => by
    have hroot := ho.before (Check.stmt_grows _ σ)
    rw [Stmt.visits, List.forall_mem_cons] at hv
    obtain ⟨t, ht, hf, -⟩ := clean_expr hv.2
    rw [Check.stmt] at ho
    have hact : Over S (Check.after (Check.expr e) σ) := ho
    rw [Stmt.visits]
    refine gives_stmt hs hroot ?_
    rw [Lower.stmt]
    refine (expr_resolves hi hh e σ τ hs hv.2 hact).bind fun code τ' _ hvisits => ?_
    exact (gives_dropValue ht hf).map fun _ => hvisits

theorem items_resolves (hi : Indexed S env headers) :
    ∀ (is : List Item) (σ : Check.State) (τ : State), Beside S σ τ →
    (∀ v ∈ itemVisits (joint env) false is (σ, τ), Prepared S env given headers v) →
    Over S (Check.after (Check.items is) σ) →
    Gives (items env is) τ (∀ v ∈ itemVisits (joint env) false is (σ, τ), Simulated S env v) (Excused given)
  | [], σ, τ, hb, hv, ho => by
    rw [items]
    exact List.forall_mem_nil _
  | i :: is, σ, τ, hb, hv, ho => by
    rw [itemVisits, List.forall_mem_append] at hv
    rw [Check.items] at ho
    have hrest : Over S (Check.after (Check.items is) (Check.after (Check.item i) σ)) := ho
    have hfirst := hrest.before (Check.items_grows is _)
    rw [items, itemVisits]
    refine (item_resolves hi i σ τ hb hv.1 hfirst).bind fun _ τ' hrun hvisits => ?_
    have hb' := hb.past (Check.item_grows i σ) ((item_lowers env i τ).ok hrun)
    rw [joint_item hrun] at hv ⊢
    exact (items_resolves hi is _ τ' hb' hv.2 hrest).imp fun hvisits' =>
      List.forall_mem_append.mpr ⟨hvisits, hvisits'⟩

theorem item_resolves (hi : Indexed S env headers) :
    ∀ (i : Item) (σ : Check.State) (τ : State), Beside S σ τ →
    (∀ v ∈ i.visits (joint env) false (σ, τ), Prepared S env given headers v) →
    Over S (Check.after (Check.item i) σ) →
    Gives (item env i) τ (∀ v ∈ i.visits (joint env) false (σ, τ), Simulated S env v) (Excused given)
  | .function h body, σ, τ, hb, hv, ho => by
    have hroot := ho.before (Check.item_grows _ σ)
    rw [Item.visits, List.forall_mem_cons] at hv
    obtain ⟨hh, -, -⟩ := hv.1.clean
    rw [Check.item] at ho
    have hend : Over S (Check.after (Check.functionBody h body
        (Check.value (Check.block body) (Check.atFunction h σ)))
      (Check.after (Check.block body) (Check.atFunction h σ))) := Over.leave ho
    have hbody := hend.reports (Check.reports_functionBody _ _ _)
    have hself : Simulated S env (⟨.item (.function h body), none, false, (σ, τ)⟩ : JointVisit) :=
      ⟨hroot, hb, fun _ he => (by cases he), fun _ => trivial, fun ht => (by cases ht)⟩
    rw [item, Item.visits]
    split
    · refine gives_inFunction env (fun _ => trivial) fun hjoint => ?_
      rw [hjoint] at hv ⊢
      have hs := Sim.function hb (hbody.before (Check.block_grows body _)) (hi.sound h hh) ?_
        fun htyped => hi.params htyped h hh
      · refine (block_resolves hi hh body _ _ hs hv.2 hbody).imp fun hvisits => ?_
        exact List.forall_mem_cons.mpr ⟨hself, hvisits⟩
      · intro i p hp
        refine hv.1.declared _ (List.mem_map.mpr ⟨(p, i), ?_, rfl⟩)
        rw [List.mem_zipIdx_iff_getElem?]
        exact hp
    · trivial
  | .foreign span abi functions, σ, τ, hb, hv, ho => by
    have hroot := ho.before (Check.item_grows _ σ)
    rw [item, Item.visits]
    exact List.forall_mem_singleton.mpr
      ⟨hroot, hb, fun _ he => (by cases he), fun _ => trivial, fun ht => (by cases ht)⟩
end

end Ferrite.Lower
