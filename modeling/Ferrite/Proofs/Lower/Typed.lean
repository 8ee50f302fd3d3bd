import Ferrite.Proofs.Lower.Effect
import Ferrite.Proofs.Lower.Module
import Ferrite.Proofs.Lower.Resolve

/-!
The code of a clean program leaves values of the types that checking noted. A block that ends in a
`return` may leave anything, whatever its type.
-/

namespace Ferrite.Lower
open Wasm (ValType Instr Moves)

/-- What is known of a node of a program that has a module. -/
structure Known (S : Setting) (env : Env) (given : Prop) (headers : List Header) (v : JointVisit) :
    Prop where
  simulated : Simulated S env v
  clean : Check.Clean env.types given headers v.fst

/-- Code of a function, made up to a state, finds its locals, its result and other functions in a
context. -/
structure Hosts (env : Env) (headers : List Header) (h : Header) (τ : State) (C : Wasm.Context) :
    Prop where
  params : h.params.length = (paramTypes h).length
  locals : paramTypes h ++ τ.locals.types <+: C.locals
  result : ∃ v, valType h.signature.result = .ok v ∧ C.results = v.toList
  calls : ∀ d ∈ headers, ∀ i, env.functions.idxOf? d.id = some i →
    ∃ t, funcType d = .ok t ∧ C.function? i = some t

/-- The last statement is a `return`. -/
def Returns (ss : List Stmt) : Prop :=
  ∃ span value semi, ss.getLast? = some (.expr span value semi) ∧ value.returned?.isSome

section

variable {S : Setting} {env : Env} {given : Prop} {headers : List Header} {h : Header}
  {σ : Check.State} {τ τ' : State} {C : Wasm.Context} {t : Ty}

theorem Hosts.before {own : Bool} {defs : List NodeId} {passed : List Scope.Event}
    (hc : Hosts env headers h τ' C) (hg : Grows own defs passed τ τ') : Hosts env headers h τ C :=
  { hc with locals := ((List.prefix_append_right_inj _).mpr hg.types).trans hc.locals }

theorem Hosts.inside (hc : Hosts env headers h τ C) (label : List ValType) :
    Hosts env headers h τ (C.inside label) := ⟨hc.params, hc.locals, hc.result, hc.calls⟩

/-- A local that a name stands for is of the type that checking has for it. -/
theorem Hosts.fits (hc : Hosts env headers h τ C) (ht : S.typed) (hs : Sim S h σ τ) {name : String}
    {slot : Option Nat} (hl : σ.scopes.local? name = some t) (hslot : τ.locals.lookup name = some slot) :
    Fits C.locals t slot := by
  obtain ⟨k, slot', -, hslot', -, hfits⟩ := hs.lookup_some hl
  rw [hslot] at hslot'
  cases hslot'
  exact (hfits ht).mono hc.locals

theorem sim_of_known {e : Expr}
    (hv : ∀ v ∈ e.visits (joint env) h false (σ, τ), Known S env given headers v) : Sim S h σ τ :=
  (hv _ (e.self_mem_visits (joint env) h false (σ, τ))).simulated.sim h rfl

theorem rule_of_known {e : Expr}
    (hv : ∀ v ∈ e.visits (joint env) h false (σ, τ), Known S env given headers v)
    (ht : env.types.get? e.id = some t) : Check.ExprRule env.types headers h σ.scopes e t := by
  obtain ⟨t', ht', -, hrule⟩ :=
    Check.Clean.expr (hv _ (e.self_mem_visits (joint env) h false (σ, τ))).clean
  cases ht.symm.trans ht'
  exact hrule

theorem blockRule_of_known {b : Block}
    (hv : ∀ v ∈ b.visits (joint env) h false (σ, τ), Known S env given headers v)
    (ht : env.types.get? b.id = some t) : Check.BlockRule env.types b t := by
  obtain ⟨t', ht', -, hrule⟩ := (hv _ (b.self_mem_visits (joint env) h false (σ, τ))).clean
  cases ht.symm.trans ht'
  exact hrule

theorem returns_of_endsInReturn {id : NodeId} {span : Span} {items : List Item} {ss : List Stmt}
    (he : (Block.mk id span items ss none).endsInReturn = true) : Returns ss := by
  unfold Block.endsInReturn Block.trailingReturn? at he
  split at he
  · rename_i span' value semi _ hlast
    exact ⟨span', value, semi, hlast, he⟩
  · cases he

/-- A `return` has no value. -/
theorem never_of_returned {e : Expr} (he : e.returned?.isSome) {scopes : Scope.Stack}
    (hr : Check.ExprRule env.types headers h scopes e t) : t = .never := by
  cases e with
  | ret id span value =>
    cases value with
    | none => exact hr.2
    | some value =>
      obtain ⟨r, -, -, hn⟩ := hr
      exact hn
  | _ => cases he

/-- Two operands and their operator leave a value of the type of the whole. -/
theorem moves_binary {op : BinaryOp} {lhs rhs : Expr} {l r : Ty} {left right code : List Instr}
    (hop : binary env op lhs rhs τ = .ok code τ') (hl : env.types.get? lhs.id = some l)
    (hr : env.types.get? rhs.id = some r) (hrule : Check.Operates op l r t) (hlhs : Leaves C left l)
    (hrhs : Leaves C right r) (hparams : τ.locals.params = (paramTypes h).length)
    (hlocals : paramTypes h ++ τ'.locals.types <+: C.locals) {v : Option ValType}
    (hvalue : valType t = .ok v) : Moves C (left ++ right ++ code) [] v.toList := by
  rcases binary_ok hop hl hr with ⟨hn, rfl, rfl⟩ | ⟨hn, hoperator⟩
  · have hanything : ∀ rs, Yields l rs ∧ Yields r rs :=
      fun rs => Yields.operands (.inl hn) hrule.operands
    simpa using (hlhs [] (hanything []).1).append (hrhs v.toList (hanything v.toList).2)
  · obtain ⟨c, harithmetic⟩ := exists_arithmetic (hrule.accepts.resolve_left hn)
    have hoperand := valType_of_arithmetic harithmetic
    obtain ⟨hfirst, hsecond⟩ := (yields_value hoperand).operands hrule.operands
    have hcode := ((hlhs _ hfirst).append_new (hrhs _ hsecond)).append
      (moves_operator hoperator hoperand hparams hlocals)
    rw [hrule.type] at hvalue
    split at hvalue
    · rename_i hcomparison
      rw [if_pos hcomparison] at hcode
      cases hvalue
      exact hcode
    · rename_i hcomparison
      rw [if_neg hcomparison] at hcode
      rw [hoperand] at hvalue
      cases hvalue
      exact hcode

/-- A function is left with a value that suits its result. -/
theorem Hosts.moves_ret (hc : Hosts env headers h τ C) {is : List Instr} (hleaves : Leaves C is t)
    (hsuits : t.Suits h.signature.result) : Moves C (is ++ [.ret]) [] [] := by
  obtain ⟨v, hresult, hresults⟩ := hc.result
  have hret : Moves C [.ret] C.results.reverse [] := .ret
  rw [hresults, Wasm.reverse_toList] at hret
  exact (hleaves _ ((yields_value hresult).suits hsuits)).append hret

theorem leaves_nil : Leaves C [] .unit := by
  intro rs hrs
  rw [yields_unit hrs]
  exact .nil

theorem moves_loop {is : List Instr} (hbody : Moves (C.inside []) is [] []) :
    Moves C [.loop (is ++ [.br 0])] [] [] := by
  apply Moves.loop
  exact hbody.append (.br (show (C.inside []).labels[0]? = some [] from rfl))

/-- A `while` loop is left at the end of the block around it. -/
theorem moves_while {test is : List Instr} (htest : Moves ((C.inside []).inside []) test [] [.i32])
    (hbody : Moves ((C.inside []).inside []) is [] []) :
    Moves C [.block [.loop (test ++ [.i32Eqz, .brIf 1] ++ is ++ [.br 0])]] [] [] := by
  have heqz : Moves ((C.inside []).inside []) [.i32Eqz] [.i32] [.i32] := .instr ⟨[.i32], [.i32]⟩ rfl
  have hbreak : Moves ((C.inside []).inside []) [.brIf 1] [.i32] [] :=
    .brIf (show ((C.inside []).inside []).labels[1]? = some [] from rfl)
  exact .block (moves_loop ((htest.append (heqz.append hbreak)).append hbody))

end

variable {S : Setting} {env : Env} {given : Prop} {headers : List Header} {h : Header}

mutual
theorem expr_leaves (hS : S.typed) : ∀ (e : Expr) (σ : Check.State) {τ τ' : State} {is : List Instr}
    {C : Wasm.Context} {t : Ty}, expr env e τ = .ok is τ' →
    (∀ v ∈ e.visits (joint env) h false (σ, τ), Known S env given headers v) →
    Hosts env headers h τ' C → env.types.get? e.id = some t → Leaves C is t
  | .literal id span value, σ, τ, τ', is, C, t, hrun, hv, hc, ht => by
    obtain ⟨t', i, ht', hi, rfl, rfl⟩ := expr_literal_ok hrun
    cases ht.symm.trans ht'
    have hrule : t = value.type := rule_of_known hv ht
    subst hrule
    exact leaves_sealed fun v hvalue => moves_constant hi hvalue
  | .path id span name, σ, τ, τ', is, C, t, hrun, hv, hc, ht => by
    obtain ⟨t', slot, ht', hslot, rfl, rfl⟩ := expr_path_ok hrun
    cases ht.symm.trans ht'
    have hs := sim_of_known hv
    rcases rule_of_known hv ht with hl | ⟨hl, -⟩
    · exact leaves_sealed fun v hvalue => moves_readLocal (hc.fits hS hs hl hslot) hvalue
    · rw [hs.lookup_none hl] at hslot
      cases hslot
  | .grouped id span inner, σ, τ, τ', is, C, t, hrun, hv, hc, ht => by
    obtain ⟨t', code, ht', hinner, rfl⟩ := expr_grouped_ok hrun
    cases ht.symm.trans ht'
    have hrule := rule_of_known hv ht
    rw [Expr.visits, List.forall_mem_cons] at hv
    exact leaves_sealed fun v hvalue =>
      expr_leaves hS inner σ hinner hv.2 hc hrule _ (yields_value hvalue)
  | .unary id span op operand, σ, τ, τ', is, C, t, hrun, hv, hc, ht => by
    obtain ⟨t', u, code, ht', hu, hoperand, hcode⟩ := expr_unary_ok hrun
    cases ht.symm.trans ht'
    obtain ⟨hnoted, -⟩ := rule_of_known hv ht
    cases hu.symm.trans hnoted
    rw [Expr.visits, List.forall_mem_cons] at hv
    have hleaves := expr_leaves hS operand σ hoperand hv.2 hc hnoted
    rcases hcode with ⟨hn, rfl⟩ | ⟨-, before, behind, hop, rfl⟩
    · exact leaves_sealed fun v _ => hleaves _ (.inl hn)
    · exact leaves_sealed fun v hvalue => moves_unary hop hvalue (hleaves _ (yields_value hvalue))
  | .binary id span op lhs rhs, σ, τ, τ', is, C, t, hrun, hv, hc, ht => by
    obtain ⟨l, r, hl, hr, hrule⟩ := rule_of_known hv ht
    by_cases ho : op = .assign
    · subst ho
      rw [if_pos rfl] at hrule
      obtain ⟨⟨name, hname, hlocal⟩, hsuits, rfl⟩ := hrule
      obtain ⟨t', name', value, slot, ht', hname', hvalue, hslot, rfl⟩ := expr_assign_ok hrun
      cases ht.symm.trans ht'
      cases hname.symm.trans hname'
      have hs := sim_of_known hv
      have hgl := Check.expr_grows lhs σ
      have hgr := Check.expr_grows rhs (Check.after (Check.expr lhs) σ)
      rw [lhs.scopes_of_place? name hname] at hgl
      have hs₁ := hs.past hgl (.refl false τ)
      have hs₂ := hs₁.past hgr ((expr_lowers env rhs τ).ok hvalue)
      rw [← hgl.scopes.local? hs.valid, ← hgr.scopes.local? hs₁.valid] at hlocal
      rw [Expr.visits, List.forall_mem_cons, List.forall_mem_append] at hv
      have hleaves := expr_leaves hS rhs _ hvalue hv.2.2 hc hr
      obtain ⟨v, hv, hwrite⟩ := moves_writeLocal (hc.fits hS hs₂ hlocal hslot)
      apply leaves_sealed
      rintro _ ⟨⟩
      exact (hleaves _ ((yields_value hv).suits hsuits)).append hwrite
    · rw [if_neg ho] at hrule
      obtain ⟨t', left, τ₁, right, τ₂, code, ht', hleft, hright, hop, rfl⟩ := expr_binary_ok ho hrun
      cases ht.symm.trans ht'
      have hs := sim_of_known hv
      have hgl := (expr_lowers env lhs τ).ok hleft
      have hgr := (expr_lowers env rhs τ₁).ok hright
      have hc₂ := hc.before ((Lowers.binary op lhs rhs τ₂).ok hop : Grows false [] [] τ₂ τ')
      have htarget : (false || decide (op = .assign)) = false := by simp [ho]
      rw [Expr.visits, List.forall_mem_cons, List.forall_mem_append, htarget, joint_left ho,
        after_ok hleft] at hv
      have hlhs := expr_leaves hS lhs σ hleft hv.2.1 (hc₂.before hgr) hl
      have hrhs := expr_leaves hS rhs _ hright hv.2.2 hc₂ hr
      have hparams : τ₂.locals.params = (paramTypes h).length := by
        rw [hgr.params, hgl.params, hs.params, hc.params]
      exact leaves_sealed fun v hvalue => moves_binary hop hl hr hrule hlhs hrhs hparams hc.locals hvalue
  | .call id span callee args, σ, τ, τ', is, C, t, hrun, hv, hc, ht => by
    obtain ⟨-, d, hd, hdecl, rfl, hargs⟩ := rule_of_known hv ht
    obtain ⟨t', values, d', index, ht', hvalues, hd', hindex, rfl⟩ := expr_call_ok hrun
    cases ht.symm.trans ht'
    rw [Expr.visits, List.forall_mem_cons] at hv
    have hsimulated := hv.1.simulated
    have hreplay := ((exprs_lowers env args τ).ok hvalues).replay
    have hfound : τ'.replay.decl? callee.text = σ.scopes.decl? callee.text := by
      rw [← hsimulated.beside.decl? hsimulated.complete, Scope.Replay.decl?, Scope.Replay.decl?,
        Scope.Replay.frames, Scope.Replay.frames, hreplay.record, hreplay.opened]
    have hsame : some d' = some d.decl := hd'.symm.trans (hfound.trans hdecl)
    cases hsame
    obtain ⟨type, htype, hfunction⟩ := hc.calls d hd index hindex
    obtain ⟨hparams, v, hresult, hresults⟩ := funcType_ok htype
    have hcall : Moves C [.call index] type.params.reverse type.results.reverse := .instr type hfunction
    have hcode := (exprs_leave hS args σ hvalues hv.2 hc hargs hparams).append hcall
    apply leaves_sealed
    intro v' hvalue
    rw [hresult] at hvalue
    cases hvalue
    rwa [hresults, Wasm.reverse_toList] at hcode
  | .ret id span none, σ, τ, τ', is, C, t, hrun, hv, hc, ht => by
    obtain ⟨hsuits, rfl⟩ := rule_of_known hv ht
    obtain ⟨t', ht', rfl, rfl⟩ := expr_ret_none_ok hrun
    cases ht.symm.trans ht'
    apply leaves_sealed
    rintro _ ⟨⟩
    exact hc.moves_ret leaves_nil hsuits
  | .ret id span (some value), σ, τ, τ', is, C, t, hrun, hv, hc, ht => by
    obtain ⟨r, hr, hsuits, rfl⟩ := rule_of_known hv ht
    obtain ⟨t', code, ht', hvalue, rfl⟩ := expr_ret_some_ok hrun
    cases ht.symm.trans ht'
    rw [Expr.visits, List.forall_mem_cons] at hv
    apply leaves_sealed
    rintro _ ⟨⟩
    exact hc.moves_ret (expr_leaves hS value σ hvalue hv.2 hc hr) hsuits
  | .block id span body, σ, τ, τ', is, C, t, hrun, hv, hc, ht => by
    obtain ⟨t', code, ht', hbody, rfl⟩ := expr_block_ok hrun
    cases ht.symm.trans ht'
    have hrule := rule_of_known hv ht
    rw [Expr.visits, List.forall_mem_cons] at hv
    exact leaves_sealed fun v hvalue =>
      block_leaves hS body σ hbody hv.2 hc hrule _ (.inr (yields_value hvalue))
  | .loop id span body, σ, τ, τ', is, C, t, hrun, hv, hc, ht => by
    obtain ⟨t', code, b, v, ht', hbody, hb, hdropped, rfl⟩ := expr_loop_ok hrun
    cases ht.symm.trans ht'
    rw [Expr.visits, List.forall_mem_cons] at hv
    have hleaves := block_leaves hS body σ hbody hv.2 (hc.inside []) hb _ (.inr (yields_value hdropped))
    have hloop := moves_loop (moves_dropCode hdropped hleaves)
    exact leaves_sealed fun v' _ => hloop.append .unreachable
  | .while id span c body, σ, τ, τ', is, C, t, hrun, hv, hc, ht => by
    obtain ⟨⟨u, hu, htest⟩, rfl⟩ := rule_of_known hv ht
    obtain ⟨t', test, τ₁, code, b, v, ht', hcond, hbody, hb, hdropped, rfl⟩ := expr_while_ok hrun
    cases ht.symm.trans ht'
    have hgrows := (block_lowers env body τ₁).ok hbody
    rw [Expr.visits, List.forall_mem_cons, List.forall_mem_append, joint_test hcond] at hv
    have hinner := (hc.inside []).inside []
    have hchecks := expr_leaves hS c σ hcond hv.2.1 (hinner.before hgrows) hu _ (yields_test htest)
    have hleaves := block_leaves hS body _ hbody hv.2.2 hinner hb _ (.inr (yields_value hdropped))
    apply leaves_sealed
    rintro _ ⟨⟩
    simpa [List.append_assoc] using moves_while hchecks (moves_dropCode hdropped hleaves)
  | .cond id span links, σ, τ, τ', is, C, t, hrun, hv, hc, ht => by
    obtain ⟨t', code, ht', hlinks, rfl⟩ := expr_cond_ok hrun
    cases ht.symm.trans ht'
    have hrule := rule_of_known hv ht
    rw [Expr.visits, List.forall_mem_cons] at hv
    exact leaves_sealed fun v hvalue =>
      cond_leaves hS links σ hlinks hv.2 hc hrule hvalue (yields_value hvalue)

/-- Arguments leave the values of parameters that they suit. -/
theorem exprs_leave (hS : S.typed) : ∀ (es : List Expr) (σ : Check.State) {τ τ' : State}
    {is : List Instr} {C : Wasm.Context} {ps : List Ty} {vs : List ValType}, exprs env es τ = .ok is τ' →
    (∀ v ∈ exprVisits (joint env) h false es (σ, τ), Known S env given headers v) →
    Hosts env headers h τ' C →
    List.Forall₂ (fun e p => ∃ a, env.types.get? e.id = some a ∧ a.Suits p) es ps →
    List.Forall₂ (fun p v => valType p = .ok (some v)) ps vs → Moves C is [] vs.reverse
  | [], σ, τ, τ', is, C, ps, vs, hrun, hv, hc, hargs, hparams => by
    rw [exprs] at hrun
    cases hrun
    cases hargs
    cases hparams
    exact .nil
  | e :: es, σ, τ, τ', is, C, ps, vs, hrun, hv, hc, hargs, hparams => by
    obtain ⟨first, τ₁, rest, hfirst, hrest, rfl⟩ := exprs_cons_ok hrun
    rw [exprVisits, List.forall_mem_append, joint_expr hfirst] at hv
    cases hargs with
    | cons harg hargs =>
      cases hparams with
      | @cons p v _ vs hparam hparams =>
        obtain ⟨a, ha, hsuits⟩ := harg
        have hgrows := (exprs_lowers env es τ₁).ok hrest
        have hleaves := expr_leaves hS e σ hfirst hv.1 (hc.before hgrows) ha
        have hvalue := hleaves _ ((yields_value hparam).suits hsuits)
        rw [List.reverse_cons]
        exact hvalue.append_new (exprs_leave hS es _ hrest hv.2 hc hargs hparams)

/-- A chain of conditions is made for the type of the whole chain, which its own type suits. -/
theorem cond_leaves (hS : S.typed) : ∀ (links : Cond) (σ : Check.State) {τ τ' : State}
    {is : List Instr} {C : Wasm.Context} {t n : Ty} {v : Option ValType},
    cond env links t τ = .ok is τ' →
    (∀ v ∈ links.visits (joint env) h false (σ, τ), Known S env given headers v) →
    Hosts env headers h τ' C → Check.CondRule env.types links n → valType t = .ok v →
    Yields n v.toList → Moves C is [] v.toList
  | .only c yes, σ, τ, τ', is, C, t, n, v, hrun, hv, hc, hrule, hvalue, hn => by
    obtain ⟨⟨u, hu, htest⟩, y, hy, -, rfl⟩ := hrule
    obtain ⟨test, τ₁, code, b, v', hcond, hyes, hb, hdropped, rfl⟩ := cond_only_ok hrun
    have hgrows := (block_lowers env yes τ₁).ok hyes
    rw [Cond.visits, List.forall_mem_append, joint_test hcond] at hv
    have hchecks := expr_leaves hS c σ hcond hv.1 (hc.before hgrows) hu _ (yields_test htest)
    have hleaves := block_leaves hS yes _ hyes hv.2 (hc.inside []) hb _ (.inr (yields_value hdropped))
    rw [yields_unit hn]
    exact hchecks.append (.ifThen (moves_dropCode hdropped hleaves))
  | .orElse c yes no, σ, τ, τ', is, C, t, n, v, hrun, hv, hc, hrule, hvalue, hn => by
    obtain ⟨⟨u, hu, htest⟩, y, n', hy, hn', hjoins⟩ := hrule
    obtain ⟨test, τ₁, result, code, τ₂, code', hcond, hresult, hyes, hno, rfl⟩ := cond_orElse_ok hrun
    rw [hvalue] at hresult
    cases hresult
    have hgrows := (block_lowers env yes τ₁).ok hyes
    have hgrows' := (block_lowers env no τ₂).ok hno
    rw [Cond.visits, List.forall_mem_append, List.forall_mem_append, joint_test hcond,
      joint_block hyes] at hv
    have hchecks := expr_leaves hS c σ hcond hv.1.1 ((hc.before hgrows').before hgrows) hu _
      (yields_test htest)
    obtain ⟨hfirst, hsecond⟩ := hn.joins hjoins
    have hleaves := block_leaves hS yes _ hyes hv.1.2 ((hc.inside v.toList).before hgrows') hy _ hfirst
    have hleaves' := block_leaves hS no _ hno hv.2 (hc.inside v.toList) hn' _ hsecond
    exact hchecks.append (.ifElse hleaves hleaves')
  | .orIf c yes no, σ, τ, τ', is, C, t, n, v, hrun, hv, hc, hrule, hvalue, hn => by
    obtain ⟨⟨u, hu, htest⟩, y, n', hy, hrest, hjoins⟩ := hrule
    obtain ⟨test, τ₁, result, code, τ₂, code', hcond, hresult, hyes, hno, rfl⟩ := cond_orIf_ok hrun
    rw [hvalue] at hresult
    cases hresult
    have hgrows := (block_lowers env yes τ₁).ok hyes
    have hgrows' := (cond_lowers env no t τ₂).ok hno
    rw [Cond.visits, List.forall_mem_append, List.forall_mem_append, joint_test hcond,
      joint_block hyes] at hv
    have hchecks := expr_leaves hS c σ hcond hv.1.1 ((hc.before hgrows').before hgrows) hu _
      (yields_test htest)
    obtain ⟨hfirst, hsecond⟩ := hn.joins hjoins
    have hleaves := block_leaves hS yes _ hyes hv.1.2 ((hc.inside v.toList).before hgrows') hy _ hfirst
    have hleaves' := cond_leaves hS no _ hno hv.2 (hc.inside v.toList) hrest hvalue
      (hsecond.resolve_left Bool.false_ne_true)
    exact hchecks.append (.ifElse hleaves hleaves')

theorem block_leaves (hS : S.typed) : ∀ (b : Block) (σ : Check.State) {τ τ' : State}
    {is : List Instr} {C : Wasm.Context} {t : Ty}, block env b τ = .ok is τ' →
    (∀ v ∈ b.visits (joint env) h false (σ, τ), Known S env given headers v) →
    Hosts env headers h τ' C → env.types.get? b.id = some t →
    ∀ rs, b.endsInReturn = true ∨ Yields t rs → Moves C is [] rs
  | .mk id span items ss none, σ, τ, τ', is, C, t, hrun, hv, hc, ht => by
    have hrule := blockRule_of_known hv ht
    obtain ⟨he, τ₁, τ₂, hitems, hstmts, -, hlocals⟩ := block_none_ok hrun
    have hc₂ : Hosts env headers h τ₂ C := { hc with locals := by simpa [hlocals] using hc.locals }
    rw [Block.visits, List.forall_mem_cons, joint_atBlock he, joint_items hitems,
      List.forall_mem_append] at hv
    intro rs hrs
    apply stmts_leave hS ss _ hstmts hv.2.2 hc₂
    cases hreturn : (Block.mk id span items ss none).endsInReturn with
    | true => exact .inr (returns_of_endsInReturn hreturn)
    | false =>
      rw [hreturn] at hrs
      have hnone := Option.isNone_iff_eq_none.mp (Option.isSome_eq_false_iff.mp hreturn)
      have hunit : t = .unit := by
        unfold Check.BlockRule at hrule
        rw [hnone] at hrule
        exact hrule
      subst hunit
      exact .inl (yields_unit (hrs.resolve_left Bool.false_ne_true))
  | .mk id span items ss (some e), σ, τ, τ', is, C, t, hrun, hv, hc, ht => by
    have hrule : env.types.get? e.id = some t := blockRule_of_known hv ht
    obtain ⟨he, τ₁, code, τ₂, last, τ₃, hitems, hstmts, hlast, rfl, -, hlocals⟩ := block_some_ok hrun
    have hc₃ : Hosts env headers h τ₃ C := { hc with locals := by simpa [hlocals] using hc.locals }
    have hgrows := (expr_lowers env e τ₂).ok hlast
    rw [Block.visits, List.forall_mem_cons, joint_atBlock he, joint_items hitems,
      List.forall_mem_append, List.forall_mem_append, joint_stmts hstmts] at hv
    intro rs hrs
    have hyields : Yields t rs := hrs.resolve_left Bool.false_ne_true
    have hcode := stmts_leave hS ss _ hstmts hv.2.1.2 (hc₃.before hgrows) [] (.inl rfl)
    exact hcode.append (expr_leaves hS e _ hlast hv.2.2 hc₃ hrule _ hyields)

theorem stmts_leave (hS : S.typed) : ∀ (ss : List Stmt) (σ : Check.State) {τ τ' : State}
    {is : List Instr} {C : Wasm.Context}, stmts env ss τ = .ok is τ' →
    (∀ v ∈ stmtVisits (joint env) h false ss (σ, τ), Known S env given headers v) →
    Hosts env headers h τ' C → ∀ rs, rs = [] ∨ Returns ss → Moves C is [] rs
  | [], σ, τ, τ', is, C, hrun, hv, hc => by
    rw [stmts] at hrun
    cases hrun
    rintro rs (rfl | ⟨_, _, _, hlast, -⟩)
    · exact .nil
    · cases hlast
  | stmt :: ss, σ, τ, τ', is, C, hrun, hv, hc => by
    obtain ⟨first, τ₁, rest, hfirst, hrest, rfl⟩ := stmts_cons_ok hrun
    have hgrows := (stmts_lowers env ss τ₁).ok hrest
    rw [stmtVisits, List.forall_mem_append, joint_stmt hfirst] at hv
    have hleaves := stmt_leaves hS stmt σ hfirst hv.1 (hc.before hgrows)
    have hleaves' := stmts_leave hS ss _ hrest hv.2 hc
    rintro rs (rfl | ⟨span, value, semi, hlast, hreturned⟩)
    · exact (hleaves [] (.inl rfl)).append (hleaves' [] (.inl rfl))
    · cases ss with
      | nil =>
        rw [stmts] at hrest
        cases hrest
        cases hlast
        exact (hleaves rs (.inr ⟨span, value, semi, rfl, hreturned⟩)).append .nil
      | cons stmt' ss =>
        rw [List.getLast?_cons_cons] at hlast
        exact (hleaves [] (.inl rfl)).append (hleaves' rs (.inr ⟨span, value, semi, hlast, hreturned⟩))

theorem stmt_leaves (hS : S.typed) : ∀ (stmt : Stmt) (σ : Check.State) {τ τ' : State}
    {is : List Instr} {C : Wasm.Context}, Lower.stmt env stmt τ = .ok is τ' →
    (∀ v ∈ stmt.visits (joint env) h false (σ, τ), Known S env given headers v) →
    Hosts env headers h τ' C → ∀ rs, rs = [] ∨
      (∃ span value semi, stmt = .expr span value semi ∧ value.returned?.isSome) → Moves C is [] rs
  | .bind id span name declared init, σ, τ, τ', is, C, hrun, hv, hc => by
    obtain ⟨value, τ₁, code, hvalue, hcode, rfl⟩ := stmt_bind_ok hrun
    rw [Stmt.visits, List.forall_mem_cons] at hv
    obtain ⟨t, ht, -, ⟨i, hi, hsuits⟩, -⟩ := Check.Clean.bind hv.1.clean
    have hs := sim_of_known hv.2
    have hgrows := (expr_lowers env init τ).ok hvalue
    have hgrows' := (Lowers.binding id name τ₁).ok hcode
    have hleaves := expr_leaves hS init σ hvalue hv.2 (hc.before hgrows') hi
    have hinit : ∀ rs, Yields t rs → Yields i rs := by
      intro rs hrs
      cases declared with
      | none =>
        rw [← hsuits]
        exact hrs
      | some expected =>
        obtain ⟨hsuits, rfl⟩ := hsuits
        exact hrs.suits hsuits
    rintro rs (rfl | ⟨_, _, _, hstmt, -⟩)
    · rcases binding_ok hcode ht with ⟨v, htype, rfl, rfl⟩ | ⟨htype, rfl, rfl⟩
      · have hparams : τ₁.locals.params = (paramTypes h).length := by
          rw [hgrows.params, hs.params, hc.params]
        have hlocals : paramTypes h ++ (τ₁.locals.add v).2.types <+: C.locals := by
          have hprefix := hc.locals
          rwa [((τ₁.locals.add v).2.declare_rest name.text _).2.1] at hprefix
        exact (hleaves _ (hinit _ (yields_value htype))).append (.localSet (getElem?_add hparams hlocals))
      · simpa using hleaves _ (hinit _ (yields_value htype))
    · cases hstmt
  | .expr span e semi, σ, τ, τ', is, C, hrun, hv, hc => by
    obtain ⟨code, t, v, hcode, ht, hdropped, rfl⟩ := stmt_expr_ok hrun
    rw [Stmt.visits, List.forall_mem_cons] at hv
    have hleaves := expr_leaves hS e σ hcode hv.2 hc ht
    rintro rs (rfl | ⟨_, _, _, hstmt, hreturned⟩)
    · exact moves_dropCode hdropped (hleaves _ (yields_value hdropped))
    · cases hstmt
      have hn := never_of_returned hreturned (rule_of_known hv.2 ht)
      subst hn
      cases hdropped
      simpa [dropCode] using hleaves rs (.inl rfl)
end

end Ferrite.Lower
