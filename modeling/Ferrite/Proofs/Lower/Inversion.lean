import Ferrite.Proofs.Lower.Visits

/-!
What a run of lowering that ends well consists of: the runs of the parts of the node, and how their
code is put together.
-/

namespace Ferrite.Lower
open Wasm (ValType Instr)

/-- Behind what never produces a value nothing is reached. -/
def sealed (t : Ty) (is : List Instr) : List Instr := if t = .never then is ++ [.unreachable] else is

/-- Reads the local, if there is one. -/
def readLocal (slot : Option Nat) : List Instr := (slot.map .localGet).toList

/-- Writes to the local, if there is one. -/
def writeLocal (slot : Option Nat) : List Instr := (slot.map .localSet).toList

def dropCode (v : Option ValType) : List Instr := if v.isSome then [.drop] else []

section

variable {env : Env} {s s' : State} {is : List Instr} {t : Ty}

theorem typed_ok {id : NodeId} {code : Ty → Lowering (List Instr)}
    (h : typed env id code s = .ok is s') :
    ∃ t is₀, env.types.get? id = some t ∧ code t s = .ok is₀ s' ∧ is = sealed t is₀ := by
  obtain ⟨t, s₁, ht, hrun⟩ := run_bind_ok h
  obtain ⟨htype, rfl⟩ := typeOf_ok ht
  obtain ⟨is₀, s₂, hcode, hend⟩ := run_bind_ok hrun
  cases hend
  exact ⟨t, is₀, htype, hcode, rfl⟩

theorem dropValue_ok {id : NodeId} (h : dropValue env id s = .ok is s') :
    ∃ t v, env.types.get? id = some t ∧ valType t = .ok v ∧ is = dropCode v ∧ s' = s := by
  obtain ⟨v, s₁, hv, hend⟩ := run_bind_ok h
  obtain ⟨t, ht, hvalue, rfl⟩ := valueOf_ok hv
  cases hend
  exact ⟨t, v, ht, hvalue, rfl, rfl⟩

theorem path_ok {name : Ident} (h : path name s = .ok is s') :
    ∃ slot, s.locals.lookup name.text = some slot ∧ is = readLocal slot ∧ s' = s := by
  obtain ⟨s₁, s₂, hget, h⟩ := run_bind_ok h
  cases hget
  cases hl : s.locals.lookup name.text with
  | none =>
    rw [hl] at h
    cases h
  | some slot =>
    rw [hl] at h
    cases slot <;> cases h <;> exact ⟨_, rfl, rfl, rfl⟩

theorem assign_ok {name : Ident} (h : assign name s = .ok is s') :
    ∃ slot, s.locals.lookup name.text = some slot ∧ is = writeLocal slot ∧ s' = s := by
  obtain ⟨s₁, s₂, hget, h⟩ := run_bind_ok h
  cases hget
  cases hl : s.locals.lookup name.text with
  | none =>
    rw [hl] at h
    cases h
  | some slot =>
    rw [hl] at h
    cases slot <;> cases h <;> exact ⟨_, rfl, rfl, rfl⟩

theorem call_ok {callee : Ident} (h : call env callee s = .ok is s') :
    ∃ d index, s.replay.decl? callee.text = some d ∧ env.functions.idxOf? d.id = some index ∧
      is = [.call index] ∧ s' = s := by
  obtain ⟨s₁, s₂, hget, h⟩ := run_bind_ok h
  cases hget
  cases hd : s.replay.decl? callee.text with
  | none =>
    rw [hd] at h
    cases h
  | some d =>
    rw [hd] at h
    dsimp only at h
    cases hindex : env.functions.idxOf? d.id with
    | none =>
      rw [hindex] at h
      cases h
    | some index =>
      rw [hindex] at h
      cases h
      exact ⟨d, index, rfl, hindex, rfl, rfl⟩

theorem operator_eq {op : BinaryOp} (h : ∀ size, ¬ (op = .rem ∧ arithmetic? t = some (.float size))) :
    operator op t =
      match (arithmetic? t).bind (binaryInstr? op) with
      | none => throw (.binary op t)
      | some i => return i :: if op.isArithmetic || op.isShift then normalize t else [] := by
  unfold operator
  split
  · rename_i size ha
    exact absurd ⟨rfl, ha⟩ (h size)
  · rfl

/-- An operator is one instruction, or the remainder by way of two new locals. -/
theorem operator_ok {op : BinaryOp} (h : operator op t s = .ok is s') :
    (∃ size, op = .rem ∧ arithmetic? t = some (.float size) ∧
        is = floatRemainder size (s.locals.add size.float).1
          ((s.locals.add size.float).2.add size.float).1 ∧
        s' = { s with locals := ((s.locals.add size.float).2.add size.float).2 }) ∨
      ∃ a i, arithmetic? t = some a ∧ binaryInstr? op a = some i ∧
        is = i :: (if op.isArithmetic || op.isShift then normalize t else []) ∧ s' = s := by
  by_cases hrem : ∃ size, op = .rem ∧ arithmetic? t = some (.float size)
  · obtain ⟨size, rfl, ha⟩ := hrem
    unfold operator at h
    rw [ha] at h
    cases h
    exact .inl ⟨size, rfl, ha, rfl, rfl⟩
  · rw [operator_eq fun size hsize => hrem ⟨size, hsize⟩] at h
    cases hb : (arithmetic? t).bind (binaryInstr? op) with
    | none =>
      rw [hb] at h
      cases h
    | some i =>
      rw [hb] at h
      cases h
      obtain ⟨a, ha, hi⟩ := Option.bind_eq_some_iff.mp hb
      exact .inr ⟨a, i, ha, hi, rfl, rfl⟩

/-- The code behind two operands is that of the operator for the first of them that has a value. -/
theorem binary_ok {op : BinaryOp} {lhs rhs : Expr} {l r : Ty} (h : binary env op lhs rhs s = .ok is s')
    (hl : env.types.get? lhs.id = some l) (hr : env.types.get? rhs.id = some r) :
    (Check.operandType l r = .never ∧ is = [] ∧ s' = s) ∨
      Check.operandType l r ≠ .never ∧ operator op (Check.operandType l r) s = .ok is s' := by
  have hrest : ∀ u, (if u = .never then Pure.pure [] else operator op u : Lowering _) s = .ok is s' →
      (u = .never ∧ is = [] ∧ s' = s) ∨ u ≠ .never ∧ operator op u s = .ok is s' := by
    intro u hu
    split at hu
    · rename_i hn
      cases hu
      exact .inl ⟨hn, rfl, rfl⟩
    · rename_i hn
      exact .inr ⟨hn, hu⟩
  obtain ⟨l', s₁, hl', hrun⟩ := run_bind_ok h
  obtain ⟨hlhs, rfl⟩ := typeOf_ok hl'
  rw [hl] at hlhs
  cases hlhs
  unfold Check.operandType
  by_cases hn : l = .never
  · rw [if_pos hn] at hrun ⊢
    obtain ⟨r', s₂, hr', hrun'⟩ := run_bind_ok hrun
    obtain ⟨hrhs, rfl⟩ := typeOf_ok hr'
    rw [hr] at hrhs
    cases hrhs
    exact hrest r hrun'
  · rw [if_neg hn] at hrun ⊢
    exact hrest l hrun

theorem replayed_ok {step : Scope.Replay → Except Scope.Divergence Scope.Replay}
    (h : replayed step s = .ok () s') : ∃ r, step s.replay = .ok r ∧ s' = { s with replay := r } := by
  have hends : Ends (replayed step) s
      (fun _ s' => ∃ r, step s.replay = .ok r ∧ s' = { s with replay := r }) (fun _ _ => True) := by
    rw [replayed_iff]
    cases step s.replay with
    | ok r => exact ⟨r, rfl, rfl⟩
    | error d => trivial
  exact hends.ok h

theorem enter_ok (h : replayed Scope.Replay.enter s = .ok () s') :
    s.replay.enter = .ok (entered s.replay) ∧ s' = { s with replay := entered s.replay } := by
  obtain ⟨r, hr, rfl⟩ := replayed_ok h
  rcases enter_cases s.replay with ⟨he, -⟩ | ⟨d, he, -⟩
  · rw [he] at hr
    cases hr
    exact ⟨he, rfl⟩
  · rw [he] at hr
    cases hr

theorem inBlock_ok {α : Type} {act : Lowering α} {a : α} (h : inScope (inFrame act) s = .ok a s') :
    s.replay.enter = .ok (entered s.replay) ∧ ∃ s₁, act s.atBlock = .ok a s₁ ∧
      s'.bodies = s₁.bodies ∧ s'.locals = { s₁.locals with frames := s₁.locals.frames.tail } := by
  obtain ⟨_, s₁, henter, h⟩ := run_bind_ok h
  obtain ⟨he, rfl⟩ := enter_ok henter
  obtain ⟨b, s₂, hframe, h⟩ := run_bind_ok h
  obtain ⟨_, s₃, hleave, h⟩ := run_bind_ok h
  cases h
  obtain ⟨r, -, rfl⟩ := replayed_ok hleave
  obtain ⟨_, s₄, hin, hframe⟩ := run_bind_ok hframe
  cases hin
  obtain ⟨c, s₅, hact, hframe⟩ := run_bind_ok hframe
  obtain ⟨_, s₆, hout, hframe⟩ := run_bind_ok hframe
  cases hout
  cases hframe
  exact ⟨he, s₅, hact, rfl, rfl⟩

theorem function_ok {h : Header} {body : Block} (hrun : item env (.function h body) s = .ok () s') :
    s.replay.enter = .ok (entered s.replay) ∧ ∃ code s₁,
      block env body (s.atFunction h) = .ok code s₁ ∧
      s'.bodies = (h.id, ⟨s₁.locals.types, code⟩) :: s₁.bodies ∧ s'.locals = s.locals := by
  rw [item] at hrun
  split at hrun
  · obtain ⟨⟨code, locals⟩, s₁, hlocals, hrun⟩ := run_bind_ok hrun
    cases hrun
    obtain ⟨_, _, hget, hlocals⟩ := run_bind_ok hlocals
    cases hget
    obtain ⟨_, _, hset, hlocals⟩ := run_bind_ok hlocals
    cases hset
    obtain ⟨is, s₂, hscope, hlocals⟩ := run_bind_ok hlocals
    obtain ⟨_, _, hget, hlocals⟩ := run_bind_ok hlocals
    cases hget
    obtain ⟨_, _, hset, hlocals⟩ := run_bind_ok hlocals
    cases hset
    cases hlocals
    obtain ⟨_, s₃, henter, hscope⟩ := run_bind_ok hscope
    obtain ⟨he, rfl⟩ := enter_ok henter
    obtain ⟨b, s₄, hbody, hscope⟩ := run_bind_ok hscope
    obtain ⟨_, s₅, hleave, hscope⟩ := run_bind_ok hscope
    cases hscope
    obtain ⟨r, -, rfl⟩ := replayed_ok hleave
    exact ⟨he, _, s₄, hbody, rfl, rfl⟩
  · cases hrun

end

section

variable {env : Env} {s s' : State} {is : List Instr} {id : NodeId} {span : Span}

theorem expr_literal_ok {value : Literal} (h : expr env (.literal id span value) s = .ok is s') :
    ∃ t i, env.types.get? id = some t ∧ constant value = .ok i ∧ is = sealed t [i] ∧ s' = s := by
  rw [expr] at h
  obtain ⟨t, is₀, ht, hcode, rfl⟩ := typed_ok h
  obtain ⟨i, s₁, hi, hend⟩ := run_bind_ok hcode
  cases hend
  obtain ⟨hconst, rfl⟩ := orFail_ok hi
  exact ⟨t, i, ht, hconst, rfl, rfl⟩

theorem expr_path_ok {name : Ident} (h : expr env (.path id span name) s = .ok is s') :
    ∃ t slot, env.types.get? id = some t ∧ s.locals.lookup name.text = some slot ∧
      is = sealed t (readLocal slot) ∧ s' = s := by
  rw [expr] at h
  obtain ⟨t, is₀, ht, hcode, rfl⟩ := typed_ok h
  obtain ⟨slot, hslot, rfl, rfl⟩ := path_ok hcode
  exact ⟨t, slot, ht, hslot, rfl, rfl⟩

theorem expr_grouped_ok {inner : Expr} (h : expr env (.grouped id span inner) s = .ok is s') :
    ∃ t is₀, env.types.get? id = some t ∧ expr env inner s = .ok is₀ s' ∧ is = sealed t is₀ := by
  rw [expr] at h
  exact typed_ok h

theorem expr_unary_ok {op : UnaryOp} {operand : Expr}
    (h : expr env (.unary id span op operand) s = .ok is s') :
    ∃ t u code, env.types.get? id = some t ∧ env.types.get? operand.id = some u ∧
      expr env operand s = .ok code s' ∧
      (u = .never ∧ is = sealed t code ∨
        u ≠ .never ∧ ∃ before behind, unaryCode? op t = some (before, behind) ∧
          is = sealed t (before ++ code ++ behind ++ normalize t)) := by
  rw [expr] at h
  obtain ⟨t, is₀, ht, hcode, rfl⟩ := typed_ok h
  obtain ⟨u, s₁, hu, hrun⟩ := run_bind_ok hcode
  obtain ⟨hoperand, rfl⟩ := typeOf_ok hu
  split at hrun
  · rename_i hn
    exact ⟨t, u, is₀, ht, hoperand, hrun, .inl ⟨hn, rfl⟩⟩
  · rename_i hn
    obtain ⟨⟨before, behind⟩, s₂, hunary, hrun'⟩ := run_bind_ok hrun
    unfold unaryCode at hunary
    cases hop : unaryCode? op t with
    | none =>
      rw [hop] at hunary
      cases hunary
    | some code =>
      rw [hop] at hunary
      cases hunary
      obtain ⟨is, s₃, hinner, hend⟩ := run_bind_ok hrun'
      cases hend
      exact ⟨t, u, is, ht, hoperand, hinner, .inr ⟨hn, before, behind, hop, rfl⟩⟩

theorem expr_assign_ok {lhs rhs : Expr} (h : expr env (.binary id span .assign lhs rhs) s = .ok is s') :
    ∃ t name value slot, env.types.get? id = some t ∧ lhs.place? = some name ∧
      expr env rhs s = .ok value s' ∧ s'.locals.lookup name.text = some slot ∧
      is = sealed t (value ++ writeLocal slot) := by
  rw [expr] at h
  obtain ⟨t, is₀, ht, hcode, rfl⟩ := typed_ok h
  rw [if_pos rfl] at hcode
  cases hname : lhs.place? with
  | none =>
    rw [hname] at hcode
    cases hcode
  | some name =>
    rw [hname] at hcode
    obtain ⟨value, s₁, hvalue, hrun⟩ := run_bind_ok hcode
    obtain ⟨write, s₂, hassign, hend⟩ := run_bind_ok hrun
    cases hend
    obtain ⟨slot, hslot, rfl, rfl⟩ := assign_ok hassign
    exact ⟨t, name, value, slot, ht, rfl, hvalue, hslot, rfl⟩

theorem expr_binary_ok {op : BinaryOp} {lhs rhs : Expr} (ho : op ≠ .assign)
    (h : expr env (.binary id span op lhs rhs) s = .ok is s') :
    ∃ t l s₁ r s₂ code, env.types.get? id = some t ∧ expr env lhs s = .ok l s₁ ∧
      expr env rhs s₁ = .ok r s₂ ∧ binary env op lhs rhs s₂ = .ok code s' ∧
      is = sealed t (l ++ r ++ code) := by
  rw [expr] at h
  obtain ⟨t, is₀, ht, hcode, rfl⟩ := typed_ok h
  rw [if_neg ho] at hcode
  obtain ⟨l, s₁, hl, hrun⟩ := run_bind_ok hcode
  obtain ⟨r, s₂, hr, hrun'⟩ := run_bind_ok hrun
  obtain ⟨code, s₃, hop, hend⟩ := run_bind_ok hrun'
  cases hend
  exact ⟨t, l, s₁, r, s₂, code, ht, hl, hr, hop, rfl⟩

theorem expr_call_ok {callee : Ident} {args : List Expr}
    (h : expr env (.call id span callee args) s = .ok is s') :
    ∃ t values d index, env.types.get? id = some t ∧ exprs env args s = .ok values s' ∧
      s'.replay.decl? callee.text = some d ∧ env.functions.idxOf? d.id = some index ∧
      is = sealed t (values ++ [.call index]) := by
  rw [expr] at h
  obtain ⟨t, is₀, ht, hcode, rfl⟩ := typed_ok h
  obtain ⟨values, s₁, hvalues, hrun⟩ := run_bind_ok hcode
  obtain ⟨code, s₂, hcall, hend⟩ := run_bind_ok hrun
  cases hend
  obtain ⟨d, index, hd, hindex, rfl, rfl⟩ := call_ok hcall
  exact ⟨t, values, d, index, ht, hvalues, hd, hindex, rfl⟩

theorem expr_ret_none_ok (h : expr env (.ret id span none) s = .ok is s') :
    ∃ t, env.types.get? id = some t ∧ is = sealed t [.ret] ∧ s' = s := by
  rw [expr] at h
  obtain ⟨t, is₀, ht, hcode, rfl⟩ := typed_ok h
  cases hcode
  exact ⟨t, ht, rfl, rfl⟩

theorem expr_ret_some_ok {value : Expr} (h : expr env (.ret id span (some value)) s = .ok is s') :
    ∃ t code, env.types.get? id = some t ∧ expr env value s = .ok code s' ∧
      is = sealed t (code ++ [.ret]) := by
  rw [expr] at h
  obtain ⟨t, is₀, ht, hcode, rfl⟩ := typed_ok h
  obtain ⟨code, s₁, hvalue, hend⟩ := run_bind_ok hcode
  cases hend
  exact ⟨t, code, ht, hvalue, rfl⟩

theorem expr_block_ok {body : Block} (h : expr env (.block id span body) s = .ok is s') :
    ∃ t is₀, env.types.get? id = some t ∧ block env body s = .ok is₀ s' ∧ is = sealed t is₀ := by
  rw [expr] at h
  exact typed_ok h

theorem expr_loop_ok {body : Block} (h : expr env (.loop id span body) s = .ok is s') :
    ∃ t code b v, env.types.get? id = some t ∧ block env body s = .ok code s' ∧
      env.types.get? body.id = some b ∧ valType b = .ok v ∧
      is = sealed t [.loop (code ++ dropCode v ++ [.br 0]), .unreachable] := by
  rw [expr] at h
  obtain ⟨t, is₀, ht, hcode, rfl⟩ := typed_ok h
  obtain ⟨code, s₁, hbody, hrun⟩ := run_bind_ok hcode
  obtain ⟨drop, s₂, hdrop, hend⟩ := run_bind_ok hrun
  cases hend
  obtain ⟨b, v, hb, hv, rfl, rfl⟩ := dropValue_ok hdrop
  exact ⟨t, code, b, v, ht, hbody, hb, hv, rfl⟩

theorem expr_while_ok {c : Expr} {body : Block} (h : expr env (.while id span c body) s = .ok is s') :
    ∃ t test s₁ code b v, env.types.get? id = some t ∧ expr env c s = .ok test s₁ ∧
      block env body s₁ = .ok code s' ∧ env.types.get? body.id = some b ∧ valType b = .ok v ∧
      is = sealed t [.block [.loop (test ++ [.i32Eqz, .brIf 1] ++ code ++ dropCode v ++ [.br 0])]] := by
  rw [expr] at h
  obtain ⟨t, is₀, ht, hcode, rfl⟩ := typed_ok h
  obtain ⟨test, s₁, htest, hrun⟩ := run_bind_ok hcode
  obtain ⟨code, s₂, hbody, hrun'⟩ := run_bind_ok hrun
  obtain ⟨drop, s₃, hdrop, hend⟩ := run_bind_ok hrun'
  cases hend
  obtain ⟨b, v, hb, hv, rfl, rfl⟩ := dropValue_ok hdrop
  exact ⟨t, test, s₁, code, b, v, ht, htest, hbody, hb, hv, rfl⟩

theorem expr_cond_ok {links : Cond} (h : expr env (.cond id span links) s = .ok is s') :
    ∃ t is₀, env.types.get? id = some t ∧ cond env links t s = .ok is₀ s' ∧ is = sealed t is₀ := by
  rw [expr] at h
  exact typed_ok h

theorem exprs_cons_ok {e : Expr} {es : List Expr} (h : exprs env (e :: es) s = .ok is s') :
    ∃ first s₁ rest, expr env e s = .ok first s₁ ∧ exprs env es s₁ = .ok rest s' ∧
      is = first ++ rest := by
  rw [exprs] at h
  obtain ⟨first, s₁, hfirst, hrun⟩ := run_bind_ok h
  obtain ⟨rest, s₂, hrest, hend⟩ := run_bind_ok hrun
  cases hend
  exact ⟨first, s₁, rest, hfirst, hrest, rfl⟩

theorem cond_only_ok {c : Expr} {yes : Block} {t : Ty} (h : cond env (.only c yes) t s = .ok is s') :
    ∃ test s₁ code b v, expr env c s = .ok test s₁ ∧ block env yes s₁ = .ok code s' ∧
      env.types.get? yes.id = some b ∧ valType b = .ok v ∧
      is = test ++ [.ifThen (code ++ dropCode v)] := by
  rw [cond] at h
  obtain ⟨test, s₁, htest, hrun⟩ := run_bind_ok h
  obtain ⟨result, s₂, hresult, hrun'⟩ := run_bind_ok hrun
  obtain ⟨-, rfl⟩ := orFail_ok hresult
  obtain ⟨code, s₃, hyes, hrun''⟩ := run_bind_ok hrun'
  obtain ⟨drop, s₄, hdrop, hend⟩ := run_bind_ok hrun''
  cases hend
  obtain ⟨b, v, hb, hv, rfl, rfl⟩ := dropValue_ok hdrop
  exact ⟨test, _, code, b, v, htest, hyes, hb, hv, rfl⟩

theorem cond_orElse_ok {c : Expr} {yes no : Block} {t : Ty}
    (h : cond env (.orElse c yes no) t s = .ok is s') :
    ∃ test s₁ result code s₂ code', expr env c s = .ok test s₁ ∧ valType t = .ok result ∧
      block env yes s₁ = .ok code s₂ ∧ block env no s₂ = .ok code' s' ∧
      is = test ++ [.ifElse result code code'] := by
  rw [cond] at h
  obtain ⟨test, s₁, htest, hrun⟩ := run_bind_ok h
  obtain ⟨result, s₂, hresult, hrun'⟩ := run_bind_ok hrun
  obtain ⟨hvalue, rfl⟩ := orFail_ok hresult
  obtain ⟨code, s₃, hyes, hrun''⟩ := run_bind_ok hrun'
  obtain ⟨code', s₄, hno, hend⟩ := run_bind_ok hrun''
  cases hend
  exact ⟨test, _, result, code, s₃, code', htest, hvalue, hyes, hno, rfl⟩

theorem cond_orIf_ok {c : Expr} {yes : Block} {no : Cond} {t : Ty}
    (h : cond env (.orIf c yes no) t s = .ok is s') :
    ∃ test s₁ result code s₂ code', expr env c s = .ok test s₁ ∧ valType t = .ok result ∧
      block env yes s₁ = .ok code s₂ ∧ cond env no t s₂ = .ok code' s' ∧
      is = test ++ [.ifElse result code code'] := by
  rw [cond] at h
  obtain ⟨test, s₁, htest, hrun⟩ := run_bind_ok h
  obtain ⟨result, s₂, hresult, hrun'⟩ := run_bind_ok hrun
  obtain ⟨hvalue, rfl⟩ := orFail_ok hresult
  obtain ⟨code, s₃, hyes, hrun''⟩ := run_bind_ok hrun'
  obtain ⟨code', s₄, hno, hend⟩ := run_bind_ok hrun''
  cases hend
  exact ⟨test, _, result, code, s₃, code', htest, hvalue, hyes, hno, rfl⟩

theorem block_none_ok {items : List Item} {ss : List Stmt}
    (h : block env (.mk id span items ss none) s = .ok is s') :
    s.replay.enter = .ok (entered s.replay) ∧ ∃ s₁ s₂, Lower.items env items s.atBlock = .ok () s₁ ∧
      stmts env ss s₁ = .ok is s₂ ∧ s'.bodies = s₂.bodies ∧
      s'.locals = { s₂.locals with frames := s₂.locals.frames.tail } := by
  rw [block] at h
  obtain ⟨he, s₂, hact, hbodies, hlocals⟩ := inBlock_ok h
  obtain ⟨_, s₁, hitems, hstmts⟩ := run_bind_ok hact
  exact ⟨he, s₁, s₂, hitems, hstmts, hbodies, hlocals⟩

theorem block_some_ok {items : List Item} {ss : List Stmt} {e : Expr}
    (h : block env (.mk id span items ss (some e)) s = .ok is s') :
    s.replay.enter = .ok (entered s.replay) ∧ ∃ s₁ code s₂ last s₃,
      Lower.items env items s.atBlock = .ok () s₁ ∧ stmts env ss s₁ = .ok code s₂ ∧
      expr env e s₂ = .ok last s₃ ∧ is = code ++ last ∧ s'.bodies = s₃.bodies ∧
      s'.locals = { s₃.locals with frames := s₃.locals.frames.tail } := by
  rw [block] at h
  obtain ⟨he, s₃, hact, hbodies, hlocals⟩ := inBlock_ok h
  obtain ⟨_, s₁, hitems, hrun⟩ := run_bind_ok hact
  obtain ⟨code, s₂, hstmts, hrun'⟩ := run_bind_ok hrun
  obtain ⟨last, s₄, hlast, hend⟩ := run_bind_ok hrun'
  cases hend
  exact ⟨he, s₁, code, s₂, last, s₃, hitems, hstmts, hlast, rfl, hbodies, hlocals⟩

theorem stmts_cons_ok {stmt : Stmt} {ss : List Stmt} (h : stmts env (stmt :: ss) s = .ok is s') :
    ∃ first s₁ rest, Lower.stmt env stmt s = .ok first s₁ ∧ stmts env ss s₁ = .ok rest s' ∧
      is = first ++ rest := by
  rw [stmts] at h
  obtain ⟨first, s₁, hfirst, hrun⟩ := run_bind_ok h
  obtain ⟨rest, s₂, hrest, hend⟩ := run_bind_ok hrun
  cases hend
  exact ⟨first, s₁, rest, hfirst, hrest, rfl⟩

theorem stmt_bind_ok {name : Ident} {declared : Option Ty} {init : Expr}
    (h : stmt env (.bind id span name declared init) s = .ok is s') :
    ∃ value s₁ code, expr env init s = .ok value s₁ ∧ binding env id name s₁ = .ok code s' ∧
      is = value ++ code := by
  rw [stmt] at h
  obtain ⟨value, s₁, hvalue, hrun⟩ := run_bind_ok h
  obtain ⟨code, s₂, hcode, hend⟩ := run_bind_ok hrun
  cases hend
  exact ⟨value, s₁, code, hvalue, hcode, rfl⟩

theorem stmt_expr_ok {e : Expr} {semi : Bool} (h : stmt env (.expr span e semi) s = .ok is s') :
    ∃ code t v, expr env e s = .ok code s' ∧ env.types.get? e.id = some t ∧ valType t = .ok v ∧
      is = code ++ dropCode v := by
  rw [stmt] at h
  obtain ⟨code, s₁, hcode, hrun⟩ := run_bind_ok h
  obtain ⟨drop, s₂, hdrop, hend⟩ := run_bind_ok hrun
  cases hend
  obtain ⟨t, v, ht, hv, rfl, rfl⟩ := dropValue_ok hdrop
  exact ⟨code, t, v, hcode, ht, hv, rfl⟩

theorem items_cons_ok {i : Item} {items : List Item} (h : Lower.items env (i :: items) s = .ok () s') :
    ∃ s₁, item env i s = .ok () s₁ ∧ Lower.items env items s₁ = .ok () s' := by
  rw [Lower.items] at h
  obtain ⟨_, s₁, hfirst, hrest⟩ := run_bind_ok h
  exact ⟨s₁, hfirst, hrest⟩

end
end Ferrite.Lower
