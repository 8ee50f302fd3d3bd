import Ferrite.Proofs.Lower.Accepted
import Ferrite.Proofs.Lower.Computes
import Ferrite.Proofs.Lower.Effect
import Ferrite.Proofs.Tree.Parts

/-!
The code of expressions over integers and truth values computes what they are worth, wherever the
names in them stand for locals that hold their values.
-/

namespace Ferrite
namespace Lower
open Wasm (Value Instr)

/-- What checking says of an expression: its type is noted, and goes with those of its parts. -/
def Ruled (types : TypeTable) (headers : List Header) (e : Expr) : Prop :=
  ∃ owner scopes t, types.get? e.id = some t ∧ Check.ExprRule types headers owner scopes e t

/-- The names in an expression stand for locals, each of which holds the value of the name. -/
def Reads (types : TypeTable) (frames : Locals) (values : String → Int) (locals : List Value) (e : Expr) :
    Prop :=
  ∀ id span name, .expr (.path id span name) ∈ e.nodes → ∃ f index, types.form? id = some f ∧
    f.Has (values name.text) ∧ frames.lookup name.text = some (some index) ∧
      locals[index]? = some (f.stored (values name.text))

section

variable {env : Env} {τ τ' : State} {id : NodeId} {t : Ty} {f : Form} {is : List Instr}

theorem ne_never_of_form (hf : t.form? = some f) : t ≠ .never := by
  rintro rfl
  cases hf

theorem run_typeOf (ht : env.types.get? id = some t) : env.typeOf id τ = .ok t τ := by
  rw [Env.typeOf, ht]
  rfl

theorem run_bind {α β : Type} {act : Lowering α} {g : α → Lowering β} {a : α} (h : act τ = .ok a τ') :
    (act >>= g) τ = g a τ' := by
  simp only [bind, EStateM.bind, h]

theorem run_typed {code : Ty → Lowering (List Instr)} (ht : env.types.get? id = some t)
    (hf : t.form? = some f) (h : code t τ = .ok is τ') : typed env id code τ = .ok is τ' := by
  rw [typed, run_bind (run_typeOf ht), run_bind h, if_neg (ne_never_of_form hf)]
  rfl

theorem run_path {name : Ident} {index : Nat} (h : τ.locals.lookup name.text = some (some index)) :
    path name τ = .ok [.localGet index] τ := by
  have hget : (get : Lowering State) τ = .ok τ τ := rfl
  rw [path, run_bind hget, h]
  rfl

theorem exists_instr {op : BinaryOp} (hf : t.form? = some f) (ho : op ≠ .assign)
    (hop : op.accepts t = true) : ∃ i, (arithmetic? t).bind (binaryInstr? op) = some i := by
  have ha := arithmetic?_of_form hf
  rw [ha, Option.bind_some]
  refine Option.isSome_iff_exists.mp (binaryInstr?_isSome ha hop ho ?_)
  rintro size ⟨-, h⟩
  cases h

theorem run_binary {op : BinaryOp} {lhs rhs : Expr} {i : Instr} (ht : env.types.get? lhs.id = some t)
    (hf : t.form? = some f) (hi : (arithmetic? t).bind (binaryInstr? op) = some i) :
    binary env op lhs rhs τ = .ok (i :: if op.isArithmetic || op.isShift then normalize t else []) τ := by
  have hnever := ne_never_of_form hf
  have hrem : ∀ size, ¬ (op = .rem ∧ arithmetic? t = some (.float size)) := by
    rintro size ⟨-, h⟩
    rw [arithmetic?_of_form hf] at h
    cases h
  rw [binary, run_bind (run_typeOf ht), if_neg hnever]
  show (if t = .never then pure [] else operator op t : Lowering _) τ = _
  rw [if_neg hnever, operator_eq hrem, hi]
  rfl

end

variable {env : Env} {headers : List Header} {τ : State} {values : String → Int} {locals : List Value}

/-- Operands with values of some form have the same type, and the operator accepts it. -/
theorem form_of_operates {op : BinaryOp} {l r t : Ty} {f g : Form} (h : Check.Operates op l r t)
    (hl : l.form? = some f) (hr : r.form? = some g) :
    op.accepts l = true ∧ g = f ∧ t.form? = some (op.form f) := by
  have hnl := ne_never_of_form hl
  have hnr := ne_never_of_form hr
  have hoperand : Check.operandType l r = l := if_neg hnl
  have halike := (h.operands.resolve_left hnl).resolve_left hnr
  have hsupported : l.isUnsupported = false := by
    cases l <;> first | rfl | cases hl
  obtain rfl := Ty.eq_of_alike halike (.inl hsupported)
  cases hl.symm.trans hr
  refine ⟨?_, rfl, ?_⟩
  · have haccepts := h.accepts
    rw [hoperand] at haccepts
    exact haccepts.resolve_left hnl
  · rw [h.type, hoperand, BinaryOp.form]
    split
    · rfl
    · exact hl

theorem Reads.mono {types : TypeTable} {frames : Locals} {e x : Expr} (h : Reads types frames values locals e)
    (hx : x.nodes ⊆ e.nodes) : Reads types frames values locals x :=
  fun id span name hmem => h id span name (hx hmem)

/-- A name with a value of some form has a local. -/
theorem exists_index {types : List Wasm.ValType} {t : Ty} {f : Form} {slot : Option Nat}
    (hf : t.form? = some f) (h : Fits types t slot) : ∃ index, slot = some index := by
  cases slot with
  | some index => exact ⟨index, rfl⟩
  | none => cases t <;> first | cases hf; done | cases h

/-- The code of a whole expression, where its names stand for locals with their values. -/
theorem expr_computes : ∀ e : Expr, (∀ x, .expr x ∈ e.nodes → Ruled env.types headers x) →
    e.isWhole env.types = true → Reads env.types τ.locals values locals e →
    ∃ is f, env.types.form? e.id = some f ∧ expr env e τ = .ok is τ ∧
      Computes locals is f (e.worth env.types values)
  | .literal id span value, hrules, hw, hr => by
    obtain ⟨owner, scopes, t, ht, hrule⟩ := hrules _ List.mem_cons_self
    obtain ⟨n, hn⟩ := Option.isSome_iff_exists.mp hw
    obtain ⟨f, hf, -⟩ := value.has_worth hn
    obtain ⟨i, hi⟩ := exists_constant hn
    rw [← hrule] at hf
    have hcode : orFail (constant value) τ = .ok i τ := by rw [hi]; rfl
    refine ⟨[i], f, (TypeTable.form?_eq ht).trans hf, ?_, ?_⟩
    · rw [expr]
      exact run_typed ht hf (run_bind hcode)
    · rw [Expr.worth, hn]
      exact .constant hi hn (hrule ▸ hf)
  | .path id span name, hrules, hw, hr => by
    obtain ⟨owner, scopes, t, ht, hrule⟩ := hrules _ List.mem_cons_self
    obtain ⟨f, index, hf, hhas, hindex, hlocal⟩ := hr id span name List.mem_cons_self
    refine ⟨[.localGet index], f, hf, ?_, .localGet hlocal hhas⟩
    rw [expr]
    exact run_typed ht ((TypeTable.form?_eq ht).symm.trans hf) (run_path hindex)
  | .grouped id span inner, hrules, hw, hr => by
    obtain ⟨owner, scopes, t, ht, hrule⟩ := hrules _ List.mem_cons_self
    have hsub : inner.nodes ⊆ (Expr.grouped id span inner).nodes := List.subset_cons_self _ _
    obtain ⟨is, f, hf, hrun, hcomputes⟩ :=
      expr_computes inner (fun x hx => hrules x (hsub hx)) hw (hr.mono hsub)
    have hform : t.form? = some f := (TypeTable.form?_eq hrule).symm.trans hf
    refine ⟨is, f, (TypeTable.form?_eq ht).trans hform, ?_, hcomputes⟩
    rw [expr]
    exact run_typed ht hform hrun
  | .unary id span op operand, hrules, hw, hr => by
    obtain ⟨owner, scopes, t, ht, hoperand, haccepts⟩ := hrules _ List.mem_cons_self
    have hsub : operand.nodes ⊆ (Expr.unary id span op operand).nodes := List.subset_cons_self _ _
    obtain ⟨is, f, hf, hrun, hcomputes⟩ :=
      expr_computes operand (fun x hx => hrules x (hsub hx)) hw (hr.mono hsub)
    have hform : t.form? = some f := (TypeTable.form?_eq hoperand).symm.trans hf
    have hop := haccepts.resolve_left (ne_never_of_form hform)
    obtain ⟨⟨before, behind⟩, hcode⟩ := Option.isSome_iff_exists.mp (unaryCode?_isSome hop)
    refine ⟨before ++ is ++ behind ++ normalize t, f, (TypeTable.form?_eq ht).trans hform, ?_, ?_⟩
    · rw [expr]
      refine run_typed ht hform ?_
      have hunary : unaryCode op t τ = .ok (before, behind) τ := by rw [unaryCode, hcode]; rfl
      rw [run_bind (run_typeOf hoperand), if_neg (ne_never_of_form hform), run_bind hunary]
      exact run_bind hrun
    · have hworth : (Expr.unary id span op operand).worth env.types values =
          (do return op.worth f (← operand.worth env.types values)) := by
        rw [Expr.worth, hf]
        rfl
      rw [hworth]
      exact hcomputes.unary hform hop hcode
  | .binary id span op lhs rhs, hrules, hw, hr => by
    obtain ⟨owner, scopes, t, ht, l, r, hlhs, hrhs, hrule⟩ := hrules _ List.mem_cons_self
    rw [Expr.isWhole, Bool.and_eq_true, Bool.and_eq_true, decide_eq_true_eq] at hw
    obtain ⟨⟨ho, hwl⟩, hwr⟩ := hw
    rw [if_neg ho] at hrule
    have hsubl : lhs.nodes ⊆ (Expr.binary id span op lhs rhs).nodes :=
      List.subset_cons_of_subset _ (List.subset_append_left _ _)
    have hsubr : rhs.nodes ⊆ (Expr.binary id span op lhs rhs).nodes :=
      List.subset_cons_of_subset _ (List.subset_append_right _ _)
    obtain ⟨is, f, hf, hrunl, hl⟩ := expr_computes lhs (fun x hx => hrules x (hsubl hx)) hwl (hr.mono hsubl)
    obtain ⟨js, g, hg, hrunr, hr⟩ := expr_computes rhs (fun x hx => hrules x (hsubr hx)) hwr (hr.mono hsubr)
    have hform : l.form? = some f := (TypeTable.form?_eq hlhs).symm.trans hf
    obtain ⟨hop, rfl, ht'⟩ := form_of_operates hrule hform ((TypeTable.form?_eq hrhs).symm.trans hg)
    obtain ⟨i, hi⟩ := exists_instr hform ho hop
    refine ⟨is ++ js ++ (i :: if op.isArithmetic || op.isShift then normalize l else []), op.form g,
      (TypeTable.form?_eq ht).trans ht', ?_, ?_⟩
    · rw [expr]
      refine run_typed ht ht' ?_
      rw [if_neg ho, run_bind hrunl, run_bind hrunr, run_bind (run_binary hlhs hform hi)]
      rfl
    · have hworth : (Expr.binary id span op lhs rhs).worth env.types values =
          (do op.worth g (← lhs.worth env.types values) (← rhs.worth env.types values)) := by
        rw [Expr.worth, hf]
        rfl
      rw [hworth]
      exact hl.binary hr hform ho hop hi
  | .call .., _, hw, _ | .ret .., _, hw, _ | .block .., _, hw, _ | .loop .., _, hw, _
  | .while .., _, hw, _ | .cond .., _, hw, _ => by cases hw

/-- The code of an expression, which is made without any change, computes what it is worth. -/
def CodeComputes (env : Env) (τ : State) (values : String → Int) (locals : List Value) (e : Expr)
    (is : List Instr) : Prop :=
  ∃ f, env.types.form? e.id = some f ∧ expr env e τ = .ok is τ ∧
    Computes locals is f (e.worth env.types values)

/-- The locals that names in sight stand for hold the values of the names. -/
def Stores (scopes : Scope.Stack) (frames : Locals) (values : String → Int) (locals : List Value) : Prop :=
  ∀ name t f, scopes.local? name = some t → t.form? = some f → f.Has (values name) ∧
    ∀ index, frames.lookup name = some (some index) → locals[index]? = some (f.stored (values name))

/-- A name with a value of some form is that of a local, the same one in all of the expression. -/
theorem local?_of_path {types : TypeTable} {given : Prop} {owner : Header} :
    ∀ (e : Expr) (target : Bool) (σ : Check.State), σ.scopes.Valid →
      (∀ v ∈ e.visits Check.pass owner target σ, Check.Clean types given headers v) →
      e.isWhole types = true → ∀ id span name, .expr (.path id span name) ∈ e.nodes →
      ∃ t, types.get? id = some t ∧ (t.form?).isSome ∧ σ.scopes.local? name.text = some t
  | .literal .., target, σ, hv, hclean, hw, id, span, name, hmem => by
    rw [Expr.nodes, List.mem_singleton] at hmem
    cases hmem
  | .path id' span' name', target, σ, hv, hclean, hw, id, span, name, hmem => by
    rw [Expr.nodes, List.mem_singleton] at hmem
    cases hmem
    obtain ⟨t, ht, -, hrule⟩ := (hclean _ List.mem_cons_self).expr
    have hform : (t.form?).isSome = true := TypeTable.form?_eq ht ▸ hw
    rcases hrule with hl | ⟨-, d, -, rfl⟩
    · exact ⟨t, ht, hform, hl⟩
    · cases hform
  | .grouped id' span' inner, target, σ, hv, hclean, hw, id, span, name, hmem => by
    rw [Expr.visits, List.forall_mem_cons] at hclean
    rw [Expr.nodes, List.mem_cons] at hmem
    exact local?_of_path inner target σ hv hclean.2 hw id span name (hmem.resolve_left nofun)
  | .unary id' span' op operand, target, σ, hv, hclean, hw, id, span, name, hmem => by
    rw [Expr.visits, List.forall_mem_cons] at hclean
    rw [Expr.nodes, List.mem_cons] at hmem
    exact local?_of_path operand target σ hv hclean.2 hw id span name (hmem.resolve_left nofun)
  | .binary id' span' op lhs rhs, target, σ, hv, hclean, hw, id, span, name, hmem => by
    rw [Expr.visits, List.forall_mem_cons, List.forall_mem_append, Check.pass_left] at hclean
    rw [Expr.nodes, List.mem_cons, List.mem_append] at hmem
    rw [Expr.isWhole, Bool.and_eq_true, Bool.and_eq_true] at hw
    have hgrows := (Check.expr_grows lhs σ).scopes
    rcases hmem.resolve_left nofun with hmem | hmem
    · exact local?_of_path lhs _ σ hv hclean.2.1 hw.1.2 id span name hmem
    · obtain ⟨t, ht, hform, hl⟩ :=
        local?_of_path rhs target _ (hgrows.valid hv) hclean.2.2 hw.2 id span name hmem
      exact ⟨t, ht, hform, (hgrows.local? hv name.text).symm.trans hl⟩
  | .call .., _, _, _, _, hw, _, _, _, _ | .ret .., _, _, _, _, hw, _, _, _, _
  | .block .., _, _, _, _, hw, _, _, _, _ | .loop .., _, _, _, _, hw, _, _, _, _
  | .while .., _, _, _, _, hw, _, _, _, _ | .cond .., _, _, _, _, hw, _, _, _, _ => by cases hw

end Lower

/-- The expressions of a program that are made of integers and truth values. -/
def Program.wholes (p : Program) : List Expr :=
  p.nodes.filterMap fun
    | .expr e => if e.isWhole p.env.types then some e else none
    | _ => none

theorem Program.mem_wholes {p : Program} {e : Expr} :
    e ∈ p.wholes ↔ .expr e ∈ p.nodes ∧ e.isWhole p.env.types = true := by
  rw [Program.wholes, List.mem_filterMap]
  constructor
  · rintro ⟨n, hn, hne⟩
    cases n with
    | expr x =>
      dsimp only at hne
      split at hne
      · rename_i hw
        cases hne
        exact ⟨hn, hw⟩
      · cases hne
    | _ => cases hne
  · rintro ⟨hn, hw⟩
    exact ⟨_, hn, if_pos hw⟩

namespace Accepted
open Lower
open Wasm (Value)

variable {tokens : List Token} {p : Program} {m : Wasm.Module} {e : Expr} {values : String → Int}
  {locals : List Value}

theorem ruled (h : Accepted tokens p) (he : .expr e ∈ p.nodes) : Ruled p.env.types p.headers e := by
  rw [← p.map_node_visits Check.pass (Check.start p)] at he
  obtain ⟨⟨node, owner, target, σ⟩, hv, hnode⟩ := List.mem_map.mp he
  cases hnode
  obtain ⟨owner, -, -, t, ht, -, hrule⟩ := h.clean (fun hg : False => hg.elim) _ hv
  exact ⟨owner, σ.scopes, t, ht, hrule⟩

theorem codeComputes (h : Accepted tokens p) (he : e ∈ p.wholes) {τ : State}
    (hr : Reads p.env.types τ.locals values locals e) : ∃ is, CodeComputes p.env τ values locals e is := by
  obtain ⟨hnode, hw⟩ := Program.mem_wholes.mp he
  refine expr_computes e (fun x hx => h.ruled ?_) hw hr
  exact Program.mem_nodes_iff.mpr ((Program.mem_nodes_iff.mp hnode).of_mem (n := .expr e) hx)

/-- In a program with a module, the names in an expression stand for locals of it. -/
theorem reads (h : Accepted tokens p) (hm : generate p (Check.run p).1 = .ok m) {v : JointVisit}
    (hv : v ∈ p.jointVisits) (hnode : v.node = .expr e) (he : e ∈ p.wholes)
    (hs : Stores v.state.1.scopes v.state.2.locals values locals) :
    Reads p.env.types v.state.2.locals values locals e := by
  have hsimulated := h.simulated hm v hv
  obtain ⟨-, hw⟩ := Program.mem_wholes.mp he
  obtain ⟨node, owner, target, σ, τ⟩ := v
  cases hnode
  obtain ⟨owner, -, howner, -⟩ := h.clean_joint (fun hg : False => hg.elim) _ hv
  subst howner
  have hsim := hsimulated.sim owner rfl
  have hclean : ∀ u ∈ e.visits (joint p.env) owner target (σ, τ),
      Check.Clean p.env.types False p.headers u.fst :=
    fun u hu => h.clean_joint (fun hg : False => hg.elim) u (p.closed_visits (joint p.env) p.start _ hv hu)
  rw [← List.forall_mem_map, joint, Expr.map_fst_visits] at hclean
  intro id span name hmem
  obtain ⟨t, ht, hform, hl⟩ := local?_of_path e target σ hsim.valid hclean hw id span name hmem
  obtain ⟨f, hf⟩ := Option.isSome_iff_exists.mp hform
  obtain ⟨k, slot, -, hslot, -, hfits⟩ := hsim.lookup_some hl
  obtain ⟨index, rfl⟩ := exists_index hf (hfits trivial)
  obtain ⟨hhas, hlocal⟩ := hs name.text t f hl hf
  exact ⟨f, index, (TypeTable.form?_eq ht).trans hf, hhas, hslot, hlocal index hslot⟩

end Accepted
namespace Lower

/-- The code of a whole expression computes what it is worth, if the names in it stand for locals
that hold their values. In a module, it is code of the function around it, and the names stand for
locals of that function. -/
theorem whole_computes {tokens : List Token} {p : Program} (h : Accepted tokens p) {e : Expr}
    (he : e ∈ p.wholes) :
    (∀ τ values locals, Reads p.env.types τ.locals values locals e →
        ∃ is, CodeComputes p.env τ values locals e is) ∧
      ∀ m, generate p (Check.run p).1 = .ok m →
        ∀ v ∈ p.jointVisits, v.node = .expr e → v.target = false →
          ∀ values locals, Stores v.state.1.scopes v.state.2.locals values locals →
            ∃ is, CodeComputes p.env v.state.2 values locals e is ∧
              ∃ f c, v.owner = some f ∧ (f, c) ∈ (definitions p).zip m.codes ∧ Within is c.body := by
  refine ⟨fun τ values locals hr => h.codeComputes he hr, ?_⟩
  intro m hm v hv hnode ht values locals hs
  obtain ⟨is, hcomputes⟩ := h.codeComputes he (h.reads hm hv hnode he hs)
  obtain ⟨node, owner, target, σ, τ⟩ := v
  cases hnode
  obtain ⟨f, hf, howner, -⟩ := h.clean_joint (fun hg : False => hg.elim) _ hv
  cases howner
  obtain ⟨js, τ', hmakes, c, hc, hpart⟩ := h.emitted hm hv ht rfl hf
  obtain ⟨form, hform, hrun, hruns⟩ := hcomputes
  cases hrun.symm.trans hmakes
  exact ⟨is, ⟨form, hform, hrun, hruns⟩, f, c, rfl, hc, hpart.body⟩

/-- A quotient of 8 bits wraps, and by zero there is none. -/
theorem whole_computes_quotient :
    ∃ p e τ is, Accepted (Lexer.read 0 "fn f(a: i8, b: i8) -> i8 \x7b a / b + a \x7d").tokens p ∧
      e ∈ p.wholes ∧ expr p.env e τ = .ok is τ ∧
      Wasm.execute is ⟨[.i32 (-128), .i32 (-1)], []⟩ = .ok ⟨[.i32 (-128), .i32 (-1)], [.i32 0]⟩ ∧
      Wasm.execute is ⟨[.i32 (-128), .i32 0], []⟩ = .error .trap := by
  have hview : ((accepted? (Lexer.read 0 "fn f(a: i8, b: i8) -> i8 \x7b a / b + a \x7d").tokens).any fun p =>
      p.wholes.any fun e =>
        e.worth p.env.types (fun name => if name = "a" then -128 else -1) = some 0 &&
        e.worth p.env.types (fun name => if name = "a" then -128 else 0) = none &&
        p.env.types.form? e.id = some IntTy.i8.form &&
        e.nodes.all fun n => n.id?.bind p.env.types.form? = some IntTy.i8.form &&
          (n.leaf? = none || n.leaf? = some "a" || n.leaf? = some "b")) = true := by
    cbv
  obtain ⟨p, hp, hwholes⟩ := (Option.any_eq_true _ _).mp hview
  obtain ⟨e, he, hvalues⟩ := List.any_eq_true.mp hwholes
  simp only [Bool.and_eq_true, Bool.or_eq_true, decide_eq_true_eq, List.all_eq_true] at hvalues
  obtain ⟨⟨⟨hwraps, htraps⟩, hform⟩, hnodes⟩ := hvalues
  have h := accepted?_eq_some.mp hp
  have hleast : IntTy.i8.form.Has (-128) := by decide
  obtain ⟨τ, hτ⟩ : ∃ τ : State, τ.locals = ⟨2, [], [[("b", some 1), ("a", some 0)]]⟩ :=
    ⟨{ p.start.2 with locals := _ }, rfl⟩
  have hreads : ∀ b, IntTy.i8.form.Has b →
      Reads p.env.types τ.locals (fun name => if name = "a" then -128 else b)
        [IntTy.i8.form.stored (-128), IntTy.i8.form.stored b] e := by
    intro b hb id span name hpath
    obtain ⟨hi8, (hleaf | hleaf) | hleaf⟩ := hnodes _ hpath
    · cases hleaf
    · have hname : name.text = "a" := Option.some_inj.mp hleaf
      rw [hτ, hname]
      exact ⟨IntTy.i8.form, 0, hi8, hleast, rfl, rfl⟩
    · have hname : name.text = "b" := Option.some_inj.mp hleaf
      rw [hτ, hname]
      exact ⟨IntTy.i8.form, 1, hi8, hb, rfl, rfl⟩
  obtain ⟨is, f, hf, hrun, hcode⟩ := (whole_computes h he).1 τ _ _ (hreads (-1) (by decide))
  obtain ⟨js, g, hg, hrun', hcode'⟩ := (whole_computes h he).1 τ _ _ (hreads 0 (by decide))
  cases hrun.symm.trans hrun'
  cases hform.symm.trans hf
  cases hform.symm.trans hg
  rw [hwraps] at hcode
  rw [htraps] at hcode'
  exact ⟨p, e, τ, is, h, he, hrun, hcode.runs [], hcode'.runs []⟩

end Lower
end Ferrite
