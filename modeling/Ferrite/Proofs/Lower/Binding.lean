import Ferrite.Lexer.Stream
import Ferrite.Proofs.Lower.Accepted

/-!
What the names in the code of a program stand for: where checking found a function, the code calls
that function, and where it found a local, the code reads or writes the one that was allocated for
its parameter or `let` statement.
-/

namespace Ferrite
open Lower

namespace Program

/-- The local that a name stands for in a function: the one of the declaration in the frame in which
checking finds the name. There is none where the name's type has no values. -/
def Stands (p : Program) (f : Header) (c : Check.State) (name : Ident) (slot : Option Nat) : Prop :=
  ∃ k t, c.scopes.binding? name.text = some (k, t) ∧ ⟨f.id, k, name.text, slot⟩ ∈ p.declarations ∧
    (slot = none ↔ valType t = .ok none)

/-- The instructions are part of the code of the function. -/
def InCode (p : Program) (m : Wasm.Module) (f : Header) (is : List Wasm.Instr) : Prop :=
  ∃ c, (f, c) ∈ (definitions p).zip m.codes ∧ Within is c.body

/-- The names that a node uses or declares by itself have the code that they should. Assignments and
calls look their names up behind their operands. -/
def Resolves (p : Program) (m : Wasm.Module) (v : JointVisit) : Prop :=
  match v.node, v.owner with
  | .expr (.path id span name), some f => ∃ t slot, p.env.types.get? id = some t ∧
      p.Stands f v.state.1 name slot ∧
      Lower.expr p.env (.path id span name) v.state.2 = .ok (sealed t (readLocal slot)) v.state.2 ∧
      p.InCode m f (sealed t (readLocal slot))
  | .expr (.binary id span .assign lhs rhs), some f => ∃ t name slot value s,
      p.env.types.get? id = some t ∧ lhs.place? = some name ∧
      p.Stands f (Check.after (Check.expr rhs) (Check.after (Check.expr lhs) v.state.1)) name slot ∧
      Lower.expr p.env rhs v.state.2 = .ok value s ∧
      Lower.expr p.env (.binary id span .assign lhs rhs) v.state.2 =
        .ok (sealed t (value ++ writeLocal slot)) s ∧
      p.InCode m f (sealed t (value ++ writeLocal slot))
  | .expr (.call id span callee args), some f => ∃ t d index values s,
      p.env.types.get? id = some t ∧
      (Check.after (Check.exprs args) v.state.1).scopes.decl? callee.text = some d ∧
      ((Lower.headers p).map Header.id)[index]? = some d.id ∧
      Lower.exprs p.env args v.state.2 = .ok values s ∧
      Lower.expr p.env (.call id span callee args) v.state.2 = .ok (sealed t (values ++ [.call index])) s ∧
      p.InCode m f (sealed t (values ++ [.call index]))
  | .stmt (.bind id span name declared init), some f => ∃ k slot value s s',
      v.state.1.scopes.opened.head? = some k ∧ ⟨f.id, k, name.text, slot⟩ ∈ p.declarations ∧
      Lower.expr p.env init v.state.2 = .ok value s ∧
      Lower.stmt p.env (.bind id span name declared init) v.state.2 = .ok (value ++ writeLocal slot) s' ∧
      p.InCode m f (value ++ writeLocal slot)
  | _, _ => True

end Program

namespace Accepted

variable {tokens : List Token} {p : Program} {m : Wasm.Module} {owner : Option Header} {c : Check.State}
  {s : State}

/-- A local that checking finds has the index that lowering has for it. -/
theorem stands {f : Header} {name : Ident} {t : Ty} {slot : Option Nat}
    (hs : Sim (p.setting True) f c s) (hl : c.scopes.local? name.text = some t)
    (hslot : s.locals.lookup name.text = some slot) : p.Stands f c name slot := by
  obtain ⟨k, slot', hb, hslot', hdeclared, hfits⟩ := hs.lookup_some hl
  rw [hslot] at hslot'
  cases hslot'
  refine ⟨k, t, hb, hdeclared, ?_⟩
  cases slot with
  | none => exact iff_of_true rfl (hfits trivial)
  | some i =>
    obtain ⟨v, hv, -⟩ := hfits trivial
    refine iff_of_false (fun hn => by cases hn) fun hn => ?_
    rw [hv] at hn
    cases hn

theorem path_resolves (h : Accepted tokens p) (hm : generate p (Check.run p).1 = .ok m) {id : NodeId}
    {span : Span} {name : Ident} (hv : ⟨.expr (.path id span name), owner, false, (c, s)⟩ ∈ p.jointVisits) :
    p.Resolves m ⟨.expr (.path id span name), owner, false, (c, s)⟩ := by
  obtain ⟨f, hf, howner, t, ht, -, hrule⟩ := h.clean_joint (fun hg : False => hg.elim) _ hv
  obtain ⟨is, s', hmakes, code, hcode, hpart⟩ := h.emitted hm hv rfl howner hf
  have hs := (h.simulated hm _ hv).sim f howner
  obtain ⟨t', slot, ht', hslot, rfl, rfl⟩ := expr_path_ok hmakes
  cases howner
  cases ht.symm.trans ht'
  refine ⟨t, slot, ht, ?_, hmakes, code, hcode, hpart.body⟩
  rcases hrule with hl | ⟨hl, -⟩
  · exact stands hs hl hslot
  · rw [hs.lookup_none hl] at hslot
    cases hslot

theorem assign_resolves (h : Accepted tokens p) (hm : generate p (Check.run p).1 = .ok m) {id : NodeId}
    {span : Span} {lhs rhs : Expr}
    (hv : ⟨.expr (.binary id span .assign lhs rhs), owner, false, (c, s)⟩ ∈ p.jointVisits) :
    p.Resolves m ⟨.expr (.binary id span .assign lhs rhs), owner, false, (c, s)⟩ := by
  obtain ⟨f, hf, howner, t, ht, -, l, r, -, -, hrule⟩ :=
    h.clean_joint (fun hg : False => hg.elim) _ hv
  obtain ⟨is, s', hmakes, code, hcode, hpart⟩ := h.emitted hm hv rfl howner hf
  have hs := (h.simulated hm _ hv).sim f howner
  obtain ⟨t', name, value, slot, ht', hname, hvalue, hslot, rfl⟩ := expr_assign_ok hmakes
  cases howner
  cases ht.symm.trans ht'
  rw [if_pos rfl] at hrule
  obtain ⟨⟨name', hname', hl⟩, -⟩ := hrule
  cases hname.symm.trans hname'
  have hgl := Check.expr_grows lhs c
  have hgr := Check.expr_grows rhs (Check.after (Check.expr lhs) c)
  rw [lhs.scopes_of_place? name hname] at hgl
  have hs₁ := hs.past hgl (.refl false s)
  have hs₂ := hs₁.past hgr ((expr_lowers p.env rhs s).ok hvalue)
  have hlocal : c.scopes.local? name.text = some l := hl
  rw [← hgl.scopes.local? hs.valid, ← hgr.scopes.local? hs₁.valid] at hlocal
  exact ⟨t, name, slot, value, s', ht, hname, stands hs₂ hlocal hslot, hvalue, hmakes, code, hcode,
    hpart.body⟩

theorem call_resolves (h : Accepted tokens p) (hm : generate p (Check.run p).1 = .ok m) {id : NodeId}
    {span : Span} {callee : Ident} {args : List Expr}
    (hv : ⟨.expr (.call id span callee args), owner, false, (c, s)⟩ ∈ p.jointVisits) :
    p.Resolves m ⟨.expr (.call id span callee args), owner, false, (c, s)⟩ := by
  obtain ⟨f, hf, howner, t, ht, -, -, d, -, hdecl, -⟩ :=
    h.clean_joint (fun hg : False => hg.elim) _ hv
  obtain ⟨is, s', hmakes, code, hcode, hpart⟩ := h.emitted hm hv rfl howner hf
  have hsimulated := h.simulated hm _ hv
  obtain ⟨t', values, d', index, ht', hvalues, hd', hindex, rfl⟩ := expr_call_ok hmakes
  cases howner
  cases ht.symm.trans ht'
  have hreplay := ((exprs_lowers p.env args s).ok hvalues).replay
  have hfound : s'.replay.decl? callee.text = c.scopes.decl? callee.text := by
    rw [← hsimulated.beside.decl? hsimulated.complete, Scope.Replay.decl?, Scope.Replay.decl?,
      Scope.Replay.frames, Scope.Replay.frames, hreplay.record, hreplay.opened]
  rw [hd'] at hfound
  obtain ⟨hlt, heq, -⟩ := List.idxOf?_eq_some_iff.mp hindex
  refine ⟨t, d', index, values, s', ht, ?_, List.getElem?_eq_some_iff.mpr ⟨hlt, heq⟩, hvalues, hmakes,
    code, hcode, hpart.body⟩
  rw [(Check.exprs_grows args c).scopes.decl? hsimulated.beside.valid]
  exact hfound.symm

theorem bind_resolves (h : Accepted tokens p) (hm : generate p (Check.run p).1 = .ok m) {id : NodeId}
    {span : Span} {name : Ident} {declared : Option Ty} {init : Expr}
    (hv : ⟨.stmt (.bind id span name declared init), owner, false, (c, s)⟩ ∈ p.jointVisits) :
    p.Resolves m ⟨.stmt (.bind id span name declared init), owner, false, (c, s)⟩ := by
  obtain ⟨f, hf, howner, t, ht, -⟩ := h.clean_joint (fun hg : False => hg.elim) _ hv
  obtain ⟨is, s', hmakes, code, hcode, hpart⟩ := h.emitted hm hv rfl howner hf
  have hs := (h.simulated hm _ hv).sim f howner
  obtain ⟨value, s₁, write, hvalue, hwrite, rfl⟩ := stmt_bind_ok hmakes
  cases howner
  obtain ⟨k, top, htop⟩ := hs.valid.top hs.opened_cons
  have hdeclared : ⟨f.id, k, name.text, (s'.locals.lookup name.text).join⟩ ∈ p.declarations := by
    refine List.mem_flatMap.mpr ⟨_, hv, ?_⟩
    simp only [declarations, htop.opened, Option.getD_some, after_ok hmakes]
    exact List.mem_singleton.mpr rfl
  have hs₁ := hs.past (Check.expr_grows init c) ((expr_lowers p.env init s).ok hvalue)
  refine ⟨k, _, value, s₁, s', htop.opened, hdeclared, hvalue, ?_⟩
  have hwritten : write = writeLocal (s'.locals.lookup name.text).join := by
    rcases binding_ok hwrite ht with ⟨v, -, rfl, rfl⟩ | ⟨-, rfl, rfl⟩
    · have hm : Mirrors ((p.setting True).Bound f s₁.locals.types)
          (Check.after (Check.expr init) c).scopes.numbered (s₁.locals.add v).2.frames := hs₁.mirrors
      rw [hm.lookup_declare]
      rfl
    · rw [hs₁.mirrors.lookup_declare]
      rfl
  rw [← hwritten]
  exact ⟨hmakes, code, hcode, hpart.body⟩

end Accepted

namespace Lower

/-- In a program with a module, every name stands for what checking found for it. A declaration is
known by its frame and its name, a function by its number; no two of a function's names share a
local. -/
theorem generate_resolves_names {tokens : List Token} {p : Program} {m : Wasm.Module}
    (h : Accepted tokens p) (hm : generate p (Check.run p).1 = .ok m) :
    (p.declarations.map Declaration.key).Nodup ∧ (p.declarations.filterMap Declaration.place).Nodup ∧
      ((headers p).map Header.id).Nodup ∧ ∀ v ∈ p.jointVisits, v.target = false → p.Resolves m v := by
  obtain ⟨hkeys, hplaces⟩ := h.distinct hm
  refine ⟨hkeys, hplaces, h.nodup_headers, ?_⟩
  rintro ⟨node, owner, target, c, s⟩ hv rfl
  cases node with
  | expr e =>
    cases e with
    | path id span name => exact h.path_resolves hm hv
    | binary id span op lhs rhs =>
      cases op with
      | assign => exact h.assign_resolves hm hv
      | _ => trivial
    | call id span callee args => exact h.call_resolves hm hv
    | _ => trivial
  | stmt stmt =>
    cases stmt with
    | bind id span name declared init => exact h.bind_resolves hm hv
    | expr => trivial
  | _ => trivial

/-- An inner `a` has a local of its own. -/
theorem generate_resolves_names_shadowed :
    ∃ p m, Accepted (Lexer.read 0 "fn f(a: i32) -> i32 \x7b let a = a; a \x7d").tokens p ∧
      p.declarations = [⟨0, 1, "a", some 0⟩, ⟨0, 2, "a", some 1⟩] ∧
      m.codes.map Wasm.Code.body = [[.localGet 0, .localSet 1, .localGet 1]] ∧
      ∀ v ∈ p.jointVisits, v.target = false → p.Resolves m v := by
  have hmodule : ((accepted? (Lexer.read 0 "fn f(a: i32) -> i32 \x7b let a = a; a \x7d").tokens).bind
      fun p => (generate p (Check.run p).1).toOption.map fun m =>
        (p.declarations, m.codes.map Wasm.Code.body)) =
      some ([⟨0, 1, "a", some 0⟩, ⟨0, 2, "a", some 1⟩],
        [[.localGet 0, .localSet 1, .localGet 1]]) := by
    cbv
  obtain ⟨p, m, h, hm, hview⟩ := exists_module hmodule
  obtain ⟨hdeclarations, hcodes⟩ := Prod.mk.inj hview
  exact ⟨p, m, h, hdeclarations, hcodes, (generate_resolves_names h hm).2.2.2⟩

end Lower
end Ferrite
