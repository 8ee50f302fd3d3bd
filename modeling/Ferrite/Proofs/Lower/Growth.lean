import Ferrite.Lower.Module
import Ferrite.Proofs.Run
import Ferrite.Proofs.Tree.Scopes

/-!
What lowering a part of a program does to the state: it replays the scopes of the part in their
order, makes a body for each function in it, and adds locals. It gives up on the record or on the
types only if they are not those of the part.
-/

namespace Ferrite.Lower
open Scope (Event Replay)
open Wasm (ValType Instr)

/-- The functions with a body among the nodes. -/
def definedIn (ns : List Node) : List NodeId :=
  ((ns.filterMap Node.item?).filterMap definedOf).map Header.id

@[simp] theorem definedIn_nil : definedIn [] = [] := rfl

@[simp] theorem definedIn_append (ms ns : List Node) :
    definedIn (ms ++ ns) = definedIn ms ++ definedIn ns := by
  simp [definedIn]

@[simp] theorem definedIn_expr (e : Expr) (ns : List Node) :
    definedIn (.expr e :: ns) = definedIn ns := rfl

@[simp] theorem definedIn_block (b : Block) (ns : List Node) :
    definedIn (.block b :: ns) = definedIn ns := rfl

@[simp] theorem definedIn_stmt (s : Stmt) (ns : List Node) :
    definedIn (.stmt s :: ns) = definedIn ns := rfl

@[simp] theorem definedIn_function (h : Header) (body : Block) (ns : List Node) :
    definedIn (.item (.function h body) :: ns) = h.id :: definedIn ns := rfl

/-- The recorded events that are still to come. -/
def upcoming (r : Replay) : List Event := r.record.events.toList.drop r.nextEvent

/-- Whether the record goes on with the given events, and has frames for them. -/
def Follows (r : Replay) (passed : List Event) : Prop :=
  passed <+: upcoming r ∧ r.nextFrame + passed.count .push ≤ r.record.frames.size

/-- From one replay to a later one through the events. -/
structure Passes (passed : List Event) (r r' : Replay) : Prop where
  record : r'.record = r.record
  upcoming : Lower.upcoming r = passed ++ Lower.upcoming r'
  nextEvent : r'.nextEvent = r.nextEvent + passed.length
  nextFrame : r'.nextFrame = r.nextFrame + passed.count .push
  opened : r'.opened = r.opened

/-- From one state to a later one. `own` says whether names were declared in the innermost
block. -/
structure Grows (own : Bool) (defs : List NodeId) (passed : List Event) (s s' : State) : Prop where
  replay : Passes passed s.replay s'.replay
  bodies : ∃ new, s'.bodies = new ++ s.bodies ∧ (new.map Prod.fst).Perm defs
  params : s'.locals.params = s.locals.params
  types : s.locals.types <+: s'.locals.types
  tail : s'.locals.frames.tail = s.locals.frames.tail
  frames : own = false → s'.locals.frames = s.locals.frames

/-- What has to be wrong with the record or the types for a fault to come from them. -/
def Missing (env : Env) (keys defs : List NodeId) (passed : List Event) (s : State) : Fault → Prop
  | .diverged _ => ¬ Follows s.replay passed
  | .untyped id => id ∈ keys ∧ env.types.get? id = none
  | .notCollected _ => ∃ id ∈ defs, id ∉ env.defined
  | .noBody _ => False
  | _ => True

/-- The step makes bodies for the functions `defs` and passes the events. It looks up the types of
no nodes but `keys`. -/
def Lowers (env : Env) (own : Bool) (keys defs : List NodeId) (passed : List Event) {α : Type}
    (m : Lowering α) : Prop :=
  ∀ s, Ends m s (fun _ s' => Grows own defs passed s s')
    (fun f _ => Missing env keys defs passed s f)

section

variable {α β : Type} {env : Env} {own : Bool} {keys keys' defs defs' : List NodeId}
  {passed passed' : List Event} {r r' r'' : Replay} {s s' s'' : State} {f : Fault}

namespace Passes

theorem refl (r : Replay) : Passes [] r r := ⟨rfl, rfl, rfl, rfl, rfl⟩

theorem trans (h : Passes passed r r') (h' : Passes passed' r' r'') :
    Passes (passed ++ passed') r r'' where
  record := h'.record.trans h.record
  upcoming := by rw [h.upcoming, h'.upcoming, List.append_assoc]
  nextEvent := by
    rw [h'.nextEvent, h.nextEvent, List.length_append]
    omega
  nextFrame := by
    rw [h'.nextFrame, h.nextFrame, List.count_append]
    omega
  opened := h'.opened.trans h.opened

theorem follows (h : Passes passed r r') (hf : Follows r (passed ++ passed')) :
    Follows r' passed' := by
  obtain ⟨hp, hs⟩ := hf
  rw [h.upcoming, List.prefix_append_right_inj] at hp
  rw [List.count_append] at hs
  refine ⟨hp, ?_⟩
  rw [h.nextFrame, h.record]
  omega

end Passes

theorem Follows.front (h : Follows r (passed ++ passed')) : Follows r passed := by
  obtain ⟨hp, hs⟩ := h
  rw [List.count_append] at hs
  exact ⟨(List.prefix_append _ _).trans hp, by omega⟩

namespace Grows

theorem refl (own : Bool) (s : State) : Grows own [] [] s s :=
  ⟨.refl _, ⟨[], rfl, .refl _⟩, rfl, List.prefix_rfl, rfl, fun _ => rfl⟩

theorem trans (h : Grows own defs passed s s') (h' : Grows own defs' passed' s' s'') :
    Grows own (defs ++ defs') (passed ++ passed') s s'' where
  replay := h.replay.trans h'.replay
  bodies := by
    obtain ⟨new, hnew, hp⟩ := h.bodies
    obtain ⟨new', hnew', hp'⟩ := h'.bodies
    refine ⟨new' ++ new, by rw [hnew', hnew, List.append_assoc], ?_⟩
    rw [List.map_append]
    exact (hp'.append hp).trans List.perm_append_comm
  params := h'.params.trans h.params
  types := h.types.trans h'.types
  tail := h'.tail.trans h.tail
  frames ho := (h'.frames ho).trans (h.frames ho)

theorem weaken (h : Grows false defs passed s s') : Grows own defs passed s s' :=
  ⟨h.replay, h.bodies, h.params, h.types, h.tail, fun _ => h.frames rfl⟩

end Grows

namespace Missing

theorem front (h : Missing env keys defs passed s f) :
    Missing env (keys ++ keys') (defs ++ defs') (passed ++ passed') s f := by
  cases f with
  | diverged d => exact fun hf => h hf.front
  | untyped id => exact ⟨List.mem_append_left _ h.1, h.2⟩
  | notCollected name =>
    obtain ⟨id, hid, hd⟩ := h
    exact ⟨id, List.mem_append_left _ hid, hd⟩
  | noBody name => exact h
  | _ => trivial

theorem behind (hg : Grows own defs passed s s') (h : Missing env keys' defs' passed' s' f) :
    Missing env (keys ++ keys') (defs ++ defs') (passed ++ passed') s f := by
  cases f with
  | diverged d => exact fun hf => h (hg.replay.follows hf)
  | untyped id => exact ⟨List.mem_append_right _ h.1, h.2⟩
  | notCollected name =>
    obtain ⟨id, hid, hd⟩ := h
    exact ⟨id, List.mem_append_right _ hid, hd⟩
  | noBody name => exact h
  | _ => trivial

theorem keys_mono (h : Missing env keys defs passed s f) (hk : keys ⊆ keys') :
    Missing env keys' defs passed s f := by
  cases f with
  | untyped id => exact ⟨hk h.1, h.2⟩
  | _ => exact h

end Missing

/-- A fault that neither the record nor the types are to blame for. -/
def Fault.Other : Fault → Prop
  | .diverged _ | .untyped _ | .notCollected _ | .noBody _ => False
  | _ => True

namespace Lowers

theorem bind {m : Lowering α} {g : α → Lowering β} (hm : Lowers env own keys defs passed m)
    (hg : ∀ a, Lowers env own keys' defs' passed' (g a)) :
    Lowers env own (keys ++ keys') (defs ++ defs') (passed ++ passed') (m >>= g) := by
  intro s
  rw [Ends.bind_iff]
  refine (hm s).mono ?_ ?_
  · intro a s' _ h
    refine (hg a s').mono ?_ ?_
    · intro b s'' _ h'
      exact h.trans h'
    · intro f _ _ h'
      exact .behind h h'
  · intro f _ _ h
    exact h.front

theorem pure (a : α) : Lowers env own [] [] [] (Pure.pure a : Lowering α) := fun s => .refl own s

/-- A step followed by one that only looks up types. -/
theorem bind_looks {m : Lowering α} {g : α → Lowering β} (hm : Lowers env own keys defs passed m)
    (hg : ∀ a, Lowers env own keys' [] [] (g a)) :
    Lowers env own (keys ++ keys') defs passed (m >>= g) := by
  have h := hm.bind hg
  rw [List.append_nil, List.append_nil] at h
  exact h

/-- A step followed by nothing that counts. -/
theorem bind_quiet {m : Lowering α} {g : α → Lowering β} (hm : Lowers env own keys defs passed m)
    (hg : ∀ a, Lowers env own [] [] [] (g a)) : Lowers env own keys defs passed (m >>= g) := by
  have h := hm.bind_looks hg
  rw [List.append_nil] at h
  exact h

theorem bind_pure {m : Lowering α} {g : α → β} (hm : Lowers env own keys defs passed m) :
    Lowers env own keys defs passed (do return g (← m)) :=
  hm.bind_quiet fun _ => .pure _

theorem weaken {m : Lowering α} (h : Lowers env false keys defs passed m) :
    Lowers env own keys defs passed m :=
  fun s => (h s).mono (fun _ _ _ hg => hg.weaken) fun _ _ _ hm => hm

theorem keys_mono {m : Lowering α} (h : Lowers env own keys defs passed m) (hk : keys ⊆ keys') :
    Lowers env own keys' defs passed m :=
  fun s => (h s).mono (fun _ _ _ hg => hg) fun _ _ _ hm => hm.keys_mono hk

theorem throw {f : Fault} (h : f.Other) :
    Lowers env own keys defs passed (MonadExcept.throw f : Lowering α) := by
  intro s
  rw [Ends.throw_iff]
  cases f with
  | diverged d => exact h.elim
  | untyped id => exact h.elim
  | notCollected name => exact h.elim
  | noBody name => exact h.elim
  | _ => trivial

theorem get : Lowers env own [] [] [] (MonadState.get : Lowering State) := fun s => .refl own s

theorem orFail {x : Except Fault α} (h : ∀ f, x = .error f → f.Other) :
    Lowers env own [] [] [] (Lower.orFail x) := by
  unfold Lower.orFail
  split
  · exact .pure _
  · exact .throw (h _ rfl)

theorem typeOf (id : NodeId) : Lowers env own [id] [] [] (env.typeOf id) := by
  unfold Env.typeOf
  intro s
  split
  · exact .refl own s
  · rename_i hnone
    exact ⟨List.mem_singleton.mpr rfl, hnone⟩

end Lowers

theorem Locals.declare_rest (l : Locals) (name : String) (index : Option Nat) :
    (l.declare name index).params = l.params ∧ (l.declare name index).types = l.types ∧
      (l.declare name index).frames.tail = l.frames.tail := by
  unfold Locals.declare
  split
  · exact ⟨rfl, rfl, rfl⟩
  · rename_i hf
    exact ⟨rfl, rfl, by rw [hf, List.tail_cons, List.tail_cons]⟩

theorem valType_other (t : Ty) (f : Fault) (h : valType t = .error f) : f.Other := by
  unfold valType at h
  split at h <;> cases h
  trivial

theorem constant_other (l : Literal) (f : Fault) (h : constant l = .error f) : f.Other := by
  unfold constant at h
  split at h <;> cases h
  trivial

theorem upcoming_cons {e : Event} (h : r.record.events[r.nextEvent]? = some e) :
    upcoming r = e :: upcoming { r with nextEvent := r.nextEvent + 1 } := by
  rw [← Array.getElem?_toList] at h
  obtain ⟨hlt, rfl⟩ := List.getElem?_eq_some_iff.mp h
  exact List.drop_eq_getElem_cons hlt

theorem getElem?_of_upcoming {e : Event} {es : List Event} (h : e :: es <+: upcoming r) :
    r.record.events[r.nextEvent]? = some e := by
  obtain ⟨rest, hrest⟩ := h
  have hhead : (upcoming r).head? = some e := by rw [← hrest, List.cons_append, List.head?_cons]
  rw [upcoming, List.head?_drop, Array.getElem?_toList] at hhead
  exact hhead

/-- Behind the opening of the next recorded scope. -/
def entered (r : Replay) : Replay :=
  { r with nextEvent := r.nextEvent + 1, nextFrame := r.nextFrame + 1,
           opened := r.nextFrame :: r.opened }

theorem enter_cases (r : Replay) :
    (r.enter = .ok (entered r) ∧ upcoming r = .push :: upcoming (entered r)) ∨
      ∃ d, r.enter = .error d ∧ ¬ Follows r [.push] := by
  unfold Replay.enter Replay.moved
  by_cases he : r.record.events[r.nextEvent]? = some .push
  · by_cases hf : r.nextFrame < r.record.frames.size
    · rw [Replay.entering_next he hf]
      exact .inl ⟨rfl, upcoming_cons he⟩
    · rw [Replay.entering_noFrame he hf]
      refine .inr ⟨_, rfl, ?_⟩
      rintro ⟨-, hsize⟩
      rw [List.count_singleton_self] at hsize
      omega
  · rw [show Replay.entering r = _ from Replay.call_other he]
    exact .inr ⟨_, rfl, fun h => he (getElem?_of_upcoming h.1)⟩

theorem leave_cases {k : Nat} {rest : List Nat} (h : r.opened = k :: rest) :
    (r.leave = .ok { r with nextEvent := r.nextEvent + 1, opened := rest } ∧
        upcoming r = .pop :: upcoming { r with nextEvent := r.nextEvent + 1 }) ∨
      ∃ d, r.leave = .error d ∧ ¬ Follows r [.pop] := by
  unfold Replay.leave Replay.moved
  by_cases he : r.record.events[r.nextEvent]? = some .pop
  · rw [Replay.leaving_next he h]
    exact .inl ⟨rfl, upcoming_cons he⟩
  · rw [show Replay.leaving r = _ from Replay.call_other he]
    exact .inr ⟨_, rfl, fun h => he (getElem?_of_upcoming h.1)⟩

theorem replayed_iff {step : Replay → Except Scope.Divergence Replay} {good : Unit → State → Prop}
    {bad : Fault → State → Prop} :
    Ends (replayed step) s good bad ↔
      match step s.replay with
      | .ok r => good () { s with replay := r }
      | .error d => bad (.diverged d) s := by
  unfold replayed
  rw [Ends.bind_iff, Ends.get_iff]
  cases step s.replay <;> exact Iff.rfl

namespace Lowers

theorem inScope {act : Lowering α} (h : Lowers env own keys defs passed act) :
    Lowers env own keys defs (enclosed passed) (Lower.inScope act) := by
  intro s
  unfold Lower.inScope
  rw [Ends.bind_iff, replayed_iff]
  rcases enter_cases s.replay with ⟨he, hu⟩ | ⟨d, he, hf⟩
  · rw [he]
    dsimp only
    rw [Ends.bind_iff]
    have hstart : Follows s.replay (enclosed passed) →
        Follows (entered s.replay) (passed ++ [.pop]) := by
      rintro ⟨hp, hsize⟩
      rw [hu, enclosed, List.cons_prefix_cons] at hp
      rw [enclosed, List.count_cons_self] at hsize
      refine ⟨hp.2, ?_⟩
      simp only [entered]
      omega
    refine (h _).mono ?_ ?_
    · intro a s' _ hg
      rw [Ends.bind_iff, replayed_iff]
      rcases leave_cases hg.replay.opened with ⟨hl, hu'⟩ | ⟨d, hl, hf⟩
      · rw [hl]
        refine ⟨⟨hg.replay.record, ?_, ?_, ?_, rfl⟩, hg.bodies, hg.params, hg.types, hg.tail, hg.frames⟩
        · rw [hu, hg.replay.upcoming, hu', enclosed, List.cons_append, List.append_assoc]
          rfl
        · simp only [hg.replay.nextEvent, entered, enclosed, List.length_cons, List.length_append,
            List.length_nil]
          omega
        · simp only [hg.replay.nextFrame, entered, count_enclosed]
          omega
      · rw [hl]
        exact fun hs => hf (hg.replay.follows (hstart hs))
    · intro f s' _ hm
      cases f with
      | diverged d => exact fun hs => hm (hstart hs).front
      | untyped id => exact hm
      | notCollected name => exact hm
      | noBody name => exact hm
      | _ => trivial
  · rw [he]
    rintro ⟨hp, hsize⟩
    refine hf ⟨(List.prefix_append [Event.push] (passed ++ [.pop])).trans hp, ?_⟩
    rw [enclosed, List.count_cons_self] at hsize
    rw [List.count_singleton_self]
    omega

theorem inFrame {act : Lowering α} (h : Lowers env own keys defs passed act) :
    Lowers env false keys defs passed (Lower.inFrame act) := by
  intro s
  unfold Lower.inFrame modifyLocals
  rw [Ends.bind_iff, Ends.modify_iff, Ends.bind_iff]
  refine (h _).mono ?_ ?_
  · intro a s' _ hg
    rw [Ends.bind_iff, Ends.modify_iff, Ends.pure_iff]
    have htail : s'.locals.frames.tail = s.locals.frames := hg.tail
    exact ⟨hg.replay, hg.bodies, hg.params, hg.types, congrArg _ htail, fun _ => htail⟩
  · intro f s' _ hm
    cases f <;> exact hm

/-- A function with locals of its own, and its body. -/
theorem function {act : Lowering (List Instr)} (h : Lowers env own keys defs passed act)
    (locals : Locals) (id : NodeId) :
    Lowers env false keys (id :: defs) passed (do
      let (code, locals) ← withLocals locals act
      finishBody id ⟨locals.types, code⟩) := by
  intro s
  unfold withLocals modifyLocals finishBody
  simp only [bind_assoc, pure_bind]
  rw [Ends.bind_iff, Ends.get_iff, Ends.bind_iff, Ends.modify_iff, Ends.bind_iff]
  refine (h _).mono ?_ ?_
  · intro code s' _ hg
    rw [Ends.bind_iff, Ends.get_iff, Ends.bind_iff, Ends.modify_iff, Ends.modify_iff]
    obtain ⟨new, hnew, hp⟩ := hg.bodies
    refine ⟨hg.replay, ⟨(id, ⟨s'.locals.types, code⟩) :: new, ?_, hp.cons id⟩, rfl, List.prefix_rfl,
      rfl, fun _ => rfl⟩
    exact congrArg _ hnew
  · intro f s' _ hm
    cases f with
    | notCollected name =>
      obtain ⟨i, hi, hd⟩ := hm
      exact ⟨i, List.mem_cons_of_mem _ hi, hd⟩
    | _ => exact hm

theorem valueOf (id : NodeId) : Lowers env own [id] [] [] (env.valueOf id) :=
  (typeOf id).bind_quiet fun t => orFail (valType_other t)

theorem dropValue (id : NodeId) : Lowers env own [id] [] [] (Lower.dropValue env id) :=
  (valueOf id).bind_pure

theorem typed (id : NodeId) {code : Ty → Lowering (List Instr)}
    (h : ∀ t, Lowers env own keys defs passed (code t)) :
    Lowers env own (id :: keys) defs passed (Lower.typed env id code) :=
  (typeOf id).bind fun t => (h t).bind_pure

theorem path (name : Ident) : Lowers env own [] [] [] (Lower.path name) := by
  refine get.bind_quiet fun s => ?_
  split
  · exact .pure _
  · exact .pure _
  · exact .throw trivial

theorem assign (name : Ident) : Lowers env own [] [] [] (Lower.assign name) := by
  refine get.bind_quiet fun s => ?_
  split
  · exact .pure _
  · exact .pure _
  · exact .throw trivial

theorem call (callee : Ident) : Lowers env own [] [] [] (Lower.call env callee) := by
  refine get.bind_quiet fun s => ?_
  split
  · exact .throw trivial
  · split
    · exact .throw trivial
    · exact .pure _

theorem addLocal (t : ValType) : Lowers env own [] [] [] (Lower.addLocal t) := fun _ =>
  ⟨.refl _, ⟨[], rfl, .refl _⟩, rfl, List.prefix_append _ _, rfl, fun _ => rfl⟩

theorem declare (name : String) (index : Option Nat) :
    Lowers env true [] [] [] (modifyLocals (·.declare name index)) := by
  intro s
  unfold modifyLocals
  rw [Ends.modify_iff]
  obtain ⟨hparams, htypes, htail⟩ := s.locals.declare_rest name index
  exact ⟨.refl _, ⟨[], rfl, .refl _⟩, hparams, htypes ▸ List.prefix_rfl, htail, fun ho => by cases ho⟩

theorem operator (op : BinaryOp) (t : Ty) : Lowers env own [] [] [] (Lower.operator op t) := by
  unfold Lower.operator
  split
  · exact (addLocal _).bind_quiet fun _ => (addLocal _).bind_quiet fun _ => .pure _
  · split
    · exact .throw trivial
    · exact .pure _

theorem binary (op : BinaryOp) (lhs rhs : Expr) :
    Lowers env own [lhs.id, rhs.id] [] [] (Lower.binary env op lhs rhs) := by
  refine (typeOf lhs.id).bind fun l => ?_
  have hrest : ∀ t, Lowers env own [] [] []
      (if t = .never then Pure.pure [] else Lower.operator op t) := by
    intro t
    split
    · exact .pure _
    · exact operator op t
  split
  · exact (typeOf rhs.id).bind_quiet hrest
  · exact ((Lowers.pure l).bind_quiet hrest).keys_mono (List.nil_subset _)

theorem unaryCode (op : UnaryOp) (t : Ty) : Lowers env own [] [] [] (Lower.unaryCode op t) := by
  unfold Lower.unaryCode
  split
  · exact .pure _
  · exact .throw trivial

theorem binding (id : NodeId) (name : Ident) :
    Lowers env true [id] [] [] (Lower.binding env id name) := by
  refine (valueOf id).bind_quiet ?_
  rintro (_ | t)
  · exact (declare _ _).bind_quiet fun _ => .pure _
  · exact (addLocal t).bind_quiet fun _ => (declare _ _).bind_quiet fun _ => .pure _

end Lowers

end

/-- No function is inside what is assigned to. -/
theorem definedIn_of_place? : ∀ (e : Expr) (name : Ident), e.place? = some name → definedIn e.nodes = []
  | .path .., _, _ => rfl
  | .grouped _ _ inner, name, h => by
    rw [Expr.nodes, definedIn_expr]
    exact definedIn_of_place? inner name h

mutual
theorem expr_lowers (env : Env) : ∀ e : Expr,
    Lowers env false (ids e.nodes) (definedIn e.nodes) e.scopes (expr env e)
  | .literal id _ value => by
    rw [Expr.nodes, ids_expr, definedIn_expr, Expr.scopes, expr]
    exact .typed id fun _ => (Lowers.orFail (constant_other value)).bind_pure
  | .path id _ name => by
    rw [Expr.nodes, ids_expr, definedIn_expr, Expr.scopes, expr]
    exact .typed id fun _ => .path name
  | .grouped id _ inner => by
    rw [Expr.nodes, ids_expr, definedIn_expr, Expr.scopes, expr]
    exact .typed id fun _ => expr_lowers env inner
  | .unary id _ op operand => by
    rw [Expr.nodes, ids_expr, definedIn_expr, Expr.scopes, expr]
    refine .typed id fun t => ?_
    refine ((Lowers.typeOf operand.id).bind fun found => ?_).keys_mono
      (List.cons_subset.mpr ⟨operand.id_mem, List.Subset.refl _⟩)
    split
    · exact expr_lowers env operand
    · refine (Lowers.unaryCode op t).bind fun code => ?_
      exact (expr_lowers env operand).bind_pure
  | .binary id _ op lhs rhs => by
    rw [Expr.nodes, ids_expr, ids_append, definedIn_expr, definedIn_append, Expr.scopes, expr]
    refine .typed id fun _ => ?_
    split
    · split
      · exact .throw trivial
      · rename_i name hplace
        rw [lhs.scopes_of_place? name hplace, definedIn_of_place? lhs name hplace]
        refine ((expr_lowers env rhs).bind_quiet fun value => ?_).keys_mono
          (List.subset_append_right _ _)
        exact (Lowers.assign name).bind_pure
    · refine Lowers.keys_mono ((expr_lowers env lhs).bind fun l =>
        (expr_lowers env rhs).bind_looks fun r => (Lowers.binary op lhs rhs).bind_pure) ?_
      simp [lhs.id_mem, rhs.id_mem]
  | .call id _ callee args => by
    rw [Expr.nodes, ids_expr, definedIn_expr, Expr.scopes, expr]
    refine .typed id fun _ => (exprs_lowers env args).bind_quiet fun values => ?_
    exact (Lowers.call callee).bind_pure
  | .ret id _ none => by
    rw [Expr.nodes, ids_expr, definedIn_expr, Expr.scopes, expr]
    exact .typed id fun _ => .pure _
  | .ret id _ (some value) => by
    rw [Expr.nodes, ids_expr, definedIn_expr, Expr.scopes, expr]
    exact .typed id fun _ => (expr_lowers env value).bind_pure
  | .block id _ body => by
    rw [Expr.nodes, ids_expr, definedIn_expr, Expr.scopes, expr]
    exact .typed id fun _ => block_lowers env body
  | .loop id _ body => by
    rw [Expr.nodes, ids_expr, definedIn_expr, Expr.scopes, expr]
    refine .typed id fun _ => ?_
    refine ((block_lowers env body).bind_looks fun code => (Lowers.dropValue body.id).bind_pure).keys_mono ?_
    simp [body.id_mem]
  | .while id _ c body => by
    rw [Expr.nodes, ids_expr, ids_append, definedIn_expr, definedIn_append, Expr.scopes, expr]
    refine .typed id fun _ => ?_
    refine ((expr_lowers env c).bind fun test => (block_lowers env body).bind_looks fun code =>
      (Lowers.dropValue body.id).bind_pure).keys_mono ?_
    simp [body.id_mem]
  | .cond id _ links => by
    rw [Expr.nodes, ids_expr, definedIn_expr, Expr.scopes, expr]
    exact .typed id fun t => cond_lowers env links t

theorem exprs_lowers (env : Env) : ∀ es : List Expr,
    Lowers env false (ids (exprNodes es)) (definedIn (exprNodes es)) (exprScopes es) (exprs env es)
  | [] => by
    rw [exprs]
    exact .pure _
  | e :: es => by
    rw [exprNodes, ids_append, definedIn_append, exprScopes, exprs]
    exact (expr_lowers env e).bind fun first => (exprs_lowers env es).bind_pure

theorem cond_lowers (env : Env) : ∀ (c : Cond) (t : Ty),
    Lowers env false (ids c.nodes) (definedIn c.nodes) c.scopes (cond env c t)
  | .only c yes, t => by
    rw [Cond.nodes, ids_append, definedIn_append, Cond.scopes, cond]
    refine ((expr_lowers env c).bind fun test => ?_)
    refine ((Lowers.orFail (valType_other t)).bind fun _ => (block_lowers env yes).bind_looks fun code =>
      (Lowers.dropValue yes.id).bind_pure).keys_mono ?_
    simp [yes.id_mem]
  | .orElse c yes no, t => by
    rw [Cond.nodes, ids_append, ids_append, definedIn_append, definedIn_append, Cond.scopes, cond,
      List.append_assoc, List.append_assoc, List.append_assoc]
    exact (expr_lowers env c).bind fun test => (Lowers.orFail (valType_other t)).bind fun result =>
      (block_lowers env yes).bind fun yesCode => (block_lowers env no).bind_pure
  | .orIf c yes no, t => by
    rw [Cond.nodes, ids_append, ids_append, definedIn_append, definedIn_append, Cond.scopes, cond,
      List.append_assoc, List.append_assoc, List.append_assoc]
    exact (expr_lowers env c).bind fun test => (Lowers.orFail (valType_other t)).bind fun result =>
      (block_lowers env yes).bind fun yesCode => (cond_lowers env no t).bind_pure

theorem block_lowers (env : Env) : ∀ b : Block,
    Lowers env false (ids b.nodes) (definedIn b.nodes) b.scopes (block env b)
  | .mk id span is ss none => by
    rw [Block.nodes, ids_block, ids_append, definedIn_block, definedIn_append, Block.scopes, block]
    refine Lowers.keys_mono (.inScope (.inFrame (?_ : Lowers env true _ _ _ _)))
      (List.subset_cons_self _ _)
    exact (items_lowers env is).weaken.bind fun _ => stmts_lowers env ss
  | .mk id span is ss (some e) => by
    rw [Block.nodes, ids_block, ids_append, ids_append, definedIn_block, definedIn_append,
      definedIn_append, Block.scopes, block, List.append_assoc, List.append_assoc, List.append_assoc]
    refine Lowers.keys_mono (.inScope (.inFrame (?_ : Lowers env true _ _ _ _)))
      (List.subset_cons_self _ _)
    exact (items_lowers env is).weaken.bind fun _ => (stmts_lowers env ss).bind fun code =>
      (expr_lowers env e).weaken.bind_pure

theorem stmts_lowers (env : Env) : ∀ ss : List Stmt,
    Lowers env true (ids (stmtNodes ss)) (definedIn (stmtNodes ss)) (stmtScopes ss) (stmts env ss)
  | [] => by
    rw [stmts]
    exact .pure _
  | s :: ss => by
    rw [stmtNodes, ids_append, definedIn_append, stmtScopes, stmts]
    exact (stmt_lowers env s).bind fun first => (stmts_lowers env ss).bind_pure

theorem stmt_lowers (env : Env) : ∀ s : Stmt,
    Lowers env true (ids s.nodes) (definedIn s.nodes) s.scopes (stmt env s)
  | .bind id span name declared init => by
    rw [Stmt.nodes, definedIn_stmt, Stmt.scopes, stmt]
    refine ((expr_lowers env init).weaken.bind_looks fun value =>
      (Lowers.binding id name).bind_pure).keys_mono ?_
    simp
  | .expr _ value _ => by
    rw [Stmt.nodes, definedIn_stmt, Stmt.scopes, stmt]
    refine ((expr_lowers env value).weaken.bind_looks fun code =>
      (Lowers.dropValue value.id).bind_pure).keys_mono ?_
    simp [value.id_mem]

theorem items_lowers (env : Env) : ∀ is : List Item,
    Lowers env false (ids (itemNodes is)) (definedIn (itemNodes is)) (itemScopes is) (items env is)
  | [] => by
    rw [items]
    exact .pure _
  | i :: is => by
    rw [itemNodes, ids_append, definedIn_append, itemScopes, items]
    exact (item_lowers env i).bind fun _ => items_lowers env is

theorem item_lowers (env : Env) : ∀ i : Item,
    Lowers env false (ids i.nodes) (definedIn i.nodes) i.scopes (item env i)
  | .function h body => by
    rw [Item.nodes, ids_item, Item.scopes, item]
    split
    · exact .function (.inScope (block_lowers env body)) (parameters h) h.id
    · rename_i hundefined
      intro s
      exact ⟨h.id, List.mem_cons_self, hundefined⟩
  | .foreign .. => by
    rw [item]
    exact .pure ()
end

end Ferrite.Lower
