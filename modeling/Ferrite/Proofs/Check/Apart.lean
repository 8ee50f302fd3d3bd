import Ferrite.Proofs.Check.Growth
import Ferrite.Proofs.Scope.Apart

/-!
A function is checked apart from where it stands: beyond the boundary of its own scope it looks up
functions only, and what it returns is compared with its own result. So what checking it adds to the state
depends on the functions in sight and on nothing else there.
-/

namespace Ferrite.Check

/-- Puts what was gathered from one state on another one. -/
def State.append (s part : State) : State where
  scopes := s.scopes.append part.scopes
  owners := part.owners ++ s.owners
  types := ⟨part.types.entries ++ s.types.entries⟩
  problems := part.problems ++ s.problems

/-- In the state, the given functions are in sight. -/
structure Around (decls : String → Option Decl) (s : State) : Prop where
  valid : s.scopes.Valid
  decl? : ∀ name, s.scopes.decl? name = decls name

/-- What was gathered in the body of a function, behind its boundary. -/
structure Shut (numbers : List Nat) (k : Nat) (owner : Owner) (outer : List Owner) (part : State) : Prop where
  scopes : part.scopes.Shut numbers k
  owners : part.owners = owner :: outer

/-- Behind a boundary, the step gives the same and adds the same on every state with the given
functions in sight. -/
def Confined (decls : String → Option Decl) {α : Type} (act : Checker α) : Prop :=
  ∀ (numbers : List Nat) (k : Nat) (owner : Owner) (outer : List Owner) (part : State),
    Shut numbers k owner outer part →
    ∃ a part', Shut numbers k owner outer part' ∧
      ∀ s, Around decls s → value act (s.append part) = a ∧ after act (s.append part) = s.append part'

variable {decls : String → Option Decl}

namespace Confined

variable {α β : Type}

/-- A step that does the same on the part alone. -/
theorem of_part {act : Checker α}
    (hshut : ∀ {numbers k owner outer part}, Shut numbers k owner outer part →
      Shut numbers k owner outer (after act part))
    (h : ∀ {numbers k owner outer part}, Shut numbers k owner outer part → ∀ s, Around decls s →
      value act (s.append part) = value act part ∧ after act (s.append part) = s.append (after act part)) :
    Confined decls act :=
  fun _ _ _ _ part hp => ⟨value act part, after act part, hshut hp, h hp⟩

theorem pure (a : α) : Confined decls (pure a : Checker α) :=
  of_part id fun _ _ _ => ⟨rfl, rfl⟩

theorem bind {m : Checker α} {f : α → Checker β} (hm : Confined decls m)
    (hf : ∀ a, Confined decls (f a)) : Confined decls (m >>= f) := by
  intro numbers k owner outer part hp
  obtain ⟨a, part', hp', hfirst⟩ := hm _ _ _ _ part hp
  obtain ⟨b, part'', hp'', hrest⟩ := hf a _ _ _ _ part' hp'
  refine ⟨b, part'', hp'', ?_⟩
  intro s hs
  obtain ⟨hvalue, hafter⟩ := hfirst s hs
  rw [value_bind, after_bind, hvalue, hafter]
  exact hrest s hs

theorem report (problem : Problem) (span : Span) : Confined decls (report problem span) :=
  of_part (fun h => ⟨h.scopes, h.owners⟩) fun _ _ _ => ⟨rfl, rfl⟩

theorem record (id : NodeId) (t : Ty) : Confined decls (record id t) :=
  of_part (fun h => ⟨h.scopes, h.owners⟩) fun _ _ _ => ⟨rfl, rfl⟩

/-- The innermost function is the one that the boundary belongs to, or one inside of it. -/
theorem owner? : Confined decls owner? := by
  refine of_part id fun {_ _ owner outer part} hp s _ => ⟨?_, rfl⟩
  show (part.owners ++ s.owners).head? = part.owners.head?
  rw [hp.owners]
  rfl

/-- Locals are looked up no further than to the boundary. -/
theorem local? (name : String) : Confined decls (local? name) :=
  of_part id fun hp _ hs => ⟨hp.scopes.local? hs.valid name, rfl⟩

/-- Functions are looked up on both sides of it. -/
theorem decl? (name : String) : Confined decls (decl? name) := by
  intro numbers k owner outer part hp
  refine ⟨(part.scopes.decl? name).or (decls name), part, hp, ?_⟩
  intro s hs
  refine ⟨?_, rfl⟩
  rw [← hs.decl? name]
  exact Scope.Stack.decl?_append hs.valid part.scopes name

/-- Behind a step that was put on a state, its scope is closed like one of the part. -/
theorem leave {boundary : Bool} {act : Checker α} (part : State) {part' : State} {a : α} {s : State}
    (hne : part'.scopes.opened ≠ [])
    (hact : ∀ s, Around decls s →
      value act (s.append { part with scopes := part.scopes.push boundary }) = a ∧
        after act (s.append { part with scopes := part.scopes.push boundary }) = s.append part')
    (hs : Around decls s) :
    value (do
        modify fun s => { s with scopes := s.scopes.push boundary }
        let a ← act
        modify fun s => { s with scopes := s.scopes.leave }
        return a) (s.append part) = a ∧
      after (do
        modify fun s => { s with scopes := s.scopes.push boundary }
        let a ← act
        modify fun s => { s with scopes := s.scopes.leave }
        return a) (s.append part) = s.append { part' with scopes := part'.scopes.leave } := by
  obtain ⟨hvalue, hafter⟩ := hact s hs
  have hpush : { s.append part with scopes := (s.append part).scopes.push boundary } =
      s.append { part with scopes := part.scopes.push boundary } := by
    simp only [State.append, Scope.Stack.append_push]
  simp only [value_bind, after_bind, after_modify, hpush, hvalue, hafter]
  refine ⟨rfl, ?_⟩
  simp only [after_pure, State.append, Scope.Stack.append_leave hne]

theorem inScope {act : Checker α} (h : Confined decls act) : Confined decls (inScope act) := by
  intro numbers k owner outer part hp
  obtain ⟨a, part', hp', hact⟩ :=
    h _ k owner outer { part with scopes := part.scopes.push false } ⟨hp.scopes.push false, hp.owners⟩
  exact ⟨a, { part' with scopes := part'.scopes.leave }, ⟨hp'.scopes.leave hp.scopes.mem, hp'.owners⟩,
    fun s hs => leave part hp'.scopes.ne_nil hact hs⟩

theorem inFunctionScope {act : Checker α} (h : Confined decls act) :
    Confined decls (inFunctionScope act) := by
  intro numbers k owner outer part hp
  obtain ⟨a, part', hp', hact⟩ :=
    h _ k owner outer { part with scopes := part.scopes.push true } ⟨hp.scopes.push true, hp.owners⟩
  exact ⟨a, { part' with scopes := part'.scopes.leave }, ⟨hp'.scopes.leave hp.scopes.mem, hp'.owners⟩,
    fun s hs => leave part hp'.scopes.ne_nil hact hs⟩

/-- Behind a step that was put on a state, its function is done with like one of the part. -/
theorem out {owner : Owner} {outer : List Owner} {act : Checker α} {part part' : State} {a : α} {s : State}
    (howners : part'.owners = owner :: outer)
    (hact : ∀ s, Around decls s → value act (s.append (part.into owner)) = a ∧
      after act (s.append (part.into owner)) = s.append part')
    (hs : Around decls s) : value (Check.within owner act) (s.append part) = a ∧
      after (Check.within owner act) (s.append part) = s.append part'.out := by
  obtain ⟨hvalue, hafter⟩ := hact s hs
  refine ⟨hvalue, ?_⟩
  show (after act (s.append (part.into owner))).out = _
  rw [hafter]
  simp only [State.out, State.append, howners, List.cons_append, List.tail_cons]

theorem within (owner : Owner) {act : Checker α} (h : Confined decls act) :
    Confined decls (within owner act) := by
  intro numbers k owner' outer part hp
  obtain ⟨a, part', hp', hact⟩ :=
    h _ k owner (owner' :: outer) (part.into owner) ⟨hp.scopes, congrArg _ hp.owners⟩
  exact ⟨a, part'.out, ⟨hp'.scopes, congrArg List.tail hp'.owners⟩, fun s hs => out hp'.owners hact hs⟩

theorem insertLocal (name : String) (t : Ty) : Confined decls (insertLocal name t) := by
  refine .of_part ?_ ?_
  · intro numbers k owner outer part hp
    exact ⟨hp.scopes.modifyTop fun f => Scope.Stack.boundary_addLocal f name t, hp.owners⟩
  · intro numbers k owner outer part hp s hs
    have h := hp.scopes.insertLocal hs.valid name t
    have hscopes := congrArg Prod.snd h
    exact ⟨(congrArg Prod.fst h :), (congrArg (fun scopes => { s.append part with scopes }) hscopes :)⟩

theorem insertDecl (d : Decl) : Confined decls (insertDecl d) := by
  refine .of_part ?_ ?_
  · intro numbers k owner outer part hp
    exact ⟨hp.scopes.modifyTop fun f => Scope.Stack.boundary_addDecl f d, hp.owners⟩
  · intro numbers k owner outer part hp s hs
    have h := hp.scopes.insertDecl hs.valid d
    have hscopes := congrArg Prod.snd h
    exact ⟨(congrArg Prod.fst h :), (congrArg (fun scopes => { s.append part with scopes }) hscopes :)⟩

end Confined

/-- What a block returns last was typed by its statements. So its type is found in what checking them
added, and not in what was there before. -/
theorem returning_confined {b : Block} (hstmts : Confined decls (stmts b.stmts)) :
    Confined decls (do stmts b.stmts; blockType b none) := by
  rcases hreturn : b.trailingReturn? with _ | _ | v
  · have htype : blockType b none = pure .unit := by simp only [blockType, hreturn, Option.getD_none]
    rw [htype]
    exact .bind hstmts fun _ => .pure _
  · have htype : blockType b none = pure .unit := by simp only [blockType, hreturn]
    rw [htype]
    exact .bind hstmts fun _ => .pure _
  · have htype : blockType b none = (do return ((← get).types.get? v.id).getD .unknown) := by
      simp only [blockType, hreturn]
    intro numbers k owner outer part hp
    obtain ⟨_, part', hp', hfirst⟩ := hstmts _ _ _ _ part hp
    refine ⟨(part'.types.get? v.id).getD .unknown, part', hp', ?_⟩
    intro s hs
    obtain ⟨-, hafter⟩ := hfirst s hs
    obtain ⟨new, hnew, hperm⟩ := (stmts_grows b.stmts (s.append part)).types
    have hentries : part'.types.entries ++ s.types.entries =
        (new ++ part.types.entries) ++ s.types.entries := by
      rw [hafter] at hnew
      rw [List.append_assoc]
      exact hnew
    have hkey : ∃ e, e ∈ part'.types.entries ∧ (v.id == e.1) = true := by
      have hmem : v.id ∈ part'.types.entries.map Prod.fst := by
        rw [List.append_cancel_right hentries, List.map_append]
        exact List.mem_append_left _ (hperm.mem_iff.mpr (mem_ids (Block.returned_mem_nodes hreturn)))
      obtain ⟨e, he, heq⟩ := List.mem_map.mp hmem
      exact ⟨e, he, beq_iff_eq.mpr heq.symm⟩
    have hget : (s.append part').types.get? v.id = part'.types.get? v.id := by
      obtain ⟨t, ht⟩ := Option.isSome_iff_exists.mp (List.lookup_isSome_iff.mpr hkey)
      show (part'.types.entries ++ s.types.entries).lookup v.id = part'.types.entries.lookup v.id
      rw [List.lookup_append, ht, Option.some_or]
    rw [value_bind, after_bind, hafter, htype]
    exact ⟨congrArg (fun t => t.getD Ty.unknown) hget, rfl⟩

theorem confined_lockstep : LockstepWalk (fun _ => True) id fun p _ => Confined decls p where
  pure := .pure
  bind := .bind
  report problem span _ := .report problem span
  owner? := .owner?
  local? := .local?
  decl? := .decl?
  lawful := ⟨fun _ _ => rfl, fun _ => rfl⟩
  join _ _ _ _ := trivial
  record := .record
  insertLocal := .insertLocal
  insertDecl := .insertDecl
  within owner _ _ h := .within owner h
  inScope := .inScope
  inFunctionScope := .inFunctionScope
  returning := returning_confined

/-! ## Items on any state -/

theorem function_confined (h : Header) (body : Block) : Confined decls (do
    bindParams h
    functionBody h body (← block body)) :=
  .bind (confined_lockstep.bindParams fun _ _ => trivial) fun _ =>
    .bind (confined_lockstep.block body fun n _ => n.spots_anywhere) fun _ =>
      confined_lockstep.functionBody h trivial _

@[simp] theorem State.append_empty (s : State) : s.append {} = s := by
  simp only [State.append, Scope.Stack.append_empty, List.nil_append]

/-- What checking an item adds, wherever the item stands with the given functions in sight. -/
theorem exists_part (decls : String → Option Decl) (i : Item) :
    ∃ part : State, part.scopes.opened = [] ∧ part.owners = [] ∧
      ∀ s, Around decls s → after (item i) s = s.append part := by
  cases i with
  | foreign span abi functions => exact ⟨{}, rfl, rfl, fun s _ => (State.append_empty s).symm⟩
  | function h body =>
    -- The function's own scope is the boundary, and the only scope that is open in its part.
    have hp : Shut [0] 0 (.of h) [] { ({} : State).into (.of h) with scopes := ({} : Scope.Stack).push true } :=
      ⟨Scope.Stack.shut_push {} (fun j hj => by cases hj), rfl⟩
    have hfunction : Confined decls _ := function_confined h body
    obtain ⟨_, part, hpart, hact⟩ := hfunction _ _ _ _ _ hp
    let left : State := { part with scopes := part.scopes.leave }
    have howners : left.owners = [.of h] := hpart.owners
    refine ⟨left.out, ?_, ?_, ?_⟩
    · simp only [left, State.out, Scope.Stack.leave, hpart.scopes.opened]
    · rw [State.out, howners, List.tail_cons]
    · intro s hs
      have hscope := fun s hs => Confined.leave (({} : State).into (.of h)) hpart.scopes.ne_nil hact (s := s) hs
      have hout := (Confined.out howners hscope hs).2
      rw [State.append_empty] at hout
      exact hout

theorem Around.append {s part : State} (hs : Around decls s) (h : part.scopes.opened = []) :
    Around decls (s.append part) where
  valid := Scope.Stack.valid_append hs.valid h
  decl? name := by
    have hnone : part.scopes.decl? name = none := by
      simp [Scope.Stack.decl?, Scope.Stack.frames, Scope.Record.framesAt, Scope.findDecl?, h]
    rw [State.append, Scope.Stack.decl?_append hs.valid, hnone, Option.none_or]
    exact hs.decl? name

/-- An item sees nothing of what is around it but functions. On two states with the same functions in
sight, whatever locals are there and in whatever functions they are, checking it notes the same types,
reports the same problems, and records the same events and frames; the scopes that are open stay open as
they are, and so do the functions. -/
theorem item_apart (i : Item) {s s' : State} (hs : s.scopes.Valid) (hs' : s'.scopes.Valid)
    (h : ∀ name, s.scopes.decl? name = s'.scopes.decl? name) :
    ∃ types problems events frames, ∀ t, t = s ∨ t = s' →
      (after (item i) t).types.entries = types ++ t.types.entries ∧
      (after (item i) t).problems = problems ++ t.problems ∧
      (after (item i) t).scopes.record.events = t.scopes.record.events ++ events ∧
      (after (item i) t).scopes.record.frames = t.scopes.record.frames ++ frames ∧
      (after (item i) t).scopes.opened = t.scopes.opened ∧
      (after (item i) t).scopes.frames = t.scopes.frames ∧
      (after (item i) t).owners = t.owners := by
  obtain ⟨part, hopened, howners, hpart⟩ := exists_part s.scopes.decl? i
  refine ⟨part.types.entries, part.problems, part.scopes.record.events, part.scopes.record.frames, ?_⟩
  intro t ht
  have haround : Around s.scopes.decl? t := by
    rcases ht with rfl | rfl
    · exact ⟨hs, fun _ => rfl⟩
    · exact ⟨hs', fun name => (h name).symm⟩
  rw [hpart t haround]
  refine ⟨rfl, rfl, rfl, rfl, ?_, ?_, ?_⟩
  · simp [State.append, Scope.Stack.append, hopened]
  · rw [State.append, Scope.Stack.frames_append haround.valid]
    simp [Scope.Stack.frames, Scope.Record.framesAt, hopened]
  · rw [State.append, howners, List.nil_append]

/-- A function that returns `x` stands where `x` is a local, in the body of a function with another result,
and where it is none: both times there is no `x` in sight. -/
theorem item_apart_local : ∃ i s s',
    s.scopes.local? "x" = some .bool ∧ s.scopes.opened = [2, 1, 0] ∧ s.owners = [⟨"f", .bool⟩] ∧
      s'.scopes.local? "x" = none ∧ s'.scopes.opened = [0] ∧ s'.owners = [] ∧
      (after (item i) s').problems = [⟨.undefinedValue "x", ⟨0, 29, 30⟩⟩] ∧
      ∃ types problems events frames, ∀ t, t = s ∨ t = s' →
        (after (item i) t).types.entries = types ++ t.types.entries ∧
        (after (item i) t).problems = problems ++ t.problems ∧
        (after (item i) t).scopes.record.events = t.scopes.record.events ++ events ∧
        (after (item i) t).scopes.record.frames = t.scopes.record.frames ++ frames ∧
        (after (item i) t).scopes.opened = t.scopes.opened ∧
        (after (item i) t).scopes.frames = t.scopes.frames ∧
        (after (item i) t).owners = t.owners := by
  let g : Header := ⟨1, ⟨"g", ⟨0, 3, 4⟩⟩, [], ⟨[], .int .i32⟩, ⟨0, 0, 33⟩⟩
  let crate : Scope.Frame := { boundary := false, decls := [⟨1, "g", g.signature⟩] }
  let block : Scope.Frame := { boundary := false, locals := [("x", .bool)] }
  refine ⟨.function g (.mk 2 ⟨0, 14, 33⟩ []
      [.expr ⟨0, 22, 31⟩ (.ret 3 ⟨0, 22, 30⟩ (some (.path 4 ⟨0, 29, 30⟩ ⟨"x", ⟨0, 29, 30⟩⟩))) true] none),
    { scopes := ⟨⟨#[.push, .push, .push], #[crate, { boundary := true }, block]⟩, [2, 1, 0]⟩,
      owners := [⟨"f", .bool⟩] },
    { scopes := ⟨⟨#[.push], #[crate]⟩, [0]⟩ }, by decide, rfl, rfl, by decide, rfl, rfl, by decide,
    item_apart _ ⟨by decide, by decide⟩ ⟨by decide, by decide⟩ fun _ => rfl⟩

end Ferrite.Check
