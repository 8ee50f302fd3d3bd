import Ferrite.Proofs.Lower.Visits

/-!
The names in sight while a program is lowered. They stand for the same things as when it was
checked: functions by the record, whose frames were complete before anything was looked up in
them, and locals by the names that lowering keeps itself.
-/

namespace Ferrite

namespace Scope

/-- The frame and the type of the local that a name stands for. -/
def findBinding? (name : String) : List (Nat × Frame) → Option (Nat × Ty)
  | [] => none
  | (k, f) :: fs =>
      match f.local? name with
      | some t => some (k, t)
      | none => if f.boundary then none else findBinding? name fs

def Stack.binding? (s : Stack) (name : String) : Option (Nat × Ty) := findBinding? name s.numbered

theorem findLocal?_eq (name : String) (fs : List (Nat × Frame)) :
    findLocal? name (fs.map Prod.snd) = (findBinding? name fs).map Prod.snd := by
  induction fs with
  | nil => rfl
  | cons kf fs ih =>
    obtain ⟨k, f⟩ := kf
    rw [List.map_cons, findLocal?, findBinding?]
    cases f.local? name with
    | some t => rfl
    | none => cases f.boundary <;> simp [ih]

theorem Stack.local?_eq (s : Stack) (name : String) :
    s.local? name = (s.binding? name).map Prod.snd := by
  rw [Stack.local?, Stack.frames_eq, findLocal?_eq, Stack.binding?]

theorem findDecl?_framesAt (r : Record) (name : String) (ks : List Nat) :
    findDecl? name (r.framesAt ks) = ks.findSome? fun k => r.frames[k]?.bind (·.decl? name) := by
  induction ks with
  | nil => rfl
  | cons k ks ih =>
    rw [Record.framesAt, List.filterMap_cons, List.findSome?_cons, ← ih]
    cases r.frames[k]? <;> rfl

end Scope

namespace Lower
open Scope (Frame Replay)
open Wasm (ValType)

/-- The names of one block or function, and those of its frame. -/
def Matches (bound : String → Ty → Option Nat → Prop) (f : Frame) (g : List (String × Option Nat)) :
    Prop :=
  ∀ name, Option.Rel (bound name) (f.local? name) (g.lookup name)

/-- The names in sight in a function, and those of its frames. -/
inductive Mirrors (bound : Nat → String → Ty → Option Nat → Prop) :
    List (Nat × Frame) → List (List (String × Option Nat)) → Prop
  | function {k : Nat} {f : Frame} {g : List (String × Option Nat)} {rest : List (Nat × Frame)}
      (boundary : f.boundary = true) (here : Matches (bound k) f g) : Mirrors bound ((k, f) :: rest) [g]
  | block {k : Nat} {f : Frame} {g : List (String × Option Nat)} {rest : List (Nat × Frame)}
      {gs : List (List (String × Option Nat))} (boundary : f.boundary = false)
      (here : Matches (bound k) f g) (around : Mirrors bound rest gs) :
      Mirrors bound ((k, f) :: rest) (g :: gs)

section

variable {bound bound' : Nat → String → Ty → Option Nat → Prop} {fs : List (Nat × Frame)}
  {gs : List (List (String × Option Nat))}

theorem rel_mono {α β : Type} {r r' : α → β → Prop} (h : ∀ a b, r a b → r' a b) {a : Option α}
    {b : Option β} (hr : Option.Rel r a b) : Option.Rel r' a b := by
  cases hr with
  | none => exact .none
  | some hab => exact .some (h _ _ hab)

theorem Mirrors.mono (h : Mirrors bound fs gs) (hb : ∀ k name t slot, bound k name t slot →
    bound' k name t slot) : Mirrors bound' fs gs := by
  induction h with
  | function boundary here =>
    exact .function boundary fun name => rel_mono (hb _ name) (here name)
  | block boundary here _ ih =>
    exact .block boundary (fun name => rel_mono (hb _ name) (here name)) ih

/-- Looking up a name gives what was declared for it in the same frame. -/
theorem Mirrors.lookup (h : Mirrors bound fs gs) (name : String) :
    Option.Rel (fun b slot => bound b.1 name b.2 slot) (Scope.findBinding? name fs)
      (gs.findSome? (·.lookup name)) := by
  induction h with
  | @function k f g rest boundary here =>
    have hname := here name
    rw [Scope.findBinding?, List.findSome?_cons]
    generalize f.local? name = l at hname
    generalize g.lookup name = slot at hname
    cases hname with
    | none =>
      rw [boundary]
      exact .none
    | some hb => exact .some hb
  | @block k f g rest gs boundary here _ ih =>
    have hname := here name
    rw [Scope.findBinding?, List.findSome?_cons]
    generalize f.local? name = l at hname
    generalize g.lookup name = slot at hname
    cases hname with
    | none =>
      rw [boundary]
      exact ih
    | some hb => exact .some hb

/-- Declaring a name in the innermost frame on both sides. -/
theorem Matches.cons {bound : String → Ty → Option Nat → Prop} {f : Frame}
    {g : List (String × Option Nat)} (h : Matches bound f g) {name : String} {t : Ty} {slot : Option Nat}
    (hb : bound name t slot) :
    Matches bound { f with locals := (name, t) :: f.locals } ((name, slot) :: g) := by
  intro other
  have hother := h other
  rw [Frame.local?] at hother ⊢
  rw [List.lookup_cons, List.lookup_cons]
  by_cases heq : other = name
  · rw [heq, beq_self_eq_true]
    exact .some hb
  · rw [beq_false_of_ne heq]
    exact hother

theorem matches_of_forall₂ {bound : String → Ty → Option Nat → Prop} {f : Frame}
    {g : List (String × Option Nat)}
    (h : List.Forall₂ (fun l s => l.1 = s.1 ∧ bound l.1 l.2 s.2) f.locals g) : Matches bound f g := by
  intro name
  rw [Frame.local?]
  generalize f.locals = locals at h
  induction h with
  | nil => exact .none
  | @cons l s locals g hls _ ih =>
    obtain ⟨n, t⟩ := l
    obtain ⟨m, slot⟩ := s
    obtain ⟨heq, hb⟩ := hls
    cases heq
    rw [List.lookup_cons, List.lookup_cons]
    by_cases hn : name = n
    · rw [hn, beq_self_eq_true]
      exact .some hb
    · rw [beq_false_of_ne hn]
      exact ih

end

/-- What is fixed while a program is lowered: the record, what each name gets, and whether all
parameters have types. -/
structure Setting where
  record : Scope.Record
  declared : List Declaration
  typed : Prop

/-- The types of the parameters, where they have values. -/
def paramTypes (h : Header) : List ValType :=
  h.signature.params.filterMap fun t =>
    match valType t with
    | .ok v => v
    | .error _ => none

/-- A local of the given index holds values of the type, or there is none as it has no values. -/
def Fits (locals : List ValType) (t : Ty) : Option Nat → Prop
  | none => valType t = .ok none
  | some i => ∃ v, valType t = .ok (some v) ∧ locals[i]? = some v

/-- What a name in a frame of a function got. -/
def Setting.Bound (S : Setting) (h : Header) (locals : List ValType) (k : Nat) (name : String) (t : Ty)
    (slot : Option Nat) : Prop :=
  ⟨h.id, k, name, slot⟩ ∈ S.declared ∧ (S.typed → Fits (paramTypes h ++ locals) t slot)

/-- A state of lowering beside that of checking: the same scopes are open. -/
structure Beside (S : Setting) (σ : Check.State) (τ : State) : Prop where
  valid : σ.scopes.Valid
  record : τ.replay.record = S.record
  nextFrame : τ.replay.nextFrame = σ.scopes.record.frames.size
  opened : τ.replay.opened = σ.scopes.opened

/-- The same names are in sight, in a function. -/
structure Sim (S : Setting) (h : Header) (σ : Check.State) (τ : State) : Prop extends Beside S σ τ where
  params : τ.locals.params = h.params.length
  mirrors : Mirrors (S.Bound h τ.locals.types) σ.scopes.numbered τ.locals.frames

/-- Nothing was reported up to a state, and its frames declare the functions that they have in the
end. -/
structure Over (S : Setting) (σ : Check.State) : Prop where
  problems : σ.problems = []
  decls : ∀ (k : Nat) (f : Frame), σ.scopes.record.frames[k]? = some f →
    ∃ f', S.record.frames[k]? = some f' ∧ f'.decls = f.decls

variable {S : Setting} {h : Header} {σ σ' : Check.State} {τ τ' : State} {own : Bool}
  {nodes defs : List NodeId} {passed : List Scope.Event}

theorem Over.before (ho : Over S σ') (hg : Check.Grows own nodes passed σ σ') : Over S σ where
  problems := Check.silent_of_suffix hg.problems ho.problems
  decls k f hf := by
    obtain ⟨f', hf', -, hd', -⟩ := hg.scopes.shape k f hf
    obtain ⟨f'', hf'', hd''⟩ := ho.decls k f' hf'
    exact ⟨f'', hf'', hd''.trans hd'⟩

theorem Over.reports {α : Type} {act : Check.Checker α} (hr : Check.Reports act)
    (ho : Over S (Check.after act σ)) : Over S σ :=
  ho.before (hr.grows true σ)

theorem Over.leave {owners : List Check.Owner} (ho : Over S { σ with scopes := σ.scopes.leave, owners }) :
    Over S σ where
  problems := ho.problems
  decls k f hf := ho.decls k f (by rw [Scope.Stack.frames_leave]; exact hf)

theorem Over.recorded {id : NodeId} {act : Check.Checker Ty}
    (ho : Over S (Check.after (Check.recorded id act) σ)) : Over S (Check.after act σ) :=
  ⟨ho.problems, ho.decls⟩

namespace Beside

theorem past (hb : Beside S σ τ) (hc : Check.Grows false nodes passed σ σ')
    (hl : Grows false defs passed τ τ') : Beside S σ' τ' where
  valid := hc.scopes.valid hb.valid
  record := hl.replay.record.trans hb.record
  nextFrame := by rw [hl.replay.nextFrame, hb.nextFrame, hc.scopes.size]
  opened := by rw [hl.replay.opened, hb.opened, hc.scopes.opened]

/-- Both sides open the next scope. -/
theorem inside (hb : Beside S σ τ) (hc : σ.scopes.Opens σ'.scopes) (hl : τ'.replay = entered τ.replay) :
    Beside S σ' τ' where
  valid := hc.valid hb.valid
  record := by
    rw [hl]
    exact hb.record
  nextFrame := by
    rw [hl, hc.size, ← hb.nextFrame]
    rfl
  opened := by
    rw [hl, hc.opened, ← hb.nextFrame, ← hb.opened]
    rfl

/-- Functions are found where they were found before. -/
theorem decl? (hb : Beside S σ τ) (ho : Over S σ) (name : String) :
    τ.replay.decl? name = σ.scopes.decl? name := by
  rw [Replay.decl?, Replay.frames, Scope.Stack.decl?, Scope.Stack.frames, hb.record, hb.opened,
    Scope.findDecl?_framesAt, Scope.findDecl?_framesAt]
  have hframe : ∀ k ∈ σ.scopes.opened, S.record.frames[k]?.bind (·.decl? name) =
      σ.scopes.record.frames[k]?.bind (·.decl? name) := by
    intro k hk
    have hf := Array.getElem?_eq_getElem (hb.valid.bound k hk)
    obtain ⟨f', hf', hd⟩ := ho.decls k _ hf
    rw [hf, hf', Option.bind_some, Option.bind_some, Frame.decl?, Frame.decl?, hd]
  generalize σ.scopes.opened = ks at hframe
  induction ks with
  | nil => rfl
  | cons k ks ih =>
    rw [List.findSome?_cons, List.findSome?_cons, hframe k List.mem_cons_self,
      ih fun i hi => hframe i (List.mem_cons_of_mem _ hi)]

end Beside

theorem Fits.mono {locals locals' : List ValType} {t : Ty} {slot : Option Nat}
    (hf : Fits locals t slot) (hp : locals <+: locals') : Fits locals' t slot := by
  cases slot with
  | none => exact hf
  | some i =>
    obtain ⟨v, ht, hi⟩ := hf
    obtain ⟨rest, rfl⟩ := hp
    obtain ⟨hlt, -⟩ := List.getElem?_eq_some_iff.mp hi
    exact ⟨v, ht, by rw [List.getElem?_append_left hlt, hi]⟩

namespace Sim

theorem past (hs : Sim S h σ τ) (hc : Check.Grows false nodes passed σ σ')
    (hl : Grows false defs passed τ τ') : Sim S h σ' τ' where
  toBeside := hs.toBeside.past hc hl
  params := hl.params.trans hs.params
  mirrors := by
    rw [hc.scopes.numbered hs.valid, hl.frames rfl]
    refine hs.mirrors.mono ?_
    intro k name t slot hb
    exact ⟨hb.1, fun ht => (hb.2 ht).mono ((List.prefix_append_right_inj _).mpr hl.types)⟩

theorem report {α : Type} {act : Check.Checker α} (hs : Sim S h σ τ) (hr : Check.Reports act) :
    Sim S h (Check.after act σ) τ :=
  hs.past (hr.grows false σ) (.refl false τ)

/-- A local stands for what was declared for it, on both sides. -/
theorem lookup_some (hs : Sim S h σ τ) {name : String} {t : Ty} (hl : σ.scopes.local? name = some t) :
    ∃ k slot, σ.scopes.binding? name = some (k, t) ∧ τ.locals.lookup name = some slot ∧
      S.Bound h τ.locals.types k name t slot := by
  have hlookup := hs.mirrors.lookup name
  rw [Scope.Stack.local?_eq, Option.map_eq_some_iff] at hl
  obtain ⟨⟨k, u⟩, hb, rfl⟩ := hl
  rw [Scope.Stack.binding?] at hb
  rw [hb] at hlookup
  rw [Locals.lookup]
  generalize τ.locals.frames.findSome? (·.lookup name) = found at hlookup ⊢
  cases hlookup with
  | some hbound => exact ⟨k, _, hb, rfl, hbound⟩

theorem lookup_none (hs : Sim S h σ τ) {name : String} (hl : σ.scopes.local? name = none) :
    τ.locals.lookup name = none := by
  have hlookup := hs.mirrors.lookup name
  rw [Scope.Stack.local?_eq, Option.map_eq_none_iff, Scope.Stack.binding?] at hl
  rw [hl] at hlookup
  rw [Locals.lookup]
  generalize τ.locals.frames.findSome? (·.lookup name) = found at hlookup ⊢
  cases hlookup
  rfl

/-- At the start of a block, there are no new names. -/
theorem block (hs : Sim S h σ τ) {is : List Item} (ho : Over S (Check.atBlock is σ)) :
    Sim S h (Check.atBlock is σ) τ.atBlock where
  toBeside := hs.toBeside.inside (Check.opens_atBlock is σ).scopes rfl
  params := hs.params
  mirrors := by
    have htop := Check.top_atBlock ho.problems
    rw [(Check.opens_atBlock is σ).scopes.numbered hs.valid htop.frame]
    exact .block rfl (fun _ => .none) hs.mirrors

end Sim

theorem forall₂_zipIdx {α β : Type} {r : α → β × Nat → Prop} {as : List α} {bs : List β} (start : Nat)
    (hlength : as.length = bs.length)
    (h : ∀ (i : Nat) (a : α) (b : β), as[i]? = some a → bs[i]? = some b → r a (b, start + i)) :
    List.Forall₂ r as (bs.zipIdx start) := by
  induction as generalizing bs start with
  | nil =>
    rw [List.length_nil, eq_comm, List.length_eq_zero_iff] at hlength
    subst hlength
    exact .nil
  | cons a as ih =>
    obtain ⟨b, bs, rfl⟩ := List.exists_cons_of_length_eq_add_one hlength.symm
    rw [List.zipIdx_cons]
    refine .cons (h 0 a b rfl rfl) (ih (start + 1) (Nat.succ.inj hlength) ?_)
    intro i a' b' ha hb
    have hi := h (i + 1) a' b' ha hb
    rw [Nat.add_assoc, Nat.add_comm 1 i]
    exact hi

/-- The parameters of a function beside the locals that they get. -/
theorem matches_parameters {bound : String → Ty → Option Nat → Prop}
    (hlength : h.params.length = h.signature.params.length)
    (hb : ∀ (i : Nat) (p : Ident) (t : Ty), h.params[i]? = some p → h.signature.params[i]? = some t →
      bound p.text t (some i)) :
    Matches bound { boundary := true, locals := Check.paramLocals h }
      (h.params.zipIdx.map fun (p, i) => (p.text, some i)).reverse := by
  refine matches_of_forall₂ ?_
  rw [Check.paramLocals, List.forall₂_reverse_iff, List.forall₂_map_left_iff, List.forall₂_map_right_iff]
  refine forall₂_zipIdx 0 ?_ ?_
  · rw [List.length_zip]
    omega
  · rintro i ⟨p, t⟩ q hpt hq
    rw [List.getElem?_zip_eq_some] at hpt
    rw [hpt.1, Option.some_inj] at hq
    subst hq
    rw [Nat.zero_add]
    exact ⟨rfl, hb i p t hpt.1 hpt.2⟩

theorem isUnsupported_of_valType {t : Ty} {v : Option ValType} (h : valType t = .ok v) :
    t.isUnsupported = false := by
  unfold valType at h
  split at h <;> first | rfl | cases h

/-- All parameters of the function have values, which are of the given types. -/
def HasParams (h : Header) : Prop :=
  List.Forall₂ (fun t v => valType t = .ok (some v)) h.signature.params (paramTypes h)

theorem paramTypes_eq {vs : List ValType}
    (hp : List.Forall₂ (fun t v => valType t = .ok (some v)) h.signature.params vs) : paramTypes h = vs := by
  unfold paramTypes
  generalize h.signature.params = ps at hp
  induction hp with
  | nil => rfl
  | cons ht _ ih =>
    rw [List.filterMap_cons, ht, ih]

theorem hasParams_of_forall₂ {vs : List ValType}
    (hp : List.Forall₂ (fun t v => valType t = .ok (some v)) h.signature.params vs) : HasParams h := by
  rw [HasParams, paramTypes_eq hp]
  exact hp

theorem forall₂_getElem? {α β : Type} {r : α → β → Prop} {as : List α} {bs : List β}
    (h : List.Forall₂ r as bs) {i : Nat} {a : α} (ha : as[i]? = some a) : ∃ b, bs[i]? = some b ∧ r a b := by
  induction h generalizing i with
  | nil => cases ha
  | cons hab _ ih =>
    cases i with
    | zero =>
      cases ha
      exact ⟨_, rfl, hab⟩
    | succ i => exact ih ha

/-- What a `let` statement does to the names, given the type that is noted for it. -/
theorem binding_ok {env : Env} {id : NodeId} {name : Ident} {is : List Wasm.Instr} {t : Ty}
    (hrun : binding env id name τ = .ok is τ') (ht : env.types.get? id = some t) :
    (∃ v, valType t = .ok (some v) ∧ is = [.localSet (τ.locals.add v).1] ∧
      τ' = { τ with locals := (τ.locals.add v).2.declare name.text (some (τ.locals.add v).1) }) ∨
      valType t = .ok none ∧ is = [] ∧ τ' = { τ with locals := τ.locals.declare name.text none } := by
  obtain ⟨v, τ₁, hv, hrun⟩ := run_bind_ok hrun
  obtain ⟨u, hu, hvalue, rfl⟩ := valueOf_ok hv
  rw [ht] at hu
  cases hu
  cases v with
  | some v =>
    cases hrun
    exact .inl ⟨v, hvalue, rfl, rfl⟩
  | none =>
    cases hrun
    exact .inr ⟨hvalue, rfl, rfl⟩

theorem Mirrors.declare {bound : Nat → String → Ty → Option Nat → Prop} {k : Nat} {f : Frame}
    {rest : List (Nat × Frame)} {l : Locals} {name : String} {t : Ty} {slot : Option Nat}
    (hm : Mirrors bound ((k, f) :: rest) l.frames) (hb : bound k name t slot) :
    Mirrors bound ((k, { f with locals := (name, t) :: f.locals }) :: rest)
      (l.declare name slot).frames := by
  unfold Locals.declare
  split
  · rename_i hnil
    rw [hnil] at hm
    cases hm
  · rename_i g gs hcons
    rw [hcons] at hm
    cases hm with
    | function boundary here => exact .function boundary (here.cons hb)
    | block boundary here around => exact .block boundary (here.cons hb) around

theorem Mirrors.lookup_declare {bound : Nat → String → Ty → Option Nat → Prop} {fs : List (Nat × Frame)}
    {l : Locals} {name : String} {slot : Option Nat} (hm : Mirrors bound fs l.frames) :
    (l.declare name slot).lookup name = some slot := by
  unfold Locals.declare Locals.lookup
  split
  · rename_i hnil
    rw [hnil] at hm
    cases hm
  · rw [List.findSome?_cons, List.lookup_cons_self]

namespace Sim

/-- A function has an open scope. -/
theorem opened_cons (hs : Sim S h σ τ) : σ.scopes.opened.isEmpty = false := by
  have hm := hs.mirrors
  cases hopened : σ.scopes.opened with
  | nil =>
    rw [Scope.Stack.numbered, hopened] at hm
    cases hm
  | cons k rest => rfl

/-- At the start of a function, its parameters are in sight. -/
theorem function (hb : Beside S σ τ) (ho : Over S (Check.atFunction h σ)) (hsound : h.Sound)
    (hd : ∀ (i : Nat) (p : Ident), h.params[i]? = some p →
      ⟨h.id, σ.scopes.record.frames.size, p.text, some i⟩ ∈ S.declared)
    (ht : S.typed → HasParams h) :
    Sim S h (Check.atFunction h σ) (τ.atFunction h) where
  toBeside := hb.inside (Check.opens_atFunction h σ).scopes rfl
  params := rfl
  mirrors := by
    obtain ⟨htop, -⟩ := Check.top_atFunction ho.problems
    rw [(Check.opens_atFunction h σ).scopes.numbered hb.valid htop.frame]
    refine .function rfl (matches_parameters hsound.params ?_)
    intro i p t hp hpt
    refine ⟨hd i p hp, fun htyped => ?_⟩
    obtain ⟨v, hv, htv⟩ := forall₂_getElem? (ht htyped) hpt
    obtain ⟨hlt, -⟩ := List.getElem?_eq_some_iff.mp hv
    exact ⟨v, htv, by rw [List.getElem?_append_left hlt, hv]⟩

/-- Behind a `let` statement, its name stands for the new local. -/
theorem bind {env : Env} {id : NodeId} {name : Ident} {declared : Option Ty} {init : Expr} {t : Ty}
    {is : List Wasm.Instr} (hs : Sim S h σ τ)
    (ho : Over S (Check.after (Check.binding id name declared init t) σ))
    (hrun : binding env id name τ = .ok is τ') (hnoted : env.types.get? id = some (declared.getD t))
    (hd : ⟨h.id, σ.scopes.opened.head?.getD 0, name.text, (τ'.locals.lookup name.text).join⟩ ∈ S.declared)
    (hsound : h.Sound) (ht : S.typed → HasParams h) :
    Sim S h (Check.after (Check.binding id name declared init t) σ) τ' := by
  have hgrows := Check.grows_binding id name declared init t σ
  obtain ⟨k, f, htop⟩ := hs.valid.top hs.opened_cons
  have htop' := Check.top_binding ho.problems htop
  obtain ⟨rest, hold, hnew⟩ := hgrows.scopes.numbered_top hs.valid htop htop'
  have hmirrors := hs.mirrors
  rw [hold] at hmirrors
  rw [htop.opened, Option.getD_some] at hd
  have hgl := (Lowers.binding id name τ).ok hrun
  have hbeside : Beside S (Check.after (Check.binding id name declared init t) σ) τ' := by
    refine ⟨hgrows.scopes.valid hs.valid, hgl.replay.record.trans hs.record, ?_, ?_⟩
    · rw [hgl.replay.nextFrame, hs.nextFrame, hgrows.scopes.size]
    · rw [hgl.replay.opened, hs.opened, hgrows.scopes.opened]
  refine ⟨hbeside, hgl.params.trans hs.params, ?_⟩
  rw [hnew]
  rcases binding_ok hrun hnoted with ⟨v, hv, -, rfl⟩ | ⟨hv, -, rfl⟩
  · have hmono : Mirrors (S.Bound h (τ.locals.add v).2.types) ((k, f) :: rest)
        (τ.locals.add v).2.frames :=
      hmirrors.mono fun _ _ _ _ hb => ⟨hb.1, fun htyped => (hb.2 htyped).mono (by simp [Locals.add])⟩
    rw [hmono.lookup_declare] at hd
    have hmirrors' := hmono.declare (t := declared.getD t) ⟨hd, fun htyped => ⟨v, hv, ?_⟩⟩
    · rw [((τ.locals.add v).2.declare_rest name.text _).2.1]
      exact hmirrors'
    · have hlength : τ.locals.params = (paramTypes h).length := by
        rw [hs.params, hsound.params, (ht htyped).length_eq]
      simp [Locals.add, hlength]
  · rw [hmirrors.lookup_declare] at hd
    have hmirrors' := hmirrors.declare (t := declared.getD t) ⟨hd, fun _ => hv⟩
    rw [(τ.locals.declare_rest name.text none).2.1]
    exact hmirrors'

end Sim
end Lower
end Ferrite
