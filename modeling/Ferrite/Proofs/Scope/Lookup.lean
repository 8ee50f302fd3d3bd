import Mathlib.Data.List.Induction
import Ferrite.Proofs.Scope.Replay

/-!
Names looked up in a replay. A record has every frame as it was in the end, and a stack as it is so far. As
long as nothing more is put into the frames that are open, a replay that is as far as the stack was finds what
the stack found.
-/

namespace Ferrite.Scope

namespace Stack

/-- The number of the frame that an operation puts a name into. A name that is taken there is not put. -/
def written? (s : Stack) : Op → Option Nat
  | .insertLocal name t => if (s.insertLocal name t).1 then s.opened.head? else none
  | .insertDecl d => if (s.insertDecl d).1 then s.opened.head? else none
  | .enter | .enterFunction | .leave => none

variable {s : Stack} {k : Nat} {f : Frame}

theorem opened_of_head? (hk : s.opened.head? = some k) : s.opened.isEmpty = false := by
  obtain ⟨rest, hopened⟩ := List.head?_eq_some_iff.mp hk
  rw [hopened, List.isEmpty_cons]

theorem head?_frames (hf : s.record.frames[k]? = some f) (hk : s.opened.head? = some k) :
    s.frames.head? = some f := by
  obtain ⟨rest, hopened⟩ := List.head?_eq_some_iff.mp hk
  rw [frames, Record.framesAt, hopened, List.filterMap_cons, hf, List.head?_cons]

/-- A local that is not put into the innermost frame is declared there already. -/
theorem isSome_local?_of_written? (hf : s.record.frames[k]? = some f) (hk : s.opened.head? = some k)
    {name : String} {t : Ty} (h : s.written? (.insertLocal name t) ≠ some k) : (f.local? name).isSome := by
  have hhere : s.localHere? name = f.local? name := by rw [localHere?, head?_frames hf hk, Option.bind_some]
  rw [written?, insertLocal, opened_of_head? hk, hhere, hk] at h
  cases hlocal : f.local? name with
  | some _ => rfl
  | none =>
    rw [hlocal] at h
    exact absurd rfl h

theorem isSome_decl?_of_written? (hf : s.record.frames[k]? = some f) (hk : s.opened.head? = some k)
    {d : Decl} (h : s.written? (.insertDecl d) ≠ some k) : (f.decl? d.name).isSome := by
  have hhere : s.declHere? d.name = f.decl? d.name := by rw [declHere?, head?_frames hf hk, Option.bind_some]
  rw [written?, insertDecl, opened_of_head? hk, hhere, hk] at h
  cases hdecl : f.decl? d.name with
  | some _ => rfl
  | none =>
    rw [hdecl] at h
    exact absurd rfl h

/-- A frame that an operation puts no name into stays as it is. -/
theorem frame_apply (hf : s.record.frames[k]? = some f) (op : Op) (hop : s.written? op ≠ some k) :
    (s.apply op).record.frames[k]? = some f := by
  cases op with
  | enter => exact frame_push hf false
  | enterFunction => exact frame_push hf true
  | leave => exact (frames_leave s).symm ▸ hf
  | insertLocal name t =>
    rw [apply, insertLocal, frame_modifyTop hf]
    split
    case isTrue hk => rw [Frame.addLocal, if_pos (isSome_local?_of_written? hf hk hop)]
    case isFalse => rfl
  | insertDecl d =>
    rw [apply, insertDecl, frame_modifyTop hf]
    split
    case isTrue hk => rw [Frame.addDecl, if_pos (isSome_decl?_of_written? hf hk hop)]
    case isFalse => rfl

theorem perform_append (s : Stack) (ops ops' : List Op) :
    s.perform (ops ++ ops') = (s.perform ops).perform ops' := List.foldl_append

end Stack

namespace Live

/-- The number of the frame that an operation puts a name into. A name that is taken there is not put. -/
def written? (l : Live) : Op → Option Nat
  | .insertLocal name t => if (l.insertLocal name t).1 then l.stack.head?.map (·.1) else none
  | .insertDecl d => if (l.insertDecl d).1 then l.stack.head?.map (·.1) else none
  | .enter | .enterFunction | .leave => none

/-- In the course of a history, no name is put into one of the frames. -/
def Spares (held : List Nat) : Live → List Op → Prop
  | _, [] => True
  | l, op :: ops => (∀ k ∈ l.written? op, k ∉ held) ∧ Spares held (l.apply op) ops

instance decidableSpares (held : List Nat) : (l : Live) → (ops : List Op) → Decidable (Spares held l ops)
  | _, [] => inferInstanceAs (Decidable True)
  | l, op :: ops =>
      have := decidableSpares held (l.apply op) ops
      inferInstanceAs (Decidable ((∀ k ∈ l.written? op, k ∉ held) ∧ Spares held (l.apply op) ops))

variable {l : Live}

theorem written?_settled (h : l.settled.Valid) (op : Op) : l.settled.written? op = l.written? op := by
  have htop : l.settled.opened.head? = l.stack.head?.map (·.1) := List.head?_map
  cases op with
  | insertLocal name t => rw [Stack.written?, settled_insertLocal h, htop, written?]
  | insertDecl d => rw [Stack.written?, settled_insertDecl h, htop, written?]
  | enter | enterFunction | leave => rfl

theorem Spares.frame {held : List Nat} {ops : List Op} {k : Nat} {f : Frame} (h : l.Spares held ops)
    (hv : l.settled.Valid) (hk : k ∈ held) (hf : l.settled.record.frames[k]? = some f) :
    (l.perform ops).settled.record.frames[k]? = some f := by
  induction ops generalizing l with
  | nil => exact hf
  | cons op ops ih =>
    obtain ⟨hop, hops⟩ := h
    have hsettled := settled_apply hv op
    refine ih hops (hsettled ▸ hv.apply op) (hsettled ▸ Stack.frame_apply hf op fun hwritten => ?_)
    exact hop k (written?_settled hv op ▸ hwritten) hk

end Live

/-! ## A replay beside the stack -/

/-- What goes on a record goes on before what is written to it later. -/
structure Record.Extends (r r' : Record) : Prop where
  events : r.events.toList <+: r'.events.toList
  frames : r.frames.size ≤ r'.frames.size

namespace Record.Extends

variable {r r' r'' : Record}

theorem trans (h : r.Extends r') (h' : r'.Extends r'') : r.Extends r'' :=
  ⟨h.events.trans h'.events, Nat.le_trans h.frames h'.frames⟩

end Record.Extends

namespace Stack

/-- The event that an operation adds, if it adds one. -/
def event? (s : Stack) : Op → Option Event
  | .enter | .enterFunction => some .push
  | .leave => if s.opened = [] then none else some .pop
  | .insertLocal .. | .insertDecl _ => none

theorem events_apply (s : Stack) (op : Op) :
    (s.apply op).record.events.toList = s.record.events.toList ++ (s.event? op).toList := by
  cases op with
  | enter => exact (Opens.push s false).events
  | enterFunction => exact (Opens.push s true).events
  | leave =>
    cases h : s.opened with
    | nil => simp [apply, leave_of_nil h, event?, h]
    | cons k rest => simp [apply, leave, event?, h]
  | insertLocal name t => simp [apply, insertLocal, events_modifyTop, event?]
  | insertDecl d => simp [apply, insertDecl, events_modifyTop, event?]

theorem extends_apply (s : Stack) (op : Op) : s.record.Extends (s.apply op).record where
  events := events_apply s op ▸ List.prefix_append _ _
  frames := by
    cases op with
    | enter => exact (Opens.push s false).size ▸ Nat.le_succ _
    | enterFunction => exact (Opens.push s true).size ▸ Nat.le_succ _
    | leave => exact Nat.le_of_eq (congrArg Array.size (frames_leave s).symm)
    | insertLocal name t => exact Nat.le_of_eq (size_modifyTop s _).symm
    | insertDecl d => exact Nat.le_of_eq (size_modifyTop s _).symm

theorem extends_perform (s : Stack) (ops : List Op) : s.record.Extends (s.perform ops).record := by
  induction ops generalizing s with
  | nil => exact ⟨List.prefix_rfl, Nat.le_refl _⟩
  | cons op ops ih => exact (extends_apply s op).trans (ih (s.apply op))

theorem extends_finish (s : Stack) : s.record.Extends s.finish where
  events := by simp [finish]
  frames := Nat.le_refl _

end Stack

namespace Replay

variable {r r' : Replay} {s : Stack}

/-- The replay is as far as the stack. -/
structure Abreast (s : Stack) (r : Replay) : Prop where
  nextEvent : r.nextEvent = s.record.events.size
  nextFrame : r.nextFrame = s.record.frames.size
  opened : r.opened = s.opened

theorem make_append (es fs : List Event) (r : Replay) :
    make (es ++ fs) r = ((make es r).1 ++ (make fs (make es r).2).1, (make fs (make es r).2).2) := by
  induction es generalizing r with
  | nil => rfl
  | cons e es ih =>
    rw [List.cons_append, make, make]
    cases call e r with
    | ok _ r' => simp only [ih, List.cons_append]
    | error _ r' => exact ih r'

theorem make_singleton {e : Event} (h : call e r = .ok () r') : make [e] r = ([e], r') := by
  rw [make, h]
  rfl

/-- The next event of a record that goes on with it. -/
theorem Abreast.next (h : Abreast s r) {e : Event}
    (he : s.record.events.toList ++ [e] <+: r.record.events.toList) :
    r.record.events[r.nextEvent]? = some e := by
  obtain ⟨rest, hrest⟩ := he
  rw [h.nextEvent, ← Array.getElem?_toList, ← Array.length_toList, ← hrest]
  simp

/-- A replay keeps abreast of an operation by the call that goes with its event. -/
theorem Abreast.apply (h : Abreast s r) (op : Op) (hrecord : (s.apply op).record.Extends r.record) :
    ∃ r', make (s.event? op).toList r = ((s.event? op).toList, r') ∧ r'.record = r.record ∧
      Abreast (s.apply op) r' := by
  have hevents := hrecord.events
  rw [Stack.events_apply] at hevents
  have hpush : ∀ boundary, s.record.events.toList ++ [.push] <+: r.record.events.toList →
      (s.push boundary).record.frames.size ≤ r.record.frames.size →
      ∃ r', make [.push] r = ([.push], r') ∧ r'.record = r.record ∧ Abreast (s.push boundary) r' := by
    intro boundary hevents hframes
    rw [(Stack.Opens.push s boundary).size] at hframes
    refine ⟨_, make_singleton (entering_next (h.next hevents) (by rw [h.nextFrame]; exact hframes)), rfl, ?_⟩
    exact {
      nextEvent := by simp [Stack.push, h.nextEvent]
      nextFrame := by simp [Stack.push, h.nextFrame]
      opened := by simp [Stack.push, h.nextFrame, h.opened] }
  have hwrite : ∀ f : Frame → Frame, Abreast (s.modifyTop f) r := fun f => {
    nextEvent := by rw [Stack.events_modifyTop, h.nextEvent]
    nextFrame := by rw [Stack.size_modifyTop, h.nextFrame]
    opened := by rw [Stack.opened_modifyTop, h.opened] }
  cases op with
  | enter => exact hpush false hevents hrecord.frames
  | enterFunction => exact hpush true hevents hrecord.frames
  | insertLocal name t => exact ⟨r, rfl, rfl, hwrite _⟩
  | insertDecl d => exact ⟨r, rfl, rfl, hwrite _⟩
  | leave =>
    cases hopened : s.opened with
    | nil =>
      rw [Stack.apply, Stack.leave_of_nil hopened, Stack.event?, if_pos hopened]
      exact ⟨r, rfl, rfl, h⟩
    | cons k rest =>
      have hsome : s.event? .leave = some .pop := by rw [Stack.event?, if_neg (by simp [hopened])]
      rw [hsome] at hevents ⊢
      refine ⟨_, make_singleton (leaving_next (h.next hevents) (h.opened.trans hopened)), rfl, ?_⟩
      exact {
        nextEvent := by simp [Stack.apply, Stack.leave, hopened, h.nextEvent]
        nextFrame := by rw [Stack.apply, Stack.frames_leave, h.nextFrame]
        opened := by rw [Stack.apply, Stack.opened_leave, hopened, List.tail_cons] }

/-- By the calls that go with the events so far, a replay gets as far as the stack. -/
theorem abreast_perform (ops : List Op) {record : Record}
    (hrecord : (({} : Stack).perform ops).record.Extends record) :
    ∃ r, make (({} : Stack).perform ops).record.events.toList { record } =
        ((({} : Stack).perform ops).record.events.toList, r) ∧
      r.record = record ∧ Abreast (({} : Stack).perform ops) r := by
  induction ops using List.reverseRecOn with
  | nil => exact ⟨{ record }, rfl, rfl, rfl, rfl, rfl⟩
  | append_singleton ops op ih =>
    rw [Stack.perform_append] at hrecord ⊢
    have hop : (({} : Stack).perform ops).perform [op] = (({} : Stack).perform ops).apply op := rfl
    rw [hop] at hrecord ⊢
    obtain ⟨r, hmake, hsame, habreast⟩ := ih ((Stack.extends_apply _ op).trans hrecord)
    obtain ⟨r', hmake', hsame', habreast'⟩ := habreast.apply op (hsame ▸ hrecord)
    refine ⟨r', ?_, hsame'.trans hsame, habreast'⟩
    rw [Stack.events_apply, make_append, hmake, hmake']

/-- A stack and a replay of what became of it find the same names where the replay is as far as the stack was,
if no name was put into one of the open frames since. -/
theorem lookups_replayed (before after : List Op) :
    let live := ({} : Live).perform before
    let record := (live.perform after).finish
    live.Spares (live.stack.map (·.1)) after →
    ∃ r, make live.record.events.toList { record } = (live.record.events.toList, r) ∧
      ∀ name, r.local? name = live.local? name ∧ r.decl? name = live.decl? name := by
  intro live record hspares
  have hlive : live.settled = ({} : Stack).perform before := Live.settled_perform Live.valid_empty before
  have hvalid : live.settled.Valid := hlive ▸ Stack.valid_empty.perform before
  have hlater : (live.perform after).settled = live.settled.perform after := Live.settled_perform hvalid after
  have hrecord : record = (live.settled.perform after).finish := by
    rw [← hlater, Live.finish_settled (hlater ▸ hvalid.perform after)]
  have hextends : live.settled.record.Extends record :=
    hrecord ▸ (Stack.extends_perform _ after).trans (Stack.extends_finish _)
  obtain ⟨r, hmake, hsame, habreast⟩ := abreast_perform before (hlive ▸ hextends)
  rw [← hlive] at hmake habreast
  refine ⟨r, hmake, ?_⟩
  have hframes : r.frames = live.frames := by
    rw [frames, hsame, habreast.opened, ← Live.frames_settled hvalid, hrecord, ← hlater]
    refine List.filterMap_congr fun k hk => ?_
    have hf := Array.getElem?_eq_getElem (hvalid.bound k hk)
    exact (hspares.frame hvalid hk hf).trans hf.symm
  exact fun name => ⟨by rw [local?, Live.local?, hframes], by rw [decl?, Live.decl?, hframes]⟩

/-- In a function, before a name of its scope is taken again, and shadowed in a scope inside and in one beside
it. -/
theorem lookups_replayed_inside :
    let before : List Op :=
      [.enter, .insertDecl ⟨0, "f", ⟨[], .unit⟩⟩, .insertLocal "x" .bool, .enter, .leave,
        .enterFunction, .insertLocal "y" .str]
    let after : List Op :=
      [.insertLocal "y" .bool, .enter, .insertLocal "y" .unit, .leave, .leave, .enter, .insertLocal "y" .never]
    let live := ({} : Live).perform before
    let record := (live.perform after).finish
    live.Spares (live.stack.map (·.1)) after ∧
      ∃ r, make live.record.events.toList { record } = (live.record.events.toList, r) ∧
        ∀ name, r.local? name = live.local? name ∧ r.decl? name = live.decl? name :=
  ⟨by decide +kernel, lookups_replayed _ _ (by decide +kernel)⟩

end Replay
end Ferrite.Scope
