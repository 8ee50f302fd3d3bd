import Ferrite.Scope.Live
import Ferrite.Proofs.Scope.History

/-!
A stack with frames of its own does what a stack does that writes to the record at once: put the open frames to
their places, and each operation on the one is the operation on the other.
-/

namespace Ferrite.Scope

/-- The frames of a record with the open ones at their places. -/
def fill : List (Nat × Frame) → Array Frame → Array Frame
  | [], frames => frames
  | (number, f) :: rest, frames => (fill rest frames).setIfInBounds number f

section

variable {stack : List (Nat × Frame)} {frames : Array Frame}

theorem size_fill (stack : List (Nat × Frame)) (frames : Array Frame) :
    (fill stack frames).size = frames.size := by
  induction stack with
  | nil => rfl
  | cons entry rest ih => rw [fill, Array.size_setIfInBounds, ih]

theorem setIfInBounds_push (frames : Array Frame) (f g : Frame) :
    (frames.push f).setIfInBounds frames.size g = frames.push g := by
  refine Array.ext_getElem? fun k => ?_
  rw [Array.getElem?_setIfInBounds, Array.getElem?_push, Array.getElem?_push]
  by_cases hk : k = frames.size <;> simp [hk, Ne.symm]

theorem fill_push (hbound : ∀ k ∈ stack.map (·.1), k < frames.size) (f : Frame) :
    fill stack (frames.push f) = (fill stack frames).push f := by
  induction stack with
  | nil => rfl
  | cons entry rest ih =>
    obtain ⟨number, g⟩ := entry
    rw [List.map_cons, List.forall_mem_cons] at hbound
    rw [fill, fill, ih hbound.2]
    have hlt : number < (fill rest frames).size := (size_fill rest frames).symm ▸ hbound.1
    simp [Array.setIfInBounds_def, hlt, Nat.lt_succ_of_lt hlt, Array.set_push]

/-- A place that no open frame has can be written to before. -/
theorem fill_set {number : Nat} (hfree : number ∉ stack.map (·.1)) (f : Frame) :
    fill stack (frames.setIfInBounds number f) = (fill stack frames).setIfInBounds number f := by
  induction stack with
  | nil => rfl
  | cons entry rest ih =>
    rw [List.map_cons, List.mem_cons, not_or] at hfree
    rw [fill, fill, ih hfree.2, Array.setIfInBounds_comm _ _ hfree.1]

/-- Each open frame is at its place. -/
theorem filterMap_fill (hnodup : (stack.map (·.1)).Nodup) (hbound : ∀ k ∈ stack.map (·.1), k < frames.size) :
    (stack.map (·.1)).filterMap ((fill stack frames)[·]?) = stack.map (·.2) := by
  induction stack with
  | nil => rfl
  | cons entry rest ih =>
    obtain ⟨number, f⟩ := entry
    rw [List.map_cons, List.nodup_cons] at hnodup
    rw [List.map_cons, List.forall_mem_cons] at hbound
    have hlt : number < (fill rest frames).size := (size_fill rest frames).symm ▸ hbound.1
    rw [List.map_cons, List.map_cons, fill, List.filterMap_cons_some (Array.getElem?_setIfInBounds_self_of_lt hlt),
      ← ih hnodup.2 hbound.2]
    refine congrArg _ (List.filterMap_congr fun k hk => ?_)
    refine Array.getElem?_setIfInBounds_ne ?_
    rintro rfl
    exact hnodup.1 hk

theorem fill_modify (number : Nat) (f : Frame) (rest : List (Nat × Frame)) (frames : Array Frame)
    (change : Frame → Frame) :
    fill ((number, change f) :: rest) frames = (fill ((number, f) :: rest) frames).modify number change := by
  refine Array.ext_getElem? fun k => ?_
  rw [fill, fill, Array.getElem?_modify, Array.getElem?_setIfInBounds, Array.getElem?_setIfInBounds]
  by_cases hk : number = k <;> simp [hk]

end

namespace Live

def apply (l : Live) : Op → Live
  | .enter => l.enter
  | .enterFunction => l.enterFunction
  | .leave => l.leave
  | .insertLocal name t => (l.insertLocal name t).2
  | .insertDecl d => (l.insertDecl d).2

def perform (l : Live) (ops : List Op) : Live := ops.foldl apply l

/-- The stack whose record has the open frames as they are so far. -/
def settled (l : Live) : Stack where
  record := { l.record with frames := fill l.stack l.record.frames }
  opened := l.stack.map (·.1)

variable {l : Live}

theorem bound_of_settled (h : l.settled.Valid) : ∀ k ∈ l.stack.map (·.1), k < l.record.frames.size := by
  intro k hk
  have hlt := h.bound k hk
  rwa [settled, size_fill] at hlt

/-- What is looked up is looked up in the same frames. -/
theorem frames_settled (h : l.settled.Valid) : l.settled.frames = l.frames :=
  filterMap_fill h.nodup (bound_of_settled h)

theorem settled_push (h : l.settled.Valid) (boundary : Bool) :
    (l.push boundary).settled = l.settled.push boundary := by
  have hplace : fill ((l.record.frames.size, { boundary }) :: l.stack) (l.record.frames.push { boundary := false }) =
      (fill l.stack l.record.frames).push { boundary } := by
    rw [fill, fill_push (bound_of_settled h), ← size_fill l.stack l.record.frames, setIfInBounds_push]
  simp only [settled, push, hplace, Stack.push, List.map_cons, size_fill]

theorem settled_leave (h : l.settled.Valid) : l.leave.settled = l.settled.leave := by
  obtain ⟨stack, record⟩ := l
  cases stack with
  | nil => rfl
  | cons entry rest =>
    have hfree := (List.nodup_cons.mp h.nodup).1
    simp only [leave, settled, Stack.leave, Record.close, List.map_cons, fill, fill_set hfree]

/-- A change to the innermost frame is a change at its place. -/
theorem settled_modifyTop (number : Nat) (f : Frame) (rest : List (Nat × Frame)) (record : Record)
    (change : Frame → Frame) : settled ⟨(number, change f) :: rest, record⟩ =
      (settled ⟨(number, f) :: rest, record⟩).modifyTop change := by
  simp only [settled, Stack.modifyTop, fill_modify, List.map_cons]

theorem settled_insertLocal (h : l.settled.Valid) (name : String) (t : Ty) :
    l.settled.insertLocal name t = ((l.insertLocal name t).1, (l.insertLocal name t).2.settled) := by
  have hhere : l.settled.localHere? name = l.localHere? name := by
    rw [Stack.localHere?, frames_settled h, localHere?]
  obtain ⟨stack, record⟩ := l
  cases stack with
  | nil => rfl
  | cons entry rest =>
    obtain ⟨number, f⟩ := entry
    have htop : localHere? ⟨(number, f) :: rest, record⟩ name = f.local? name := rfl
    have hopen : (settled ⟨(number, f) :: rest, record⟩).opened.isEmpty = false := rfl
    have hadd := settled_modifyTop number f rest record (·.addLocal name t)
    rw [Stack.insertLocal, hopen, hhere, htop, insertLocal, ← hadd]
    cases hlocal : f.local? name <;> simp [Frame.addLocal, hlocal]

theorem settled_insertDecl (h : l.settled.Valid) (d : Decl) :
    l.settled.insertDecl d = ((l.insertDecl d).1, (l.insertDecl d).2.settled) := by
  have hhere : l.settled.declHere? d.name = l.declHere? d.name := by
    rw [Stack.declHere?, frames_settled h, declHere?]
  obtain ⟨stack, record⟩ := l
  cases stack with
  | nil => rfl
  | cons entry rest =>
    obtain ⟨number, f⟩ := entry
    have htop : declHere? ⟨(number, f) :: rest, record⟩ d.name = f.decl? d.name := rfl
    have hopen : (settled ⟨(number, f) :: rest, record⟩).opened.isEmpty = false := rfl
    have hadd := settled_modifyTop number f rest record (·.addDecl d)
    rw [Stack.insertDecl, hopen, hhere, htop, insertDecl, ← hadd]
    cases hdecl : f.decl? d.name <;> simp [Frame.addDecl, hdecl]

theorem settled_apply (h : l.settled.Valid) (op : Op) : (l.apply op).settled = l.settled.apply op := by
  cases op with
  | enter => exact settled_push h false
  | enterFunction => exact settled_push h true
  | leave => exact settled_leave h
  | insertLocal name t => exact (congrArg Prod.snd (settled_insertLocal h name t)).symm
  | insertDecl d => exact (congrArg Prod.snd (settled_insertDecl h d)).symm

theorem perform_cons (l : Live) (op : Op) (ops : List Op) : l.perform (op :: ops) = (l.apply op).perform ops := rfl

theorem settled_perform (h : l.settled.Valid) (ops : List Op) :
    (l.perform ops).settled = l.settled.perform ops := by
  induction ops generalizing l with
  | nil => rfl
  | cons op ops ih =>
    have hop : (l.apply op).settled.Valid := settled_apply h op ▸ h.apply op
    rw [perform_cons, ih hop, settled_apply h op, Stack.perform_cons]

/-- In the end every frame is at its place. -/
theorem finish_settled (h : l.settled.Valid) : l.settled.finish = l.finish := by
  obtain ⟨stack, record⟩ := l
  induction stack generalizing record with
  | nil => simp [finish, Stack.finish, settled, fill, Stack.depth]
  | cons entry rest ih =>
    have hleave := settled_leave h
    have hrest := ih (record.close entry.1 entry.2) (hleave ▸ h.leave)
    have hfinish : finish ⟨entry :: rest, record⟩ = finish ⟨rest, record.close entry.1 entry.2⟩ := rfl
    rw [hfinish, ← hrest]
    show _ = (leave ⟨entry :: rest, record⟩).settled.finish
    rw [hleave, Stack.finish_leave]

theorem valid_empty : ({} : Live).settled.Valid := Stack.valid_empty

/-- A history has one record, wherever the open frames are held. -/
theorem finish_perform (ops : List Op) :
    (({} : Live).perform ops).finish = (({} : Stack).perform ops).finish := by
  have hsettled := settled_perform valid_empty ops
  have hvalid : (({} : Live).perform ops).settled.Valid := hsettled ▸ Stack.valid_empty.perform ops
  rw [← finish_settled hvalid, hsettled]
  rfl

end Live
end Ferrite.Scope
