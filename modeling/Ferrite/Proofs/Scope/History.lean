import Ferrite.Proofs.Scope.Growth
import Ferrite.Proofs.Tree.Scopes

/-!
What a stack of scopes records of a history of operations. The events of the record open and close
scopes that are nested in each other, and each frame has what was declared while its scope was the
innermost one.
-/

namespace Ferrite.Scope

/-- What can be done to a stack of scopes. -/
inductive Op
  | enter
  | enterFunction
  | leave
  | insertLocal (name : String) (t : Ty)
  | insertDecl (d : Decl)

namespace Stack

def apply (s : Stack) : Op → Stack
  | .enter => s.enter
  | .enterFunction => s.enterFunction
  | .leave => s.leave
  | .insertLocal name t => (s.insertLocal name t).2
  | .insertDecl d => (s.insertDecl d).2

def perform (s : Stack) (ops : List Op) : Stack := ops.foldl apply s

end Stack

/-- The events of a history, with so many scopes open before it. What it leaves open is closed. -/
def eventsOf : Nat → List Op → List Event
  | d, [] => List.replicate d .pop
  | d, .enter :: ops | d, .enterFunction :: ops => .push :: eventsOf (d + 1) ops
  | 0, .leave :: ops => eventsOf 0 ops
  | d + 1, .leave :: ops => .pop :: eventsOf d ops
  | d, .insertLocal .. :: ops | d, .insertDecl _ :: ops => eventsOf d ops

/-- What becomes of a frame in a history, with so many scopes open inside its own. -/
def Frame.past : Frame → Nat → List Op → Frame
  | f, _, [] => f
  | f, d, .enter :: ops | f, d, .enterFunction :: ops => f.past (d + 1) ops
  | f, 0, .leave :: _ => f
  | f, d + 1, .leave :: ops => f.past d ops
  | f, 0, .insertLocal name t :: ops => (f.addLocal name t).past 0 ops
  | f, 0, .insertDecl decl :: ops => (f.addDecl decl).past 0 ops
  | f, d + 1, .insertLocal .. :: ops | f, d + 1, .insertDecl _ :: ops => f.past (d + 1) ops

/-- The frames that a history opens one after the other, each with what becomes of it. -/
def framesOf : List Op → List Frame
  | [] => []
  | .enter :: ops => Frame.past { boundary := false } 0 ops :: framesOf ops
  | .enterFunction :: ops => Frame.past { boundary := true } 0 ops :: framesOf ops
  | .leave :: ops | .insertLocal .. :: ops | .insertDecl _ :: ops => framesOf ops

/-- Events of scopes that are all closed again. -/
inductive Nested : List Event → Prop
  | nil : Nested []
  | scope {inside rest : List Event} (hinside : Nested inside) (hrest : Nested rest) :
      Nested (enclosed inside ++ rest)

namespace Nested

variable {w : List Event}

theorem count (h : Nested w) : w.count .pop = w.count .push := by
  induction h with
  | nil => rfl
  | scope _ _ hinside hrest =>
    simp only [enclosed, List.count_append, List.cons_append, List.count_cons, List.count_nil,
      hinside, hrest]
    simp
    omega

/-- No scope is closed before it is opened. -/
theorem count_take (h : Nested w) (n : Nat) : (w.take n).count .pop ≤ (w.take n).count .push := by
  induction h generalizing n with
  | nil => simp
  | @scope inside rest hinside _ ihinside ihrest =>
    cases n with
    | zero => simp
    | succ n =>
      have hin := ihinside n
      have hend := ihrest (n - inside.length - 1)
      have hcount := hinside.count
      simp only [enclosed, List.cons_append, List.append_assoc, List.take_succ_cons, List.take_append,
        List.nil_append, List.count_cons, List.count_append]
      cases hk : n - inside.length with
      | zero =>
        simp
        omega
      | succ k =>
        have hall : inside.take n = inside := List.take_of_length_le (by omega)
        rw [hk, Nat.add_sub_cancel] at hend
        simp [hall, hcount]
        omega

end Nested

/-- Events that close so many open scopes, with nested scopes between. -/
def Closes : Nat → List Event → Prop
  | 0, w => Nested w
  | d + 1, w => ∃ inside rest, w = inside ++ .pop :: rest ∧ Nested inside ∧ Closes d rest

theorem Closes.scope {d : Nat} {inside rest : List Event} (h : Closes d rest) (hinside : Nested inside) :
    Closes d (enclosed inside ++ rest) := by
  cases d with
  | zero => exact Nested.scope hinside h
  | succ d =>
    obtain ⟨before, rest, rfl, hbefore, hrest⟩ := h
    exact ⟨enclosed inside ++ before, rest, by rw [List.append_assoc], .scope hinside hbefore, hrest⟩

theorem Closes.push {d : Nat} {w : List Event} (h : Closes (d + 1) w) : Closes d (.push :: w) := by
  obtain ⟨inside, rest, rfl, hinside, hrest⟩ := h
  have hscope := hrest.scope hinside
  rwa [enclosed, List.cons_append, List.append_assoc, List.cons_append, List.nil_append] at hscope

theorem closes_eventsOf (d : Nat) (ops : List Op) : Closes d (eventsOf d ops) := by
  induction ops generalizing d with
  | nil =>
    induction d with
    | zero => exact .nil
    | succ d ih => exact ⟨[], _, by rw [eventsOf, List.replicate_succ]; rfl, .nil, ih⟩
  | cons op ops ih =>
    cases op with
    | enter | enterFunction =>
      rw [eventsOf]
      exact (ih (d + 1)).push
    | leave =>
      cases d with
      | zero => exact ih 0
      | succ d => exact ⟨[], _, rfl, .nil, ih d⟩
    | insertLocal | insertDecl =>
      rw [eventsOf]
      exact ih d

theorem count_eventsOf (d : Nat) (ops : List Op) :
    (eventsOf d ops).count .push = (framesOf ops).length := by
  induction ops generalizing d with
  | nil => simp [eventsOf, framesOf, List.count_replicate]
  | cons op ops ih =>
    cases op with
    | leave => cases d <;> simp [eventsOf, framesOf, ih]
    | _ => simp [eventsOf, framesOf, ih]

namespace Stack

theorem opened_modifyTop (s : Stack) (f : Frame → Frame) : (s.modifyTop f).opened = s.opened := by
  unfold modifyTop
  split <;> rfl

theorem size_modifyTop (s : Stack) (f : Frame → Frame) :
    (s.modifyTop f).record.frames.size = s.record.frames.size := by
  unfold modifyTop
  split
  · rfl
  · exact Array.size_modify

theorem events_modifyTop (s : Stack) (f : Frame → Frame) :
    (s.modifyTop f).record.events = s.record.events := by
  unfold modifyTop
  split <;> rfl

theorem Valid.modifyTop {s : Stack} (h : s.Valid) (f : Frame → Frame) : (s.modifyTop f).Valid where
  bound := by
    rw [opened_modifyTop, size_modifyTop]
    exact h.bound
  nodup := by
    rw [opened_modifyTop]
    exact h.nodup

theorem leave_of_nil {s : Stack} (h : s.opened = []) : s.leave = s := by
  simp only [leave, h]

theorem finish_leave (s : Stack) : s.leave.finish = s.finish := by
  unfold leave
  split
  · rfl
  · rename_i hopened
    simp [finish, depth, hopened, Array.replicate_succ']

theorem opened_leave (s : Stack) : s.leave.opened = s.opened.tail := by
  unfold leave
  cases h : s.opened with
  | nil => exact h
  | cons top rest => rfl

theorem Valid.leave {s : Stack} (h : s.Valid) : s.leave.Valid where
  bound k hk := by
    rw [frames_leave]
    rw [opened_leave] at hk
    exact h.bound k (List.mem_of_mem_tail hk)
  nodup := by
    rw [opened_leave]
    exact h.nodup.tail

theorem Valid.apply {s : Stack} (h : s.Valid) (op : Op) : (s.apply op).Valid := by
  cases op with
  | enter => exact (Opens.push s false).valid h
  | enterFunction => exact (Opens.push s true).valid h
  | leave => exact h.leave
  | insertLocal name t => exact h.modifyTop _
  | insertDecl d => exact h.modifyTop _

theorem Valid.perform {s : Stack} (h : s.Valid) (ops : List Op) : (s.perform ops).Valid := by
  induction ops generalizing s with
  | nil => exact h
  | cons op ops ih => exact ih (h.apply op)

theorem perform_cons (s : Stack) (op : Op) (ops : List Op) :
    s.perform (op :: ops) = (s.apply op).perform ops := rfl

/-- A history behind a stack adds its own events. -/
theorem events_perform (s : Stack) (ops : List Op) :
    (s.perform ops).finish.events.toList = s.record.events.toList ++ eventsOf s.depth ops := by
  induction ops generalizing s with
  | nil =>
    rw [eventsOf]
    simp [perform, finish]
  | cons op ops ih =>
    rw [perform_cons, ih]
    cases op with
    | enter =>
      rw [eventsOf]
      simp [apply, enter, push, depth]
    | enterFunction =>
      rw [eventsOf]
      simp [apply, enterFunction, push, depth]
    | leave =>
      cases hopened : s.opened with
      | nil =>
        rw [apply, leave_of_nil hopened, depth, hopened]
        rfl
      | cons top rest =>
        simp [apply, leave, depth, hopened, eventsOf]
    | insertLocal name t =>
      simp only [apply, insertLocal, events_modifyTop, depth, opened_modifyTop, eventsOf]
    | insertDecl d =>
      simp only [apply, insertDecl, events_modifyTop, depth, opened_modifyTop, eventsOf]

theorem frame_push {s : Stack} {k : Nat} {f : Frame} (hf : s.record.frames[k]? = some f) (boundary : Bool) :
    (s.push boundary).record.frames[k]? = some f :=
  (Opens.push s boundary).kept k f hf

theorem frame_modifyTop {s : Stack} {k : Nat} {f : Frame} (hf : s.record.frames[k]? = some f)
    (g : Frame → Frame) :
    (s.modifyTop g).record.frames[k]? = some (if s.opened.head? = some k then g f else f) := by
  unfold modifyTop
  cases s.opened with
  | nil => exact hf
  | cons top rest =>
    rw [Array.getElem?_modify, hf, List.head?_cons]
    by_cases hk : top = k <;> simp [hk]

/-- What a history makes of the frames that are there before it: it writes to the open ones only. -/
theorem frame_perform {s : Stack} (hv : s.Valid) (ops : List Op) {k : Nat} {f : Frame}
    (hf : s.record.frames[k]? = some f) :
    (s.perform ops).record.frames[k]? =
      some ((s.opened.idxOf? k).elim f fun d => f.past d ops) := by
  induction ops generalizing s f with
  | nil =>
    rw [perform, List.foldl_nil, hf]
    cases s.opened.idxOf? k <;> rfl
  | cons op ops ih =>
    rw [perform_cons]
    have hpush : ∀ (boundary : Bool) (op : Op), (∀ d, f.past d (op :: ops) = f.past (d + 1) ops) →
        ((s.push boundary).perform ops).record.frames[k]? =
          some ((s.opened.idxOf? k).elim f fun d => f.past d (op :: ops)) := by
      intro boundary op hop
      have hne : s.record.frames.size ≠ k := Nat.ne_of_gt (lt_of_frame hf)
      rw [ih ((Opens.push s boundary).valid hv) (frame_push hf boundary), (Opens.push s boundary).opened,
        List.idxOf?_cons, beq_false_of_ne hne]
      cases s.opened.idxOf? k <;> simp [hop]
    have hwrite : ∀ (g : Frame → Frame) (op : Op), (f.past 0 (op :: ops) = (g f).past 0 ops) →
        (∀ d, f.past (d + 1) (op :: ops) = f.past (d + 1) ops) →
        ((s.modifyTop g).perform ops).record.frames[k]? =
          some ((s.opened.idxOf? k).elim f fun d => f.past d (op :: ops)) := by
      intro g op hzero hsucc
      rw [ih (hv.modifyTop g) (frame_modifyTop hf g), opened_modifyTop]
      cases s.opened with
      | nil => rfl
      | cons top rest =>
        by_cases hk : top = k
        · simp [hk, List.idxOf?_cons, hzero]
        · cases hrest : rest.idxOf? k <;> simp [hk, List.idxOf?_cons, hrest, hsucc]
    cases op with
    | enter => exact hpush false .enter fun _ => rfl
    | enterFunction => exact hpush true .enterFunction fun _ => rfl
    | insertLocal name t => exact hwrite (·.addLocal name t) _ rfl fun _ => rfl
    | insertDecl d => exact hwrite (·.addDecl d) _ rfl fun _ => rfl
    | leave =>
      rw [apply, ih hv.leave ((frames_leave s).symm ▸ hf)]
      cases hopened : s.opened with
      | nil =>
        rw [leave_of_nil hopened, hopened]
        rfl
      | cons top rest =>
        have hnodup := hv.nodup
        rw [hopened, List.nodup_cons] at hnodup
        rw [opened_leave, hopened, List.tail_cons, List.idxOf?_cons]
        by_cases hk : top = k
        · subst hk
          simp [List.idxOf?_eq_none_iff.mpr hnodup.1, Frame.past]
        · cases hrest : rest.idxOf? k <;> simp [hk, Frame.past]

/-- The frames that a history opens are behind those that were there before it. -/
theorem frames_perform {s : Stack} (hv : s.Valid) (ops : List Op) :
    (s.perform ops).record.frames.toList.drop s.record.frames.size = framesOf ops := by
  induction ops generalizing s with
  | nil => simp [perform, framesOf]
  | cons op ops ih =>
    rw [perform_cons]
    have hpush : ∀ boundary : Bool,
        ((s.push boundary).perform ops).record.frames.toList.drop s.record.frames.size =
          Frame.past { boundary } 0 ops :: framesOf ops := by
      intro boundary
      have hopens := Opens.push s boundary
      have hframe : (s.push boundary).record.frames[s.record.frames.size]? = some { boundary } := by
        simp [push]
      have hfirst := frame_perform (hopens.valid hv) ops hframe
      rw [hopens.opened, List.idxOf?_cons, beq_self_eq_true, ← Array.getElem?_toList] at hfirst
      obtain ⟨hlt, hget⟩ := List.getElem?_eq_some_iff.mp hfirst
      have hrest := ih (hopens.valid hv)
      rw [hopens.size] at hrest
      rw [List.drop_eq_getElem_cons hlt, hget, hrest]
      rfl
    cases op with
    | enter => exact hpush false
    | enterFunction => exact hpush true
    | leave =>
      rw [framesOf, ← ih hv.leave, frames_leave]
      rfl
    | insertLocal name t =>
      rw [framesOf, ← ih (hv.modifyTop (·.addLocal name t)), size_modifyTop]
      rfl
    | insertDecl d =>
      rw [framesOf, ← ih (hv.modifyTop (·.addDecl d)), size_modifyTop]
      rfl

end Stack
end Ferrite.Scope
