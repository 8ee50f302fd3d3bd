import Ferrite.Scope.Replay
import Mathlib.Data.List.Basic

/-!
How a stack of scopes grows. A part of a program opens scopes and closes them again: what was open
before is open afterwards, earlier frames keep what they declare, and only the innermost one may
have got new locals.
-/

namespace Ferrite.Scope.Stack

/-- Every open scope has a frame of its own. -/
structure Valid (s : Stack) : Prop where
  bound : ∀ k ∈ s.opened, k < s.record.frames.size
  nodup : s.opened.Nodup

theorem valid_empty : Valid {} where
  bound k hk := by cases hk
  nodup := List.nodup_nil

/-- The open frames with their numbers, the innermost one first. -/
def numbered (s : Stack) : List (Nat × Frame) :=
  s.opened.filterMap fun k => (s.record.frames[k]?).map (k, ·)

theorem frames_eq (s : Stack) : s.frames = s.numbered.map Prod.snd := by
  simp [frames, numbered, Record.framesAt, List.map_filterMap, Option.map_map, Function.comp_def]

/-- From one stack to a later one through the events. `own` says whether the innermost frame may
have got new locals. -/
structure Grows (own : Bool) (passed : List Event) (s s' : Stack) : Prop where
  opened : s'.opened = s.opened
  events : s'.record.events.toList = s.record.events.toList ++ passed
  size : s'.record.frames.size = s.record.frames.size + passed.count .push
  shape : ∀ (k : Nat) (f : Frame), s.record.frames[k]? = some f →
    ∃ f', s'.record.frames[k]? = some f' ∧ f'.boundary = f.boundary ∧ f'.decls = f.decls ∧
      f.locals <:+ f'.locals
  kept : ∀ (k : Nat) (f : Frame), s.record.frames[k]? = some f → (own = true → s.opened.head? ≠ some k) →
    s'.record.frames[k]? = some f

/-- A scope was just opened, and only its frame was written to. -/
structure Opens (s s' : Stack) : Prop where
  opened : s'.opened = s.record.frames.size :: s.opened
  events : s'.record.events.toList = s.record.events.toList ++ [.push]
  size : s'.record.frames.size = s.record.frames.size + 1
  kept : ∀ (k : Nat) (f : Frame), s.record.frames[k]? = some f → s'.record.frames[k]? = some f

section

variable {s s' s'' : Stack} {own : Bool} {passed more : List Event}

theorem lt_of_frame {k : Nat} {f : Frame} (h : s.record.frames[k]? = some f) :
    k < s.record.frames.size := by
  obtain ⟨hk, -⟩ := Array.getElem?_eq_some_iff.mp h
  exact hk

theorem frames_leave (s : Stack) : s.leave.record.frames = s.record.frames := by
  unfold leave
  split <;> rfl

namespace Grows

theorem refl (own : Bool) (s : Stack) : Grows own [] s s where
  opened := rfl
  events := (List.append_nil _).symm
  size := rfl
  shape _ f h := ⟨f, h, rfl, rfl, List.suffix_rfl⟩
  kept _ _ h _ := h

theorem trans (h : Grows own passed s s') (h' : Grows own more s' s'') :
    Grows own (passed ++ more) s s'' where
  opened := h'.opened.trans h.opened
  events := by rw [h'.events, h.events, List.append_assoc]
  size := by
    rw [h'.size, h.size, List.count_append]
    omega
  shape k f hf := by
    obtain ⟨f₁, hf₁, hb₁, hd₁, hl₁⟩ := h.shape k f hf
    obtain ⟨f₂, hf₂, hb₂, hd₂, hl₂⟩ := h'.shape k f₁ hf₁
    exact ⟨f₂, hf₂, hb₂.trans hb₁, hd₂.trans hd₁, hl₁.trans hl₂⟩
  kept k f hf ho := by
    refine h'.kept k f (h.kept k f hf ho) ?_
    intro hown
    rw [h.opened]
    exact ho hown

theorem weaken (h : Grows false passed s s') : Grows own passed s s' where
  opened := h.opened
  events := h.events
  size := h.size
  shape := h.shape
  kept k f hf _ := h.kept k f hf fun hown => by cases hown

theorem valid (h : Grows own passed s s') (hv : s.Valid) : s'.Valid where
  bound := by
    intro k hk
    rw [h.opened] at hk
    have hlt := hv.bound k hk
    rw [h.size]
    omega
  nodup := by
    rw [h.opened]
    exact hv.nodup

/-- A part that leaves the innermost frame alone leaves all open frames alone. -/
theorem numbered (h : Grows false passed s s') (hv : s.Valid) : s'.numbered = s.numbered := by
  unfold Stack.numbered
  rw [h.opened]
  refine List.filterMap_congr ?_
  intro k hk
  have hlt := hv.bound k hk
  rw [h.kept k _ (Array.getElem?_eq_getElem hlt) (fun hown => by cases hown),
    Array.getElem?_eq_getElem hlt]

theorem local? (h : Grows false passed s s') (hv : s.Valid) (name : String) :
    s'.local? name = s.local? name := by
  unfold Stack.local?
  rw [frames_eq, frames_eq, h.numbered hv]

theorem decl? (h : Grows false passed s s') (hv : s.Valid) (name : String) :
    s'.decl? name = s.decl? name := by
  unfold Stack.decl?
  rw [frames_eq, frames_eq, h.numbered hv]

/-- A name that is free in the innermost frame was free there before. -/
theorem localHere?_eq_none (h : Grows own passed s s') (hv : s.Valid) {name : String}
    (hn : s'.localHere? name = none) : s.localHere? name = none := by
  have hopened := h.opened
  unfold localHere? frames Record.framesAt at hn ⊢
  cases ho : s.opened with
  | nil => rfl
  | cons k rest =>
    have hf := Array.getElem?_eq_getElem (hv.bound k (ho ▸ List.mem_cons_self))
    obtain ⟨f', hf', -, -, hl⟩ := h.shape k _ hf
    rw [hopened, ho, List.filterMap_cons, hf', List.head?_cons, Option.bind_some] at hn
    rw [List.filterMap_cons, hf, List.head?_cons, Option.bind_some]
    refine List.lookup_eq_none_iff.mpr fun l hmem => ?_
    exact List.lookup_eq_none_iff.mp hn l (hl.subset hmem)

end Grows

namespace Opens

theorem push (s : Stack) (boundary : Bool) : Opens s (s.push boundary) where
  opened := rfl
  events := by simp [Stack.push]
  size := by simp [Stack.push]
  kept k f h := by
    have hlt := lt_of_frame h
    simp only [Stack.push, Array.getElem?_push, if_neg (Nat.ne_of_lt hlt)]
    exact h

/-- Writing to the innermost frame writes to the new one. -/
theorem modifyTop (h : Opens s s') (f : Frame → Frame) : Opens s (s'.modifyTop f) := by
  have htop : s'.modifyTop f = { s' with record := { s'.record with
      frames := s'.record.frames.modify s.record.frames.size f } } := by
    simp only [Stack.modifyTop, h.opened]
  rw [htop]
  refine ⟨h.opened, h.events, by simp [h.size], ?_⟩
  intro k g hg
  have hlt := lt_of_frame hg
  rw [Array.getElem?_modify, if_neg (Nat.ne_of_gt hlt)]
  exact h.kept k g hg

theorem valid (h : Opens s s') (hv : s.Valid) : s'.Valid where
  bound := by
    intro k hk
    rw [h.opened, List.mem_cons] at hk
    rw [h.size]
    rcases hk with rfl | hk
    · omega
    · have hlt := hv.bound k hk
      omega
  nodup := by
    rw [h.opened, List.nodup_cons]
    refine ⟨?_, hv.nodup⟩
    intro hmem
    exact absurd (hv.bound _ hmem) (Nat.lt_irrefl _)

theorem numbered (h : Opens s s') (hv : s.Valid) {f : Frame}
    (hf : s'.record.frames[s.record.frames.size]? = some f) :
    s'.numbered = (s.record.frames.size, f) :: s.numbered := by
  unfold Stack.numbered
  rw [h.opened, List.filterMap_cons, hf, Option.map_some]
  refine congrArg _ (List.filterMap_congr ?_)
  intro k hk
  have hlt := hv.bound k hk
  rw [h.kept k _ (Array.getElem?_eq_getElem hlt), Array.getElem?_eq_getElem hlt]

/-- Closing the new scope brings back what was open before. -/
theorem leave (ho : Opens s s') (h : Grows own passed s' s'') :
    Grows false (.push :: (passed ++ [.pop])) s s''.leave := by
  have hopened : s''.opened = s.record.frames.size :: s.opened := h.opened.trans ho.opened
  have hleave : s''.leave = ⟨⟨s''.record.events.push .pop, s''.record.frames⟩, s.opened⟩ := by
    simp only [Stack.leave, hopened]
  have hkept : ∀ (k : Nat) (f : Frame), s.record.frames[k]? = some f → s''.record.frames[k]? = some f := by
    intro k f hf
    refine h.kept k f (ho.kept k f hf) ?_
    rintro - hhead
    have hlt := lt_of_frame hf
    rw [ho.opened, List.head?_cons, Option.some_inj] at hhead
    omega
  rw [hleave]
  refine ⟨rfl, ?_, ?_, ?_, ?_⟩
  · simp [h.events, ho.events]
  · have hcount : List.count Event.push (.push :: (passed ++ [.pop])) = passed.count .push + 1 := by
      simp [List.count_append]
    rw [hcount, h.size, ho.size]
    omega
  · intro k f hf
    exact ⟨f, hkept k f hf, rfl, rfl, List.suffix_rfl⟩
  · intro k f hf _
    exact hkept k f hf

end Opens

theorem grows_addLocal (s : Stack) (name : String) (t : Ty) :
    Grows true [] s (s.modifyTop (·.addLocal name t)) := by
  unfold modifyTop
  split
  · exact .refl true s
  · rename_i top rest hopened
    refine ⟨rfl, (List.append_nil _).symm, by simp, ?_, ?_⟩
    · intro k f hf
      rw [Array.getElem?_modify]
      split
      · refine ⟨f.addLocal name t, by rw [hf]; rfl, ?_⟩
        unfold Frame.addLocal
        split
        · exact ⟨rfl, rfl, List.suffix_rfl⟩
        · exact ⟨rfl, rfl, List.suffix_cons _ _⟩
      · exact ⟨f, hf, rfl, rfl, List.suffix_rfl⟩
    · intro k f hf hk
      have hne : top ≠ k := by
        intro heq
        refine hk rfl ?_
        rw [hopened, heq, List.head?_cons]
      rw [Array.getElem?_modify, if_neg hne]
      exact hf

end
end Ferrite.Scope.Stack
