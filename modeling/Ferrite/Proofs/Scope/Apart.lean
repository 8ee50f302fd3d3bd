import Ferrite.Proofs.Scope.Growth

/-!
What is done in scopes of its own can be put on any stack of scopes. As long as a boundary is among
the scopes that were opened, locals are the same on every stack, and functions are the same on stacks
that know the same functions.
-/

namespace Ferrite.Scope

theorem findLocal?_append {name : String} {fs : List Frame} (h : ∃ f ∈ fs, f.boundary = true)
    (gs : List Frame) : findLocal? name (fs ++ gs) = findLocal? name fs := by
  induction fs with
  | nil =>
    obtain ⟨f, hf, -⟩ := h
    cases hf
  | cons f fs ih =>
    rw [List.cons_append, findLocal?, findLocal?]
    cases f.local? name with
    | some t => rfl
    | none =>
      by_cases hb : f.boundary = true
      · simp only [hb, if_true]
      · obtain ⟨g, hg, hgb⟩ := h
        have hrest : ∃ g ∈ fs, g.boundary = true := by
          rcases List.mem_cons.mp hg with rfl | hg
          · exact absurd hgb hb
          · exact ⟨g, hg, hgb⟩
        simp only [hb, ih hrest]

theorem findDecl?_append (name : String) (fs gs : List Frame) :
    findDecl? name (fs ++ gs) = (findDecl? name fs).or (findDecl? name gs) :=
  List.findSome?_append

namespace Stack

/-- Puts a stack on another one: what happened to it happens after what happened to the other one,
and its open scopes are further in. -/
def append (s part : Stack) : Stack where
  record :=
    { events := s.record.events ++ part.record.events
      frames := s.record.frames ++ part.record.frames }
  opened := part.opened.map (s.record.frames.size + ·) ++ s.opened

/-- The given scopes are open, and the one with the number `k` is a boundary among them. -/
structure Shut (numbers : List Nat) (k : Nat) (s : Stack) : Prop where
  opened : s.opened = numbers
  bound : ∀ j ∈ numbers, j < s.record.frames.size
  mem : k ∈ numbers
  boundary : ∃ f, s.record.frames[k]? = some f ∧ f.boundary = true

section

variable {s part : Stack} {numbers : List Nat} {k : Nat}

@[simp] theorem append_empty (s : Stack) : s.append {} = s := by
  simp [append]

theorem frames_append (hs : s.Valid) (part : Stack) : (s.append part).frames = part.frames ++ s.frames := by
  unfold frames Record.framesAt append
  rw [List.filterMap_append, List.filterMap_map]
  congr 1
  · refine List.filterMap_congr fun j _ => ?_
    simp [Array.getElem?_append_right]
  · refine List.filterMap_congr fun j hj => ?_
    exact Array.getElem?_append_left (hs.bound j hj)

theorem decl?_append (hs : s.Valid) (part : Stack) (name : String) :
    (s.append part).decl? name = (part.decl? name).or (s.decl? name) := by
  rw [decl?, frames_append hs, findDecl?_append]
  rfl

theorem valid_append (hs : s.Valid) (h : part.opened = []) : (s.append part).Valid where
  bound j hj := by
    have hmem : j ∈ s.opened := by simpa [append, h] using hj
    have hlt := hs.bound j hmem
    simp only [append, Array.size_append]
    omega
  nodup := by simpa [append, h] using hs.nodup

@[simp] theorem append_push (s part : Stack) (boundary : Bool) :
    (s.append part).push boundary = s.append (part.push boundary) := by
  simp [append, push]

theorem append_leave (h : part.opened ≠ []) : (s.append part).leave = s.append part.leave := by
  obtain ⟨⟨events, frames⟩, opened⟩ := part
  cases opened with
  | nil => exact absurd rfl h
  | cons j rest => simp [append, leave]

theorem append_modifyTop (h : part.opened ≠ []) (f : Frame → Frame) :
    (s.append part).modifyTop f = s.append (part.modifyTop f) := by
  obtain ⟨⟨events, frames⟩, opened⟩ := part
  cases opened with
  | nil => exact absurd rfl h
  | cons j rest =>
    have hframes : (s.record.frames ++ frames).modify (s.record.frames.size + j) f =
        s.record.frames ++ frames.modify j f := by
      refine Array.ext_getElem? fun i => ?_
      rw [Array.getElem?_modify, Array.getElem?_append, Array.getElem?_append, Array.getElem?_modify]
      grind
    simp [append, modifyTop, hframes]

namespace Shut

theorem ne_nil (h : Shut numbers k part) : part.opened ≠ [] := by
  intro hnil
  have hmem := h.mem
  rw [← h.opened, hnil] at hmem
  cases hmem

/-- There is a boundary among the open frames. -/
theorem frames (h : Shut numbers k part) : ∃ f ∈ part.frames, f.boundary = true := by
  obtain ⟨f, hf, hb⟩ := h.boundary
  exact ⟨f, List.mem_filterMap.mpr ⟨k, h.opened.symm ▸ h.mem, hf⟩, hb⟩

theorem frames_ne_nil (h : Shut numbers k part) : part.frames ≠ [] := by
  obtain ⟨f, hf, -⟩ := h.frames
  exact List.ne_nil_of_mem hf

theorem local? (h : Shut numbers k part) (hs : s.Valid) (name : String) :
    (s.append part).local? name = part.local? name := by
  rw [Stack.local?, frames_append hs, findLocal?_append h.frames]
  rfl

theorem head?_append (h : Shut numbers k part) (hs : s.Valid) :
    (s.append part).frames.head? = part.frames.head? := by
  rw [frames_append hs]
  exact List.head?_append_of_ne_nil _ h.frames_ne_nil

theorem isEmpty_append (h : Shut numbers k part) (s : Stack) :
    (s.append part).opened.isEmpty = part.opened.isEmpty := by
  obtain ⟨j, rest, hopened⟩ := List.exists_cons_of_ne_nil h.ne_nil
  rw [append, hopened]
  rfl

theorem insertLocal (h : Shut numbers k part) (hs : s.Valid) (name : String) (t : Ty) :
    (s.append part).insertLocal name t =
      ((part.insertLocal name t).1, s.append (part.insertLocal name t).2) := by
  simp only [Stack.insertLocal, localHere?, h.head?_append hs, h.isEmpty_append s,
    append_modifyTop h.ne_nil]

theorem insertDecl (h : Shut numbers k part) (hs : s.Valid) (d : Decl) :
    (s.append part).insertDecl d = ((part.insertDecl d).1, s.append (part.insertDecl d).2) := by
  simp only [Stack.insertDecl, declHere?, h.head?_append hs, h.isEmpty_append s,
    append_modifyTop h.ne_nil]

/-- Writing names to the innermost frame moves no boundary. -/
theorem modifyTop (h : Shut numbers k part) {f : Frame → Frame} (hf : ∀ g, (f g).boundary = g.boundary) :
    Shut numbers k (part.modifyTop f) := by
  obtain ⟨⟨events, frames⟩, opened⟩ := part
  obtain rfl := h.opened
  cases opened with
  | nil => exact absurd rfl h.ne_nil
  | cons j rest =>
    refine ⟨rfl, ?_, h.mem, ?_⟩
    · simpa [Stack.modifyTop] using h.bound
    · obtain ⟨g, hg, hb⟩ := h.boundary
      refine ⟨if j = k then f g else g, ?_, ?_⟩
      · simp only [Stack.modifyTop, Array.getElem?_modify]
        split
        · exact (congrArg (Option.map f) hg)
        · exact hg
      · split
        · rw [hf, hb]
        · exact hb

end Shut

theorem boundary_addLocal (f : Frame) (name : String) (t : Ty) :
    (f.addLocal name t).boundary = f.boundary := by
  unfold Frame.addLocal
  split <;> rfl

theorem boundary_addDecl (f : Frame) (d : Decl) : (f.addDecl d).boundary = f.boundary := by
  unfold Frame.addDecl
  split <;> rfl

/-- A new boundary shuts off everything around it. -/
theorem shut_push (s : Stack) (h : ∀ j ∈ s.opened, j < s.record.frames.size) :
    Shut (s.record.frames.size :: s.opened) s.record.frames.size (s.push true) where
  opened := rfl
  bound j hj := by
    simp only [push, Array.size_push]
    rcases List.mem_cons.mp hj with rfl | hj
    · omega
    · have hlt := h j hj
      omega
  mem := List.mem_cons_self
  boundary := ⟨{ boundary := true }, by simp [push], rfl⟩

namespace Shut

theorem push (h : Shut numbers k part) (boundary : Bool) :
    Shut (part.record.frames.size :: numbers) k (part.push boundary) where
  opened := by rw [← h.opened]; rfl
  bound j hj := by
    simp only [Stack.push, Array.size_push]
    rcases List.mem_cons.mp hj with rfl | hj
    · omega
    · have hlt := h.bound j hj
      omega
  mem := List.mem_cons_of_mem _ h.mem
  boundary := by
    obtain ⟨f, hf, hb⟩ := h.boundary
    refine ⟨f, ?_, hb⟩
    have hlt := lt_of_frame hf
    simp only [Stack.push, Array.getElem?_push, if_neg (Nat.ne_of_lt hlt)]
    exact hf

theorem leave {j : Nat} (h : Shut (j :: numbers) k part) (hk : k ∈ numbers) : Shut numbers k part.leave := by
  obtain ⟨record, _⟩ := part
  obtain rfl := h.opened
  exact ⟨rfl, fun i hi => h.bound i (List.mem_cons_of_mem _ hi), hk, h.boundary⟩

end Shut
end
end Stack
end Ferrite.Scope
