import Ferrite.Proofs.Check.Silent

/-! The innermost frame while names are declared in it, as long as none of them is taken. -/

namespace Ferrite

/-- What callers of a function know of it. -/
def Header.decl (h : Header) : Decl := ⟨h.id, h.name.text, h.signature⟩

namespace Scope.Stack

/-- The innermost open scope has the number and the frame. -/
structure Top (k : Nat) (f : Frame) (s : Stack) : Prop where
  opened : s.opened.head? = some k
  frame : s.record.frames[k]? = some f

namespace Top

variable {k : Nat} {f : Frame} {s : Stack}

theorem modifyTop (h : Top k f s) (g : Frame → Frame) : Top k (g f) (s.modifyTop g) := by
  obtain ⟨hopened, hframe⟩ := h
  unfold Stack.modifyTop
  split
  · rename_i hnil
    rw [hnil] at hopened
    cases hopened
  · rename_i top rest hcons
    rw [hcons, List.head?_cons, Option.some_inj] at hopened
    subst hopened
    refine ⟨by rw [hcons, List.head?_cons], ?_⟩
    rw [Array.getElem?_modify, if_pos rfl, hframe]
    rfl

theorem head? (h : Top k f s) : s.frames.head? = some f := by
  obtain ⟨hopened, hframe⟩ := h
  obtain ⟨rest, hrest⟩ := List.head?_eq_some_iff.mp hopened
  rw [frames, Record.framesAt, hrest, List.filterMap_cons, hframe, List.head?_cons]

theorem isEmpty (h : Top k f s) : s.opened.isEmpty = false := by
  obtain ⟨rest, hrest⟩ := List.head?_eq_some_iff.mp h.opened
  rw [hrest, List.isEmpty_cons]

theorem insertLocal (h : Top k f s) (name : String) (t : Ty) :
    (s.insertLocal name t).1 = (f.local? name).isNone := by
  simp [Stack.insertLocal, Stack.localHere?, h.head?, h.isEmpty]

theorem insertDecl (h : Top k f s) (d : Decl) :
    (s.insertDecl d).1 = (f.decl? d.name).isNone := by
  simp [Stack.insertDecl, Stack.declHere?, h.head?, h.isEmpty]

theorem push (s : Stack) (boundary : Bool) : Top s.record.frames.size { boundary } (s.push boundary) :=
  ⟨rfl, by simp [Stack.push]⟩

end Top

theorem Valid.top {s : Stack} (h : s.Valid) (ho : s.opened.isEmpty = false) : ∃ k f, Top k f s := by
  cases hopened : s.opened with
  | nil =>
    rw [hopened] at ho
    cases ho
  | cons k rest =>
    have hlt := h.bound k (hopened ▸ List.mem_cons_self)
    exact ⟨k, _, by rw [hopened, List.head?_cons], Array.getElem?_eq_getElem hlt⟩

/-- The frames around the innermost one stay as they are. -/
theorem Grows.numbered_top {s s' : Stack} {own : Bool} {passed : List Event} {k : Nat} {f f' : Frame}
    (h : Grows own passed s s') (hv : s.Valid) (ht : Top k f s) (ht' : Top k f' s') :
    ∃ rest, s.numbered = (k, f) :: rest ∧ s'.numbered = (k, f') :: rest := by
  obtain ⟨rest, hrest⟩ := List.head?_eq_some_iff.mp ht.opened
  refine ⟨rest.filterMap fun i => (s.record.frames[i]?).map (i, ·), ?_, ?_⟩
  · rw [Stack.numbered, hrest, List.filterMap_cons, ht.frame, Option.map_some]
  · rw [Stack.numbered, h.opened, hrest, List.filterMap_cons, ht'.frame, Option.map_some]
    refine congrArg _ (List.filterMap_congr ?_)
    intro i hi
    have hmem : i ∈ s.opened := hrest ▸ List.mem_cons_of_mem _ hi
    have hne : s.opened.head? ≠ some i := by
      rw [ht.opened]
      rintro ⟨⟩
      have hnodup := hv.nodup
      rw [hrest, List.nodup_cons] at hnodup
      exact hnodup.1 hi
    have hframe := Array.getElem?_eq_getElem (hv.bound i hmem)
    rw [h.kept i _ hframe fun _ => hne, hframe]

end Scope.Stack

namespace Check
open Scope (Frame)
open Scope.Stack (Top)

variable {k : Nat} {f : Frame} {s : State}

theorem scopes_bind (name : Ident) (t : Ty) (taken : Problem) (s : State) :
    (after (bind name t taken) s).scopes = s.scopes.modifyTop (·.addLocal name.text t) := by
  obtain ⟨new, hnew⟩ := Reports.reportIf (!(s.scopes.insertLocal name.text t).1) taken name.span
    { s with scopes := (s.scopes.insertLocal name.text t).2 }
  exact congrArg State.scopes hnew

theorem scopes_binding (id : NodeId) (name : Ident) (declared : Option Ty) (init : Expr) (t : Ty)
    (s : State) : (after (binding id name declared init t) s).scopes =
      s.scopes.modifyTop (·.addLocal name.text (declared.getD t)) := by
  cases declared with
  | none => exact scopes_bind name t _ (after (record id t) s)
  | some expected =>
    obtain ⟨new, hnew⟩ := Reports.reportIf (!t.fits expected) (.mismatch expected t) init.span s
    have hscopes : (after (reportIf (!t.fits expected) (.mismatch expected t) init.span) s).scopes =
        s.scopes := by
      rw [hnew]
    have hbind := scopes_bind name expected (.repeatedLocal name.text) (after (record id expected)
      (after (reportIf (!t.fits expected) (.mismatch expected t) init.span) s))
    exact hbind.trans (congrArg (Scope.Stack.modifyTop · (·.addLocal name.text expected)) hscopes)

/-- A name that is bound has its type from then on, unless it was taken. -/
theorem localHere?_binding (id : NodeId) (name : Ident) (declared : Option Ty) (init : Expr) (t : Ty)
    (htop : Top k f s.scopes) :
    (after (binding id name declared init t) s).scopes.localHere? name.text =
      some ((s.scopes.localHere? name.text).getD (declared.getD t)) := by
  rw [scopes_binding, Scope.Stack.localHere?, (htop.modifyTop _).head?, Option.bind_some,
    Frame.local?_addLocal, if_pos rfl, Scope.Stack.localHere?, htop.head?, Option.bind_some]

/-- Silently, a name is only bound in a frame where it is free. -/
theorem silent_bindName {name : Ident} {t : Ty} {taken : Problem}
    (h : Silent (bind name t taken) s) (htop : Top k f s.scopes) :
    f.local? name.text = none ∧
      Top k { f with locals := (name.text, t) :: f.locals } (after (bind name t taken) s).scopes := by
  have hc : (!(s.scopes.insertLocal name.text t).1) = false := silent_reportIf h
  have hfree : f.local? name.text = none := by
    rw [htop.insertLocal, Bool.not_eq_false'] at hc
    exact Option.isNone_iff_eq_none.mp hc
  refine ⟨hfree, ?_⟩
  have hadd : f.addLocal name.text t = { f with locals := (name.text, t) :: f.locals } := by
    rw [Frame.addLocal, hfree]
    rfl
  rw [scopes_bind, ← hadd]
  exact htop.modifyTop (·.addLocal name.text t)

/-- Silently, a `let` statement only notes the type of its name and binds it. -/
theorem silent_binding {id : NodeId} {name : Ident} {declared : Option Ty} {init : Expr} {t : Ty}
    (h : Silent (binding id name declared init t) s) :
    (∀ u, declared = some u → t.fits u) ∧
      after (binding id name declared init t) s =
        after (bind name (declared.getD t) (.repeatedLocal name.text))
          (after (record id (declared.getD t)) s) := by
  cases declared with
  | none => exact ⟨fun u hu => (by cases hu), rfl⟩
  | some expected =>
    have hbind := grows_bind name expected (.repeatedLocal name.text) (after (record id expected)
      (after (reportIf (!t.fits expected) (.mismatch expected t) init.span) s))
    have hc := silent_reportIf (silent_of_suffix hbind.problems h)
    have hsame : after (reportIf (!t.fits expected) (.mismatch expected t) init.span) s = s := by
      rw [hc]
      rfl
    refine ⟨?_, ?_⟩
    · rintro u ⟨⟩
      simpa using hc
    · exact congrArg (fun s => after (bind name expected (.repeatedLocal name.text))
        (after (record id expected) s)) hsame

/-- Behind a silent `let` statement, its name is in the innermost frame. -/
theorem top_binding {id : NodeId} {name : Ident} {declared : Option Ty} {init : Expr} {t : Ty}
    (h : Silent (binding id name declared init t) s) (htop : Top k f s.scopes) :
    Top k { f with locals := (name.text, declared.getD t) :: f.locals }
      (after (binding id name declared init t) s).scopes := by
  have hafter := (silent_binding h).2
  have hs : Silent (bind name (declared.getD t) (.repeatedLocal name.text))
      (after (record id (declared.getD t)) s) := by
    rw [Silent, ← hafter]
    exact h
  rw [hafter]
  exact (silent_bindName hs (htop : Top k f (after (record id _) s).scopes)).2

theorem silent_declare {h : Header} (hs : Silent (declare h) s) (htop : Top k f s.scopes) :
    f.decl? h.name.text = none ∧
      Top k { f with decls := h.decl :: f.decls } (after (declare h) s).scopes := by
  have hc : (!(s.scopes.insertDecl h.decl).1) = false := silent_reportIf hs
  have hscopes : (after (declare h) s).scopes = s.scopes.modifyTop (·.addDecl h.decl) := by
    obtain ⟨new, hnew⟩ := Reports.reportIf (!(s.scopes.insertDecl h.decl).1)
      (.repeatedItem h.name.text) h.name.span { s with scopes := (s.scopes.insertDecl h.decl).2 }
    exact congrArg State.scopes hnew
  have hfree : f.decl? h.name.text = none := by
    rw [htop.insertDecl, Bool.not_eq_false'] at hc
    exact Option.isNone_iff_eq_none.mp hc
  refine ⟨hfree, ?_⟩
  have hadd : f.addDecl h.decl = { f with decls := h.decl :: f.decls } := by
    rw [Frame.addDecl]
    exact if_neg (by rw [Header.decl, hfree]; exact Bool.false_ne_true)
  rw [hscopes, ← hadd]
  exact htop.modifyTop (·.addDecl h.decl)

theorem suffix_declare (h : Header) (s : State) : s.problems <:+ (after (declare h) s).problems := by
  obtain ⟨new, hnew⟩ := Reports.reportIf (!(s.scopes.insertDecl h.decl).1)
    (.repeatedItem h.name.text) h.name.span { s with scopes := (s.scopes.insertDecl h.decl).2 }
  have hproblems : (after (declare h) s).problems = new ++ s.problems := congrArg State.problems hnew
  rw [hproblems]
  exact List.suffix_append _ _

theorem suffix_forM {α : Type} {act : α → Checker Unit}
    (h : ∀ a s, s.problems <:+ (after (act a) s).problems) :
    ∀ (as : List α) (s : State), s.problems <:+ (after (as.forM act) s).problems
  | [], _ => List.suffix_refl _
  | a :: as, s => (h a s).trans (suffix_forM h as _)

theorem silent_declareAll : ∀ {hs : List Header} {f : Frame} {s : State},
    Silent (hs.forM declare) s → Top k f s.scopes →
      Top k { f with decls := (hs.map Header.decl).reverse ++ f.decls } (after (hs.forM declare) s).scopes
  | [], _, _, _, htop => htop
  | h :: hs, f, s, hsilent, htop => by
    have hrest : Silent (hs.forM declare) (after (declare h) s) := hsilent
    have hfirst : Silent (declare h) s := silent_of_suffix (suffix_forM suffix_declare hs _) hrest
    have hall := silent_declareAll hrest (silent_declare hfirst htop).2
    rw [List.map_cons, List.reverse_cons, List.append_assoc]
    exact hall

theorem silent_bindAll {g : Ident → Problem} {params : List (Ident × Ty)} {f : Frame} {s : State}
    (h : Silent (params.forM fun p => bind p.1 p.2 (g p.1)) s) (htop : Top k f s.scopes)
    (hnodup : (f.locals.map Prod.fst).Nodup) :
    Top k { f with locals := (params.map fun p => (p.1.text, p.2)).reverse ++ f.locals }
        (after (params.forM fun p => bind p.1 p.2 (g p.1)) s).scopes ∧
      (((params.map fun p => (p.1.text, p.2)).reverse ++ f.locals).map Prod.fst).Nodup := by
  induction params generalizing f s with
  | nil => exact ⟨htop, hnodup⟩
  | cons p params ih =>
    have hrest : Silent (params.forM fun p => bind p.1 p.2 (g p.1))
        (after (bind p.1 p.2 (g p.1)) s) := h
    have hstep : ∀ (p : Ident × Ty) (s : State),
        s.problems <:+ (after (bind p.1 p.2 (g p.1)) s).problems :=
      fun p s => (grows_bind p.1 p.2 (g p.1) s).problems
    have hfirst : Silent (bind p.1 p.2 (g p.1)) s :=
      silent_of_suffix (suffix_forM hstep params _) hrest
    obtain ⟨hfree, htop'⟩ := silent_bindName hfirst htop
    have hnodup' : (((p.1.text, p.2) :: f.locals).map Prod.fst).Nodup := by
      rw [List.map_cons, List.nodup_cons]
      refine ⟨?_, hnodup⟩
      intro hmem
      obtain ⟨⟨n, u⟩, hin, hn⟩ := List.mem_map.mp hmem
      have hne := List.lookup_eq_none_iff.mp hfree _ hin
      simp_all
    have hall := ih hrest htop' hnodup'
    rw [List.map_cons, List.reverse_cons, List.append_assoc]
    exact hall

/-- At the start of a block, its frame has the functions of the block and no locals. -/
theorem top_atBlock {is : List Item} (h : (atBlock is s).problems = []) :
    Top s.scopes.record.frames.size
      { boundary := false, decls := ((is.flatMap Item.headers).map Header.decl).reverse }
      (atBlock is s).scopes := by
  have htop := silent_declareAll (k := s.scopes.record.frames.size) h (Top.push s.scopes false)
  rw [List.append_nil] at htop
  exact htop

/-- The parameters of a function as the locals of its frame, the last one first. -/
def paramLocals (h : Header) : List (String × Ty) :=
  ((h.params.zip h.signature.params).map fun p => (p.1.text, p.2)).reverse

theorem top_atFunction {h : Header} (hs : (atFunction h s).problems = []) :
    Top s.scopes.record.frames.size { boundary := true, locals := paramLocals h }
        (atFunction h s).scopes ∧
      ((paramLocals h).map Prod.fst).Nodup := by
  have htop := silent_bindAll (k := s.scopes.record.frames.size)
    (g := fun name => .repeatedParam name.text) hs (Top.push s.scopes true) List.nodup_nil
  rw [List.append_nil] at htop
  exact htop

end Check
end Ferrite
