import Ferrite.Files.Folder
import Ferrite.Proofs.Files.Disk
import Ferrite.Proofs.Run

/-!
A folder in memory as a file system. Nothing makes a folder or a file disappear, so a path leads where
it led before; and a write changes one file only.
-/

namespace Ferrite.Folder

open Ferrite.Path

variable {f g : Folder} {p : Path} {r : Route}

/-- Folders and files by the routes to them. -/
def view : Disk.View Folder Route Route where
  folder? f front :=
    if front.head? = some '/' then none else (front.names.foldlM f.follow []).toOption
  file? f folder name :=
    if (f.file? (folder ++ [name])).isSome then some (folder ++ [name]) else none
  content? f r := f.file? r

/-! ## Where paths lead -/

theorem isFolder_iff : f.isFolder r = true ↔
    r = [] ∨ (∃ q ∈ f.folders, r <+: q) ∨ ∃ e ∈ f.files, r <+: e.1 ∧ r ≠ e.1 := by
  simp [isFolder, or_assoc]

theorem isFolder_dropLast (hr : f.isFolder r = true) : f.isFolder r.dropLast = true := by
  have hfront : r.dropLast <+: r := List.dropLast_prefix r
  rw [isFolder_iff] at hr ⊢
  rcases hr with rfl | ⟨q, hq, hprefix⟩ | ⟨e, he, hprefix, hne⟩
  · exact .inl rfl
  · exact .inr (.inl ⟨q, hq, hfront.trans hprefix⟩)
  · refine .inr (.inr ⟨e, he, hfront.trans hprefix, ?_⟩)
    intro heq
    have hshort : r <+: r.dropLast := heq ▸ hprefix
    have hlength := hshort.length_le
    rw [List.length_dropLast] at hlength
    have hempty : r = [] := List.length_eq_zero_iff.mp (by omega)
    exact hne (by rw [← heq, hempty]; rfl)

/-- Nothing leads on but from a folder. What is no name leads to a folder again. -/
theorem follow_ok {here there : Route} {part : Path} (h : f.follow here part = .ok there) :
    f.isFolder here = true ∧ ('/' ∉ part → IsName part ∧ there = here ++ [part] ∨ f.isFolder there = true) := by
  unfold follow at h
  cases hhere : f.isFolder here with
  | false => simp [hhere] at h
  | true =>
    refine ⟨rfl, fun hslash => ?_⟩
    simp only [hhere, Bool.not_true, Bool.false_eq_true, if_false, Bool.or_eq_true, decide_eq_true_eq] at h
    split at h
    · cases h
      exact .inr hhere
    · rename_i hstay
      rw [not_or] at hstay
      split at h
      · split at h
        · cases h
        · cases h
          exact .inr (isFolder_dropLast hhere)
      · rename_i habove
        split at h
        · cases h
        · cases h
          exact .inl ⟨⟨hslash, hstay.1, hstay.2, habove⟩, rfl⟩

theorem resolve_eq_ok : f.resolve p = .ok r ↔
    refusal? p = none ∧ p.head? ≠ some '/' ∧ p.names.foldlM f.follow [] = .ok r := by
  unfold resolve walk
  cases refusal? p with
  | some fault => simp
  | none => by_cases h : p.head? = some '/' <;> simp [h]

theorem folder?_eq_some {front : Path} {d : Route} : view.folder? f front = some d ↔
    front.head? ≠ some '/' ∧ front.names.foldlM f.follow [] = .ok d := by
  by_cases h : front.head? = some '/'
  · simp [view, h]
  · cases hfold : front.names.foldlM f.follow [] <;> simp [view, h, hfold, Except.toOption]

/-- A path that leads to no folder ends in a name, and leads into the folder before it. -/
theorem ending_of_resolve (h : f.resolve p = .ok r) (hr : f.isFolder r = false) :
    ∃ front name d, p.ending? = some (front, name) ∧ view.folder? f front = some d ∧ r = d ++ [name] := by
  obtain ⟨front, last, rfl, hopens, hslash⟩ := p.exists_split
  obtain ⟨-, hhead, hfold⟩ := resolve_eq_ok.mp h
  obtain ⟨before, hbefore, hnames⟩ := names_opens hopens hslash
  rw [hnames, List.foldlM_append, bind_eq_ok] at hfold
  obtain ⟨here, hhere, hlast⟩ := hfold
  have hlast : f.follow here last = .ok r := by simpa using hlast
  obtain ⟨hfolder, hpart⟩ := follow_ok hlast
  rcases hpart hslash with ⟨hname, hroute⟩ | hagain
  · refine ⟨front, last, here, ending?_append hopens hname, folder?_eq_some.mpr ⟨?_, ?_⟩, hroute⟩
    · intro hfront
      rw [List.head?_append, hfront] at hhead
      exact hhead rfl
    · -- the part behind the last slash of what stands before the name is empty
      have hstay : f.follow here [] = .ok here := by simp [follow, hfolder]
      rw [hbefore, List.foldlM_append, bind_eq_ok]
      exact ⟨here, hhere, by simpa using hstay⟩
  · rw [hr] at hagain
    cases hagain

theorem target?_of_resolve (h : f.resolve p = .ok r) (hr : f.isFolder r = false)
    (hfile : (f.file? r).isSome) : view.target? f p = some r := by
  obtain ⟨front, name, d, hending, hfolder, rfl⟩ := ending_of_resolve h hr
  rw [Disk.View.target?_eq hending hfolder]
  exact if_pos hfile

theorem target?_of_kindAt? (h : f.kindAt? p = some .file) : (view.target? f p).isSome := by
  unfold kindAt? at h
  cases hr : f.resolve p with
  | error fault => simp [hr] at h
  | ok r =>
    simp only [hr, kind?] at h
    cases hfolder : f.isFolder r with
    | true => simp [hfolder] at h
    | false =>
      simp only [hfolder, Bool.false_eq_true, if_false] at h
      split at h
      · rename_i hfile
        rw [target?_of_resolve hr hfolder hfile]
        rfl
      · cases h

/-! ## What stays -/

theorem foldlM_follow_mono (hfg : ∀ r, f.isFolder r = true → g.isFolder r = true) {parts here there : Route}
    (h : parts.foldlM f.follow here = .ok there) : parts.foldlM g.follow here = .ok there := by
  induction parts generalizing here with
  | nil => exact h
  | cons part parts ih =>
    rw [List.foldlM_cons, bind_eq_ok] at h ⊢
    obtain ⟨next, hnext, hrest⟩ := h
    have hhere := (follow_ok hnext).1
    refine ⟨next, ?_, ih hrest⟩
    rw [follow, hhere] at hnext
    rw [follow, hfg here hhere]
    exact hnext

theorem keeps_of {touched : Route → Prop} (hfolders : ∀ r, f.isFolder r = true → g.isFolder r = true)
    (hfiles : ∀ r, (f.file? r).isSome → (g.file? r).isSome)
    (hcontent : ∀ r bytes, f.file? r = some bytes → ¬ touched r → g.file? r = some bytes) :
    view.Keeps f g touched where
  folder? front d hd := by
    rw [folder?_eq_some] at hd ⊢
    exact ⟨hd.1, foldlM_follow_mono hfolders hd.2⟩
  file? d name i hi := by
    obtain ⟨hsome, heq⟩ := Option.ite_none_right_eq_some.mp hi
    exact Option.ite_none_right_eq_some.mpr ⟨hfiles _ hsome, heq⟩
  content? := hcontent

theorem keeps_put (f : Folder) (r : Route) (bytes : List UInt8) :
    view.Keeps f (f.put r bytes) fun q => q = r ∧ (f.file? r).isSome := by
  refine keeps_of (fun q hq => ?_) (fun q hq => ?_) fun q held hq hno => ?_
  · rw [isFolder_iff] at hq ⊢
    rcases hq with rfl | hfolder | ⟨e, he, hprefix, hne⟩
    · exact .inl rfl
    · exact .inr (.inl hfolder)
    · refine .inr (.inr ?_)
      by_cases hr : e.1 = r
      · exact ⟨(r, bytes), List.mem_cons_self, hr ▸ hprefix, hr ▸ hne⟩
      · exact ⟨e, List.mem_cons_of_mem _ (List.mem_filter.mpr ⟨he, by simpa using hr⟩), hprefix, hne⟩
  · rw [file?_put]
    split
    · rfl
    · exact hq
  · rw [file?_put, if_neg]
    · exact hq
    · rintro rfl
      exact hno ⟨rfl, by rw [hq]; rfl⟩

theorem makeOne_keeps (hf : f.makeOne p = .ok g) : view.Keeps f g fun _ => False := by
  unfold makeOne at hf
  obtain ⟨r, -, hf⟩ := bind_eq_ok.mp hf
  split at hf
  · cases hf
  · cases hf
    refine keeps_of (fun q hq => ?_) (fun q hq => hq) fun q bytes hq _ => hq
    rw [isFolder_iff] at hq ⊢
    rcases hq with rfl | ⟨x, hx, hprefix⟩ | hfile
    · exact .inl rfl
    · exact .inr (.inl ⟨x, List.mem_cons_of_mem _ hx, hprefix⟩)
    · exact .inr (.inr hfile)

theorem makeOrFind_keeps (f : Folder) (p : Path) : view.Keeps f (f.makeOrFind p).2 fun _ => False := by
  unfold makeOrFind
  split
  · rename_i hmake
    exact makeOne_keeps hmake
  · exact .refl f

theorem makeFolder_keeps (f : Folder) (p : Path) : view.Keeps f (f.makeFolder p).2 fun _ => False := by
  fun_induction makeFolder f p with
  | case1 => exact .refl f
  | case2 p _ _ g hparent ih =>
    rw [hparent] at ih
    exact ih.trans (makeOrFind_keeps g p)
  | case3 p _ _ _ ih => exact ih
  | case4 p _ _ => exact makeOrFind_keeps f p

/-- What was written is there, and no other file has changed. -/
theorem write_ok {bytes : List UInt8} (hf : f.write p bytes = .ok g) :
    view.Keeps f g (view.target? f p = some ·) ∧ view.Holds g p bytes := by
  unfold write at hf
  obtain ⟨r, hr, hf⟩ := bind_eq_ok.mp hf
  split at hf
  · cases hf
  · rename_i hfolder
    cases hf
    rw [Bool.not_eq_true] at hfolder
    refine ⟨(keeps_put f r bytes).mono ?_, ?_⟩
    · rintro q ⟨rfl, hfile⟩
      exact target?_of_resolve hr hfolder hfile
    · obtain ⟨front, name, d, hending, hd, rfl⟩ := ending_of_resolve hr hfolder
      have hfile : (f.put (d ++ [name]) bytes).file? (d ++ [name]) = some bytes := by
        rw [file?_put, if_pos rfl]
      refine ⟨d ++ [name], ?_, hfile⟩
      rw [Disk.View.target?_eq hending ((keeps_put f _ bytes).folder? front d hd)]
      exact if_pos (by rw [hfile]; rfl)

/-! ## Its operations -/

theorem read_ok {bytes : List UInt8} (h : f.read p = .ok bytes) : view.Holds f p bytes := by
  unfold read at h
  obtain ⟨r, hr, h⟩ := bind_eq_ok.mp h
  split at h
  · cases h
  · rename_i hfolder
    rw [Bool.not_eq_true] at hfolder
    split at h
    · rename_i held hfile
      cases h
      exact ⟨r, target?_of_resolve hr hfolder (by rw [hfile]; rfl), hfile⟩
    · cases h

theorem filesUnder_ok {routes : List Route} (h : f.filesUnder p = .ok routes) :
    ∀ route ∈ routes, (view.target? f (p.joinRoute route)).isSome := by
  unfold filesUnder at h
  obtain ⟨r, -, h⟩ := bind_eq_ok.mp h
  cases h
  intro route hroute
  have hkind := (List.mem_filter.mp hroute).2
  exact target?_of_kindAt? (by simpa using hkind)

theorem lawful : disk.Lawful view where
  kind?_state _ _ := rfl
  filesUnder_state _ _ := rfl
  read_state _ _ := rfl
  kind?_file _ _ h := target?_of_kindAt? h
  filesUnder_file _ _ _ h route hroute _ := filesUnder_ok h route hroute
  read_ok _ _ _ h := read_ok h
  makeFolder_keeps p f := makeFolder_keeps f p
  write_keeps p bytes f := by
    show view.Keeps f (change (·.write p bytes) f).2 _
    rw [change]
    cases hg : f.write p bytes with
    | error fault => exact .refl f
    | ok g => exact (write_ok hg).1
  write_ok p bytes f h := by
    change (change (·.write p bytes) f).1 = .ok () at h
    show view.Holds (change (·.write p bytes) f).2 p bytes
    rw [change] at h ⊢
    cases hg : f.write p bytes with
    | error fault =>
      rw [hg] at h
      cases h
    | ok g => exact (write_ok hg).2

end Ferrite.Folder
