import Ferrite.Files.Collect
import Ferrite.Proofs.Files.Path

/-!
What is relied on of a file system, with nothing else at work on it: a path that ends in a name is looked up
in the folder before that name, looking changes nothing, and nothing that is made or written takes away what is
there or changes another file. Folders and files may have many paths, also by links.
-/

namespace Ferrite

theorem bind_run {σ α β : Type} (m : StateM σ α) (k : α → StateM σ β) (s : σ) :
    (m >>= k) s = k (m s).1 (m s).2 := rfl

namespace Disk

/-- How the states of a file system are looked at. -/
structure View (σ δ ι : Type) where
  /-- The folder in which a name right behind the path is looked up. -/
  folder? : σ → Path → Option δ
  /-- The file that a name in a folder stands for, also as a link. -/
  file? : σ → δ → Path → Option ι
  content? : σ → ι → Option (List UInt8)

variable {σ δ ι : Type}

namespace View

variable (v : View σ δ ι)

/-- The folder that a path leads into, and the name it has there at its end. -/
def place? (s : σ) (p : Path) : Option (δ × Path) :=
  p.ending?.bind fun (front, name) => (v.folder? s front).map (·, name)

/-- The file that a path leads to. -/
def target? (s : σ) (p : Path) : Option ι :=
  (v.place? s p).bind fun (folder, name) => v.file? s folder name

/-- The path leads to a file with the given bytes in it. -/
def Holds (s : σ) (p : Path) (bytes : List UInt8) : Prop :=
  ∃ i, v.target? s p = some i ∧ v.content? s i = some bytes

/-- There is no file that both paths lead to. -/
def Apart (s : σ) (p q : Path) : Prop := ∀ i, v.target? s p = some i → v.target? s q ≠ some i

/-- From one state to a later one: what was there is still found, and of the files that were there only some
were written to. -/
structure Keeps (s s' : σ) (touched : ι → Prop) : Prop where
  folder? : ∀ p d, v.folder? s p = some d → v.folder? s' p = some d
  file? : ∀ d name i, v.file? s d name = some i → v.file? s' d name = some i
  content? : ∀ i bytes, v.content? s i = some bytes → ¬ touched i → v.content? s' i = some bytes

variable {v} {s s' s'' : σ} {p : Path} {touched touched' : ι → Prop} {bytes : List UInt8}

theorem place?_eq {front name : Path} (h : p.ending? = some (front, name)) (s : σ) :
    v.place? s p = (v.folder? s front).map (·, name) := by
  rw [place?, h, Option.bind_some]

/-- A path that leads to a file ends in a name. -/
theorem exists_ending {i : ι} (h : v.target? s p = some i) : ∃ front name d,
    p.ending? = some (front, name) ∧ v.folder? s front = some d ∧ v.file? s d name = some i := by
  obtain ⟨⟨d, name⟩, hplace, hfile⟩ := Option.bind_eq_some_iff.mp h
  obtain ⟨⟨front, last⟩, hending, hfound⟩ := Option.bind_eq_some_iff.mp hplace
  obtain ⟨e, hfolder, heq⟩ := Option.map_eq_some_iff.mp hfound
  cases heq
  exact ⟨front, name, d, hending, hfolder, hfile⟩

theorem target?_eq {front name : Path} {d : δ} (h : p.ending? = some (front, name))
    (hd : v.folder? s front = some d) : v.target? s p = v.file? s d name := by
  rw [target?, place?_eq h, hd]
  rfl

theorem Holds.unique {bytes' : List UInt8} (h : v.Holds s p bytes) (h' : v.Holds s p bytes') :
    bytes = bytes' := by
  obtain ⟨i, hi, hbytes⟩ := h
  obtain ⟨j, hj, hbytes'⟩ := h'
  cases hi.symm.trans hj
  exact Option.some.inj (hbytes.symm.trans hbytes')

theorem Apart.of_ne {q : Path} (h : v.target? s p ≠ v.target? s q) : v.Apart s p q :=
  fun _ hp hq => h (hp.trans hq.symm)

namespace Keeps

theorem refl (s : σ) : v.Keeps s s touched := ⟨fun _ _ h => h, fun _ _ _ h => h, fun _ _ h _ => h⟩

theorem trans (h : v.Keeps s s' touched) (h' : v.Keeps s' s'' touched) : v.Keeps s s'' touched where
  folder? p d hd := h'.folder? p d (h.folder? p d hd)
  file? d name i hi := h'.file? d name i (h.file? d name i hi)
  content? i bytes hi ht := h'.content? i bytes (h.content? i bytes hi ht) ht

theorem mono (h : v.Keeps s s' touched) (ht : ∀ i, touched i → touched' i) : v.Keeps s s' touched' where
  folder? := h.folder?
  file? := h.file?
  content? i bytes hi hno := h.content? i bytes hi fun hold => hno (ht i hold)

theorem target? (h : v.Keeps s s' touched) {i : ι} (hi : v.target? s p = some i) :
    v.target? s' p = some i := by
  obtain ⟨front, name, d, hending, hfolder, hfile⟩ := exists_ending hi
  rw [target?_eq hending (h.folder? front d hfolder)]
  exact h.file? d name i hfile

theorem holds (h : v.Keeps s s' touched) (hp : v.Holds s p bytes)
    (ht : ∀ i, v.target? s p = some i → ¬ touched i) : v.Holds s' p bytes := by
  obtain ⟨i, hi, hbytes⟩ := hp
  exact ⟨i, h.target? hi, h.content? i bytes hbytes (ht i hi)⟩

end Keeps
end View

/-- What the operations of a file system do. -/
structure Lawful (disk : Disk (StateM σ)) (v : View σ δ ι) : Prop where
  kind?_state : ∀ p s, (disk.kind? p s).2 = s
  filesUnder_state : ∀ p s, (disk.filesUnder p s).2 = s
  read_state : ∀ p s, (disk.read p s).2 = s
  kind?_file : ∀ p s, (disk.kind? p s).1 = some .file → (v.target? s p).isSome
  /-- Each file in a folder is found by the names on the way to it. -/
  filesUnder_file : ∀ p s routes, (disk.filesUnder p s).1 = .ok routes →
    ∀ route ∈ routes, route ≠ [] → (v.target? s (p.joinRoute route)).isSome
  read_ok : ∀ p s bytes, (disk.read p s).1 = .ok bytes → v.Holds s p bytes
  makeFolder_keeps : ∀ p s, v.Keeps s (disk.makeFolder p s).2 fun _ => False
  /-- A write that fails may have changed the file all the same. -/
  write_keeps : ∀ p bytes s, v.Keeps s (disk.write p bytes s).2 (v.target? s p = some ·)
  write_ok : ∀ p bytes s, (disk.write p bytes s).1 = .ok () → v.Holds (disk.write p bytes s).2 p bytes

namespace Lawful

variable {disk : Disk (StateM σ)} {v : View σ δ ι}

/-- What a path stands for is looked up only, and all of it are files. -/
theorem collectPath (hd : disk.Lawful v) (p : Path) (s : σ) : (collectPath disk p s).2 = s ∧
    ∀ q, .ok q ∈ (Ferrite.collectPath disk p s).1 → (v.target? s q).isSome := by
  rw [Ferrite.collectPath, bind_run, hd.kind?_state]
  cases hp : (disk.kind? p s).1 with
  | none => exact ⟨rfl, fun q hq => by cases hq; contradiction⟩
  | some kind =>
    cases kind with
    | file =>
      refine ⟨rfl, fun q hq => ?_⟩
      obtain rfl : q = p := Except.ok.inj (List.mem_singleton.mp hq)
      exact hd.kind?_file q s hp
    | folder =>
      dsimp only
      rw [bind_run, hd.filesUnder_state]
      cases hroutes : (disk.filesUnder p s).1 with
      | error fault => exact ⟨rfl, fun q hq => by cases hq; contradiction⟩
      | ok routes =>
        refine ⟨rfl, fun q hq => ?_⟩
        obtain ⟨_, hq, heq⟩ := List.mem_map.mp hq
        cases heq
        simp only [sourcesUnder, List.mem_map, List.mem_mergeSort, List.mem_filter] at hq
        obtain ⟨route, ⟨hroute, hsource⟩, rfl⟩ := hq
        refine hd.filesUnder_file p s routes hroutes route hroute ?_
        rintro rfl
        cases hsource

theorem collect (hd : disk.Lawful v) (paths : List Path) (s : σ) : (collect disk paths s).2 = s ∧
    ∀ q, .ok q ∈ (Ferrite.collect disk paths s).1 → (v.target? s q).isSome := by
  have hmapM : ∀ paths : List Path, (paths.mapM (Ferrite.collectPath disk)) s =
      (paths.map fun p => (Ferrite.collectPath disk p s).1, s) := by
    intro paths
    induction paths with
    | nil => rfl
    | cons p paths ih =>
      rw [List.mapM_cons, bind_run, (hd.collectPath p s).1, bind_run, ih]
      rfl
  rw [Ferrite.collect, bind_run, hmapM]
  refine ⟨rfl, fun q hq => ?_⟩
  obtain ⟨found, hfound, hq⟩ := List.mem_flatten.mp hq
  obtain ⟨p, -, rfl⟩ := List.mem_map.mp hfound
  exact (hd.collectPath p s).2 q hq

end Lawful
end Disk
end Ferrite
