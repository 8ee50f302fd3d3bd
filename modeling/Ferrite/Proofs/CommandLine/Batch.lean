import Ferrite.CommandLine.Run
import Ferrite.Proofs.CommandLine.Output
import Ferrite.Proofs.Files.Folder
import Ferrite.Proofs.Goals

/-!
Runs over many inputs. A run changes the files that the paths of modules lead to and nothing else, and an
input that compiles has its module at the end, as long as no other module gets into its files.
-/

namespace Ferrite.CommandLine

/-- A text without errors, and what it was compiled to. -/
def Succeeds (file : FileId) (p : Path) (text : String) (c : Compiled) : Prop :=
  compile file p.display text .wasm = .ok c ∧ c.ensureSuccess = .ok ()

theorem Succeeds.exists_wasm {file : FileId} {p : Path} {text : String} {c : Compiled} (h : Succeeds file p text c) :
    ∃ bytes, c.wasm = some bytes := by
  obtain ⟨hcompile, hsuccess⟩ := h
  rcases compile_goals file p.display text with ⟨construct, span, hfail⟩ | ⟨checked, tree, -, -, hpasses, -⟩
  · rw [hfail] at hcompile
    cases hcompile
  · obtain ⟨-, -, hpass⟩ := hpasses _ _ hcompile
    have hzero : c.errors = 0 := by
      unfold Compiled.ensureSuccess at hsuccess
      split at hsuccess
      · assumption
      · cases hsuccess
    exact Option.isSome_iff_exists.mp (hpass.wasm.mpr ⟨rfl, hzero⟩)

/-- Where no error is counted, the text succeeds. -/
theorem exists_succeeds {file : FileId} {p : Path} {text : String}
    (h : (compile file p.display text .wasm).toOption.map Compiled.errors = some 0) : ∃ c, Succeeds file p text c := by
  cases hc : compile file p.display text .wasm with
  | error e =>
    rw [hc] at h
    cases h
  | ok c =>
    rw [hc] at h
    refine ⟨c, hc, ?_⟩
    rw [Compiled.ensureSuccess, if_pos (Option.some.inj h)]

section

variable {σ δ ι : Type} {disk : Disk (StateM σ)} {v : Disk.View σ δ ι} {options : Options}

/-- The module is where it belongs, or the trouble with reading the input or with writing the module is
told. -/
def Delivered (v : Disk.View σ δ ι) (s : σ) (input output : Path) (c : Compiled) (o : Outcome) : Prop :=
  ∃ bytes, c.wasm = some bytes ∧
    (v.Holds s output bytes ∨ (∃ fault, o.trouble = some (.read input fault)) ∨ ∃ e, o.trouble = some (.write e))

theorem deliver_spec (hd : disk.Lawful v) (hgoal : options.goal = some .wasm) (s : σ) (input : Path)
    (c : Compiled) :
    v.Keeps s (deliver disk options input c s).2
        (v.target? (deliver disk options input c s).2 (outputPath options.outDir input) = some ·) ∧
      ∀ bytes, c.wasm = some bytes →
        v.Holds (deliver disk options input c s).2 (outputPath options.outDir input) bytes ∨
          ∃ e, (deliver disk options input c s).1.2 = some (.write e) := by
  unfold deliver
  rw [hgoal, Option.getD_some]
  cases hwasm : c.wasm with
  | none => exact ⟨.refl s, nofun⟩
  | some bytes =>
    dsimp only
    rw [bind_run]
    obtain ⟨hkeeps, hholds⟩ := writeModule_spec hd (outputPath options.outDir input) bytes s
    generalize writeModule disk (outputPath options.outDir input) bytes s = written at hkeeps hholds
    obtain ⟨result, s'⟩ := written
    cases result with
    | error e => exact ⟨hkeeps, fun _ _ => .inr ⟨e, rfl⟩⟩
    | ok u =>
      refine ⟨hkeeps, ?_⟩
      rintro _ ⟨⟩
      exact .inl (hholds rfl)

theorem processText_spec (hd : disk.Lawful v) (hgoal : options.goal = some .wasm) (s : σ) (file : FileId)
    (input : Path) (text : String) :
    v.Keeps s (processText disk options file input text s).2
        (v.target? (processText disk options file input text s).2 (outputPath options.outDir input) = some ·) ∧
      ∀ c, Succeeds file input text c →
        Delivered v (processText disk options file input text s).2 input (outputPath options.outDir input) c
          (processText disk options file input text s).1 := by
  unfold processText
  rw [hgoal, Option.getD_some]
  dsimp only
  cases hcompile : compile file input.display text .wasm with
  | error failure =>
    refine ⟨.refl s, fun c hc => ?_⟩
    cases hcompile.symm.trans hc.1
  | ok c =>
    dsimp only
    cases hsuccess : c.ensureSuccess with
    | error failure =>
      refine ⟨.refl s, fun c' hc => ?_⟩
      cases hcompile.symm.trans hc.1
      cases hsuccess.symm.trans hc.2
    | ok u =>
      obtain ⟨hkeeps, hdelivers⟩ := deliver_spec hd hgoal s input c
      refine ⟨hkeeps, fun c' hc => ?_⟩
      cases hcompile.symm.trans hc.1
      obtain ⟨bytes, hbytes⟩ := hc.exists_wasm
      exact ⟨bytes, hbytes, (hdelivers bytes hbytes).imp_right .inr⟩

/-- One step of a run. -/
theorem process_spec (hd : disk.Lawful v) (hgoal : options.goal = some .wasm) (s : σ) (file : FileId)
    (entry : Except Failure Path) :
    v.Keeps s (process disk options file entry s).2
        (fun i => ∃ p, entry = .ok p ∧
          v.target? (process disk options file entry s).2 (outputPath options.outDir p) = some i) ∧
      ∀ p bytes text c, entry = .ok p → v.Holds s p bytes → textOfBytes bytes = .ok text →
        Succeeds file p text c →
        Delivered v (process disk options file entry s).2 p (outputPath options.outDir p) c
          (process disk options file entry s).1 := by
  cases entry with
  | error failure => exact ⟨.refl s, nofun⟩
  | ok input =>
    have hread : disk.readText input s = ((disk.read input s).1.bind textOfBytes, (disk.read input s).2) := rfl
    unfold process
    dsimp only
    rw [bind_run, hread, hd.read_state]
    dsimp only
    cases htext : (disk.read input s).1.bind textOfBytes with
    | error fault =>
      refine ⟨.refl s, ?_⟩
      rintro _ bytes text c ⟨⟩ - - hc
      obtain ⟨code, hcode⟩ := hc.exists_wasm
      exact ⟨code, hcode, .inr (.inl ⟨fault, rfl⟩)⟩
    | ok text =>
      obtain ⟨hkeeps, hdelivers⟩ := processText_spec hd hgoal s file input text
      refine ⟨hkeeps.mono fun i hi => ⟨input, rfl, hi⟩, ?_⟩
      rintro _ bytes text' c ⟨⟩ hholds hdecoded hc
      obtain ⟨found, hfound, htext⟩ := bind_eq_ok.mp htext
      cases hholds.unique (hd.read_ok input s found hfound)
      cases htext.symm.trans hdecoded
      exact hdelivers c hc

/-! ## A whole run -/

/-- The work on the inputs in turn, numbered from `k` on. -/
def work (disk : Disk (StateM σ)) (options : Options) (entries : List (Except Failure Path)) (k : Nat) :
    StateM σ (List Outcome) :=
  (entries.zipIdx k).mapM fun (input, file) => process disk options file input

theorem work_cons (e : Except Failure Path) (entries : List (Except Failure Path)) (k : Nat) (s : σ) :
    work disk options (e :: entries) k s =
      ((process disk options k e s).1 :: (work disk options entries (k + 1) (process disk options k e s).2).1,
        (work disk options entries (k + 1) (process disk options k e s).2).2) := by
  rw [work, List.zipIdx_cons, List.mapM_cons]
  rfl

/-- A run changes the files that the paths of modules lead to in the end, and no others. -/
theorem work_keeps (hd : disk.Lawful v) (hgoal : options.goal = some .wasm)
    (entries : List (Except Failure Path)) (k : Nat) (s : σ) :
    v.Keeps s (work disk options entries k s).2 fun i => ∃ p, .ok p ∈ entries ∧
      v.target? (work disk options entries k s).2 (outputPath options.outDir p) = some i := by
  induction entries generalizing k s with
  | nil => exact .refl s
  | cons e entries ih =>
    rw [work_cons]
    have hfirst := (process_spec hd hgoal s k e).1
    have hrest := ih (k + 1) (process disk options k e s).2
    refine (hfirst.mono ?_).trans (hrest.mono ?_)
    · rintro i ⟨p, rfl, hi⟩
      exact ⟨p, List.mem_cons_self, hrest.target? hi⟩
    · rintro i ⟨p, hp, hi⟩
      exact ⟨p, List.mem_cons_of_mem _ hp, hi⟩

/-- An input that compiles has its module at the end, unless the module of a later input gets into the same
file. What the module of an earlier input got into is lost before it is compiled. -/
theorem work_delivers (hd : disk.Lawful v) (hgoal : options.goal = some .wasm)
    {entries : List (Except Failure Path)} (k : Nat) (s : σ) {i : Nat} {p : Path} {bytes : List UInt8}
    {text : String} {c : Compiled} (hi : entries[i]? = some (.ok p))
    (hbefore : ∀ j q, j < i → entries[j]? = some (.ok q) →
      v.Apart (work disk options entries k s).2 p (outputPath options.outDir q))
    (hbehind : ∀ j q, i < j → entries[j]? = some (.ok q) →
      v.Apart (work disk options entries k s).2 (outputPath options.outDir p) (outputPath options.outDir q))
    (hholds : v.Holds s p bytes) (htext : textOfBytes bytes = .ok text) (hc : Succeeds (k + i) p text c) :
    ∃ o, (work disk options entries k s).1[i]? = some o ∧
      Delivered v (work disk options entries k s).2 p (outputPath options.outDir p) c o := by
  induction entries generalizing k s i with
  | nil => simp at hi
  | cons e entries ih =>
    obtain ⟨hkeeps, hdelivers⟩ := process_spec hd hgoal s k e
    have hrest := work_keeps hd hgoal entries (k + 1) (process disk options k e s).2
    rw [work_cons] at hbefore hbehind ⊢
    cases i with
    | zero =>
      obtain rfl : e = .ok p := by simpa using hi
      obtain ⟨code, hcode, hdone⟩ := hdelivers p bytes text c rfl hholds htext hc
      refine ⟨_, rfl, code, hcode, hdone.imp_left fun hthere => hrest.holds hthere ?_⟩
      rintro i hown ⟨q, hq, hother⟩
      obtain ⟨j, hj⟩ := List.mem_iff_getElem?.mp hq
      exact hbehind (j + 1) q (Nat.succ_pos j) hj i (hrest.target? hown) hother
    | succ i =>
      have hstill : v.Holds (process disk options k e s).2 p bytes := by
        refine hkeeps.holds hholds ?_
        rintro i' hown ⟨q, rfl, hother⟩
        exact hbefore 0 q (Nat.succ_pos i) rfl i' (hrest.target? (hkeeps.target? hown)) (hrest.target? hother)
      refine ih (k + 1) _ hi ?_ ?_ hstill (by rwa [Nat.add_assoc, Nat.add_comm 1 i])
      · intro j q hj
        exact hbefore (j + 1) q (Nat.succ_lt_succ hj)
      · intro j q hj
        exact hbehind (j + 1) q (Nat.succ_lt_succ hj)

theorem outcomes_eq (hd : disk.Lawful v) (s : σ) :
    outcomes disk options s = work disk options (collect disk options.paths s).1 0 s := by
  rw [outcomes, bind_run, (hd.collect options.paths s).1]
  rfl

end

/-- A source file in a folder, and one beside the folder. -/
def tree : Folder where
  files := [(["src".toList, "a.rs".toList], "fn f() \x7b \x7d".toUTF8.data.toList), (["b.txt".toList], [])]

def intoFolder : Options :=
  { paths := ["src".toList, "b.txt".toList], goal := some .wasm, outDir := some "out".toList }

/-- Two source files with the same stem, and one with a folder at the place of its module. -/
def twins : Folder where
  files := [(["a.rs".toList], "fn f() \x7b \x7d".toUTF8.data.toList), (["a.txt".toList], []), (["b.rs".toList], [])]
  folders := [["b.wasm".toList]]

def both : Options := { paths := ["a.rs".toList, "a.txt".toList], goal := some .wasm }

end Ferrite.CommandLine
