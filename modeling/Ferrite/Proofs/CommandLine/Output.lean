import Ferrite.CommandLine.Output
import Ferrite.Proofs.Files.Disk

/-!
The file of a module: what its path is, what name it has in an output folder, and what writing it
changes.
-/

namespace Ferrite.CommandLine

open Ferrite.Path

/-! ## Its place -/

/-- The name of the module for a stem. -/
def moduleName (stem : Path) : Path := stem ++ '.' :: moduleExtension

/-- What stands before the name of a module: what stands before that of the input, or the output folder. -/
def home (outDir : Option Path) (input : Path) : Path :=
  match outDir with
  | none => input.splitLast.1
  | some folder => folder.join []

/-- The stems that name their modules. One dot alone is no stem with another extension behind it, and
in an output folder a stem has no extension of its own. -/
def Plain (outDir : Option Path) (stem : Path) : Prop :=
  stem ≠ ['.'] ∧ (outDir.isSome → (splitDot stem).2 = none)

theorem isName_moduleName {stem : Path} (h : '/' ∉ stem) : IsName (moduleName stem) := by
  have hlong : 4 < (moduleName stem).length := by simp [moduleName, moduleExtension]
  constructor
  · simp [moduleName, moduleExtension, h]
  · intro heq
    simp [heq] at hlong
  · intro heq
    simp [heq] at hlong
  · intro heq
    simp [heq] at hlong

theorem isName_stem {folder name : Path} (h : IsName name) (hplain : Plain (some folder) (splitDot name).1) :
    IsName (splitDot name).1 where
  slash := h.stem.2
  nonempty := h.stem.1
  ne_here := hplain.1
  ne_above := by
    intro heq
    have hnone := hplain.2 rfl
    rw [heq] at hnone
    cases hnone

section

variable {outDir : Option Path} {input front name : Path}

theorem home_none (h : input.ending? = some (front, name)) : home none input = front := by
  obtain ⟨hopens, hname, rfl⟩ := ending?_eq_some_iff.mp h
  have hsplit := splitLast_part hopens hname.slash hname.nonempty hname.ne_here .nil
  rw [List.append_nil] at hsplit
  rw [home, hsplit]

/-- The module of an input is `stem.wasm` in its home. -/
theorem ending?_outputPath (h : input.ending? = some (front, name)) (hplain : Plain outDir (splitDot name).1) :
    (outputPath outDir input).ending? = some (home outDir input, moduleName (splitDot name).1) := by
  obtain ⟨hopens, hname, heq⟩ := ending?_eq_some_iff.mp h
  refine ending?_eq_some_iff.mpr ?_
  cases outDir with
  | none =>
    rw [home_none h]
    refine ⟨hopens, isName_moduleName hname.stem.2, ?_⟩
    rw [outputPath, heq, withExtension_name hopens hname hplain.1, moduleName]
  | some folder =>
    have hstem : IsName (splitDot name).1 := isName_stem hname hplain
    have hwhole : (splitDot (splitDot name).1).1 = (splitDot name).1 := by
      rw [splitDot_of_none (hplain.2 rfl)]
    refine ⟨opens_join folder, isName_moduleName hname.stem.2, ?_⟩
    rw [outputPath, stem?_of_ending? h, Option.getD_some, join_eq, withExtension_name (opens_join folder) hstem,
      hwhole, home, moduleName]
    rw [hwhole]
    exact hplain.1

end

/-! ## Its name -/

theorem name?_moduleName {folder stem : Path} (h : Opens folder) (hstem : '/' ∉ stem) :
    (folder ++ moduleName stem).name? = some (moduleName stem) :=
  name?_eq_some_iff.mpr ⟨folder, splitName?_name h (isName_moduleName hstem)⟩

/-- Beside its input a module has the stem of the input, if it has a name at all. -/
theorem name?_outputPath {input name : Path} (h : input.name? = some name) :
    (∀ n, (outputPath none input).name? = some n → n = moduleName (splitDot name).1) ∧
      ((splitDot name).1 ≠ ['.'] → (outputPath none input).name? = some (moduleName (splitDot name).1)) := by
  obtain ⟨folder, hsplit⟩ := name?_eq_some_iff.mp h
  obtain ⟨hopens, hname, -⟩ := splitName?_eq_some_iff.mp hsplit
  have hmodule := name?_moduleName hopens hname.stem.2
  rw [outputPath]
  rcases withExtension_cases hsplit moduleExtension with heq | ⟨hdot, heq⟩
  · rw [heq]
    exact ⟨fun n hn => Option.some.inj (hn.symm.trans hmodule), fun _ => hmodule⟩
  · rw [heq, name?, splitName?_above hopens]
    refine ⟨fun n hn => ?_, fun hstem => absurd hdot hstem⟩
    cases hn

/-- The extension of modules stands behind the whole of a part if the part is a name without extension. -/
theorem withExtension_part_iff {folder part : Path} (h : Opens folder) (hslash : '/' ∉ part) :
    (folder ++ part).withExtension moduleExtension = folder ++ moduleName part ↔
      IsName part ∧ (splitDot part).2 = none := by
  constructor
  · intro heq
    cases hsplit : (folder ++ part).splitName? with
    | none =>
      rw [withExtension_none hsplit, List.append_cancel_left_eq] at heq
      simp [moduleName] at heq
    | some split =>
      obtain ⟨front, name⟩ := split
      obtain ⟨hopens, hname, trail, -, hwhole⟩ := splitName?_eq_some_iff.mp hsplit
      rcases withExtension_cases hsplit moduleExtension with hstem | ⟨-, habove⟩
      · -- the part is the name and what stands behind it, and also the stem of the name
        obtain ⟨rfl, hmodule⟩ := opens_inj hopens h (isName_moduleName hname.stem.2).slash
          (isName_moduleName hslash).slash (hstem.symm.trans heq)
        have hpart : (splitDot name).1 = part := List.append_cancel_right hmodule
        have htail : part = name ++ trail := by simpa using hwhole
        rcases splitDot_cases name with hnone | ⟨stem, own, -, -, hlong, hsome⟩
        · rw [hnone] at hpart
          obtain rfl : name = part := hpart
          exact ⟨hname, by rw [hnone]⟩
        · rw [hsome] at hpart
          obtain rfl : stem = part := hpart
          rw [hlong] at htail
          simp at htail
      · have hmodule := name?_moduleName h hslash
        rw [← heq, habove, name?, splitName?_above hopens] at hmodule
        cases hmodule
  · rintro ⟨hname, hnone⟩
    have hwhole := splitDot_of_none hnone
    rw [withExtension_name h hname (by rw [hwhole]; exact hname.ne_here), hwhole, moduleName]

/-- A part with an extension names something, unless it is two dots. -/
theorem isName_of_splitDot {part front own : Path} (hslash : '/' ∉ part)
    (hsplit : splitDot part = (front, some own)) (hfront : front ≠ ['.']) : IsName part := by
  refine ⟨hslash, ?_, ?_, ?_⟩
  · rintro rfl
    cases hsplit
  · rintro rfl
    cases hsplit
  · rintro rfl
    obtain rfl : ['.'] = front := congrArg Prod.fst hsplit
    exact hfront rfl

/-- In an output folder a module has the name it has beside its input exactly if the stem of the input is
not one dot and has no extension of its own. Such an extension is lost in the folder. -/
theorem module_keeps_name_iff {input name : Path} (h : input.name? = some name) (folder : Path) :
    ((∃ n, (outputPath none input).name? = some n ∧ outputPath (some folder) input = folder.join n) ↔
        Plain (some folder) (splitDot name).1) ∧
      ∀ front own, splitDot (splitDot name).1 = (front, some own) → front ≠ ['.'] →
        (outputPath none input).name? = some (moduleName (front ++ '.' :: own)) ∧
          outputPath (some folder) input = folder.join (moduleName front) := by
  obtain ⟨hunique, hbeside⟩ := name?_outputPath h
  obtain ⟨dir, hsplit⟩ := name?_eq_some_iff.mp h
  obtain ⟨-, hname, -⟩ := splitName?_eq_some_iff.mp hsplit
  have hbase := opens_join folder
  have hfolder : outputPath (some folder) input =
      (folder.join [] ++ (splitDot name).1).withExtension moduleExtension := by
    rw [outputPath, stem?, hsplit, Option.map_some, Option.getD_some, join_eq]
  have hiff := withExtension_part_iff hbase hname.stem.2
  constructor
  · constructor
    · rintro ⟨n, hn, heq⟩
      rw [hunique n hn, hfolder, join_eq folder (moduleName _)] at heq
      obtain ⟨hstem, hnone⟩ := hiff.mp heq
      exact ⟨hstem.ne_here, fun _ => hnone⟩
    · intro hplain
      refine ⟨_, hbeside hplain.1, ?_⟩
      rw [hfolder, join_eq folder (moduleName _)]
      exact hiff.mpr ⟨isName_stem hname hplain, hplain.2 rfl⟩
  · intro front own hown hfront
    have hstem : IsName (splitDot name).1 := isName_of_splitDot hname.stem.2 hown hfront
    refine ⟨?_, ?_⟩
    · rw [hbeside hstem.ne_here, eq_of_splitDot hown]
    · rw [hfolder, withExtension_name hbase hstem (by rw [hown]; exact hfront), hown,
        join_eq folder (moduleName _), moduleName]

/-- A stem with an extension of its own, and one without. -/
theorem module_keeps_name_iff_dotted :
    Path.name? "d/p.q.rs".toList = some "p.q.rs".toList ∧
      (outputPath none "d/p.q.rs".toList).name? = some "p.q.wasm".toList ∧
      outputPath (some "o".toList) "d/p.q.rs".toList = "o/p.wasm".toList ∧
      ∃ n, (outputPath none "d/.p.rs".toList).name? = some n ∧
        outputPath (some "o".toList) "d/.p.rs".toList = Path.join "o".toList n := by
  have hdotted : Path.name? "d/p.q.rs".toList = some "p.q.rs".toList := by decide
  have hplain : Path.name? "d/.p.rs".toList = some ".p.rs".toList := by decide
  obtain ⟨hbeside, hfolder⟩ :=
    (module_keeps_name_iff hdotted "o".toList).2 "p".toList "q".toList (by decide) (by decide)
  exact ⟨hdotted, hbeside, hfolder, (module_keeps_name_iff hplain "o".toList).1.mpr ⟨by decide, by decide⟩⟩

/-- The folder takes more from the name than the extension of the input. -/
theorem folder_changes_name : ¬ ∀ folder input : Path, input.name?.isSome →
    ∃ n, (outputPath none input).name? = some n ∧ outputPath (some folder) input = folder.join n := by
  intro hall
  obtain ⟨n, hn, heq⟩ := hall "o".toList "d/p.q.rs".toList (by decide)
  obtain rfl : n = "p.q.wasm".toList := Option.some.inj (hn.symm.trans (by decide))
  revert heq
  decide

/-! ## Writing it -/

section

variable {σ δ ι : Type} {disk : Disk (StateM σ)} {v : Disk.View σ δ ι}

theorem makeParent_keeps (hd : disk.Lawful v) (p : Path) (s : σ) :
    v.Keeps s (makeParent disk p s).2 fun _ => False := by
  unfold makeParent
  split
  · exact .refl s
  · rw [bind_run]
    have hmade := hd.makeFolder_keeps p.parent s
    generalize disk.makeFolder p.parent s = made at hmade
    obtain ⟨result, s'⟩ := made
    cases result <;> exact hmade

/-- Nothing changes but the file that the path leads to in the end, and where no fault is told it holds the
module. -/
theorem writeModule_spec (hd : disk.Lawful v) (p : Path) (bytes : List UInt8) (s : σ) :
    v.Keeps s (writeModule disk p bytes s).2 (v.target? (writeModule disk p bytes s).2 p = some ·) ∧
      ((writeModule disk p bytes s).1 = .ok () → v.Holds (writeModule disk p bytes s).2 p bytes) := by
  rw [writeModule, bind_run]
  have hparent := makeParent_keeps hd p s
  generalize makeParent disk p s = made at hparent
  obtain ⟨result, s₁⟩ := made
  cases result with
  | error e => exact ⟨hparent.mono fun _ hno => hno.elim, nofun⟩
  | ok u =>
    dsimp only
    rw [bind_run]
    have hkeeps := hd.write_keeps p bytes s₁
    have hholds := hd.write_ok p bytes s₁
    generalize disk.write p bytes s₁ = written at hkeeps hholds
    obtain ⟨result, s₂⟩ := written
    have hwhole := (hparent.mono fun _ hno => hno.elim).trans (hkeeps.mono fun _ hi => hkeeps.target? hi)
    cases result with
    | error fault => exact ⟨hwhole, nofun⟩
    | ok u => exact ⟨hwhole, fun _ => hholds rfl⟩

end

end Ferrite.CommandLine
