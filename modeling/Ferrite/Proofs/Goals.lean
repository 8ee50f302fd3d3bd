import Ferrite.Proofs.Layout
import Ferrite.Proofs.Lower.Module
import Ferrite.Proofs.Parse.Concat

/-!
What compiling one text for different goals has in common. The passes are the same ones in the same
order, each of them only behind passes that found no error, and no goal changes what a pass finds.
-/

namespace Ferrite

/-- The code is one for names and types. -/
def Code.IsSemantic (c : Code) : Prop := "E02".toList <+: c.number.toList

/-- The messages about a text and then those about its grammar. -/
def said (file : FileId) (text : String) : List Diagnostic :=
  (Lexer.read file text).diagnostics ++ (Parse.run Parse.program (Lexer.read file text).tokens).diagnostics

/-- What compiling a text for a goal gave, where nothing stopped it. -/
structure Passes (file : FileId) (text : String) (goal : Goal) (c : Compiled) : Prop where
  /-- The messages stand in the order of the passes, and none about names is about a mere tree. -/
  messages : ∃ found, c.log.toList = said file text ++ found ∧
    (found = [] ∨ goal ≠ .tree ∧ found = (Check.run c.program).2.map Check.Problem.diagnostic)
  /-- Names and types are looked at only behind a text and a grammar without errors. -/
  gated : (∃ d ∈ c.log.toList, d.code.IsSemantic) ∨ c.checked.types.entries ≠ [] →
    ∀ d ∈ said file text, d.isError = false
  wasm : c.wasm.isSome ↔ goal = .wasm ∧ c.errors = 0
  /-- What is counted again is what was counted on the way. -/
  counter : c.errors = c.log.errors
  success : ∀ f, c.ensureSuccess = .error f ↔
    f = .compilationFailed c.errors ∧ ∃ d ∈ c.log.toList, d.isError = true

/-! ## Codes of messages -/

theorem Code.isSemantic_iff (c : Code) : c.IsSemantic ↔
    c ∈ [undefinedSymbol, incompatibleTypes, invalidCall, redefinition, invalidAssignment, invalidOperand] := by
  unfold IsSemantic
  cases c <;> decide

theorem Lexer.Problem.not_semantic (problem : Problem) : ¬ problem.code.IsSemantic := by
  rw [Code.isSemantic_iff]
  cases problem <;> simp [code]

theorem Parse.Problem.not_semantic (problem : Problem) : ¬ problem.code.IsSemantic := by
  rw [Code.isSemantic_iff]
  cases problem <;> simp [code]

theorem not_semantic_of_said {file : FileId} {text : String} {d : Diagnostic} (h : d ∈ said file text) :
    ¬ d.code.IsSemantic := by
  rcases List.mem_append.mp h with h | h
  · obtain ⟨p, -, rfl⟩ := List.mem_map.mp h
    exact p.value.not_semantic
  · obtain ⟨p, -, rfl⟩ := List.mem_map.mp h
    exact p.value.not_semantic

/-! ## Counted errors -/

theorem Log.hasErrors_eq_false (log : Log) :
    log.hasErrors = false ↔ ∀ d ∈ log.toList, d.isError = false := by
  rw [log.hasErrors_toList, List.any_eq_false]
  simp only [Bool.not_eq_true]

namespace Compiled

theorem errors_eq (c : Compiled) : c.errors = c.log.errors := c.log.errors_toList.symm

theorem errors_eq_zero (c : Compiled) : c.errors = 0 ↔ c.log.hasErrors = false := by
  rw [errors, c.log.hasErrors_eq_false, List.countP_eq_zero]
  simp only [Bool.not_eq_true]

/-- A text fails exactly for an error in its log. -/
theorem ensureSuccess_eq_error (c : Compiled) (f : Failure) : c.ensureSuccess = .error f ↔
    f = .compilationFailed c.errors ∧ ∃ d ∈ c.log.toList, d.isError = true := by
  unfold ensureSuccess
  by_cases h : c.errors = 0
  · have hnone : ¬ ∃ d ∈ c.log.toList, d.isError = true := by
      rintro ⟨d, hd, herror⟩
      exact List.countP_eq_zero.mp h d hd herror
    simp only [h, hnone, if_true, and_false, reduceCtorEq]
  · have hsome : ∃ d ∈ c.log.toList, d.isError = true :=
      List.countP_pos_iff.mp (Nat.pos_of_ne_zero h)
    rw [if_neg h]
    constructor
    · rintro ⟨⟩
      exact ⟨rfl, hsome⟩
    · rintro ⟨rfl, -⟩
      rfl

end Compiled

/-! ## Passes behind the parser -/

section

variable {source : Source} {goal : Goal} {p : Program} {log : Log} {f : Failure} {c : Compiled}

/-- The log behind the check of a program. -/
def checkedLog (p : Program) (log : Log) : Log :=
  log.append ((Check.run p).2.map Check.Problem.diagnostic)

/-- A mere tree is left as it is, and so is a program with errors. -/
theorem finish_tree (h : goal = .tree ∨ log.hasErrors = true) :
    finish source goal p log = .ok { source, program := p, log } := by
  unfold finish
  rw [if_pos (by simpa using h)]

theorem finish_check (htree : goal ≠ .tree) (hlog : log.hasErrors = false)
    (h : goal ≠ .wasm ∨ (checkedLog p log).hasErrors = true) : finish source goal p log =
      .ok { source, program := p, checked := (Check.run p).1, log := checkedLog p log } := by
  unfold finish
  rw [if_neg (by simp [htree, hlog])]
  refine if_neg ?_
  rcases h with h | h
  · simp [h]
  · have h : (log.append ((Check.run p).2.map Check.Problem.diagnostic)).hasErrors = true := h
    simp [h]

theorem finish_wasm (hlog : log.hasErrors = false) (h : (checkedLog p log).hasErrors = false) :
    finish source .wasm p log = (moduleBytes p (Check.run p).1).map fun bytes =>
      { source, program := p, checked := (Check.run p).1, log := checkedLog p log, wasm := some bytes } := by
  unfold finish
  rw [if_neg (by simp [hlog])]
  have h : (log.append ((Check.run p).2.map Check.Problem.diagnostic)).hasErrors = false := h
  exact if_pos (by simp [h])

/-- What has no module has none for what is in it, and not because a record of scopes does not fit. -/
theorem moduleBytes_error (h : moduleBytes p (Check.run p).1 = .error f) : ∃ detail, f = .lowering detail := by
  unfold moduleBytes at h
  cases hgenerate : Lower.generate p (Check.run p).1 with
  | ok m =>
    rw [hgenerate] at h
    cases h
  | error fault =>
    rw [hgenerate] at h
    obtain rfl := Except.error.inj h
    have hother := Lower.generate_other hgenerate
    cases fault with
    | diverged d => cases hother
    | _ => exact ⟨_, rfl⟩

theorem passes_tree {file : FileId} {text : String} (hlog : log.toList = said file text)
    (h : goal = .tree ∨ log.hasErrors = true) :
    Passes file text goal { source, program := p, log } where
  messages := ⟨[], hlog.trans (List.append_nil _).symm, .inl rfl⟩
  gated := by
    rintro (⟨d, hd, hsemantic⟩ | htypes)
    · exact absurd hsemantic (not_semantic_of_said (hlog ▸ hd))
    · exact absurd rfl htypes
  wasm := by
    rw [Compiled.errors_eq_zero]
    refine iff_of_false Bool.false_ne_true ?_
    rintro ⟨rfl, hnone⟩
    rcases h with htree | herrors
    · cases htree
    · exact Bool.false_ne_true (hnone.symm.trans herrors)
  counter := Compiled.errors_eq _
  success := Compiled.ensureSuccess_eq_error _

theorem passes_checked {file : FileId} {text : String} {wasm : Option (List UInt8)}
    (hlog : log.toList = said file text) (htree : goal ≠ .tree) (hnone : log.hasErrors = false)
    (hwasm : wasm.isSome ↔ goal = .wasm ∧ (checkedLog p log).hasErrors = false) :
    Passes file text goal
      { source, program := p, checked := (Check.run p).1, log := checkedLog p log, wasm } where
  messages := by
    refine ⟨(Check.run p).2.map Check.Problem.diagnostic, ?_, .inr ⟨htree, rfl⟩⟩
    rw [checkedLog, Log.toList_append, hlog]
  gated _ := hlog ▸ log.hasErrors_eq_false.mp hnone
  wasm := by
    rw [Compiled.errors_eq_zero]
    exact hwasm
  counter := Compiled.errors_eq _
  success := Compiled.ensureSuccess_eq_error _

/-- A program that is finished for a goal went through the passes up to the one for the goal. -/
theorem passes_of_finish {file : FileId} {text : String} (hlog : log.toList = said file text)
    (h : finish source goal p log = .ok c) :
    c.source = source ∧ c.program = p ∧ Passes file text goal c := by
  by_cases htree : goal = .tree ∨ log.hasErrors = true
  · rw [finish_tree htree] at h
    cases h
    exact ⟨rfl, rfl, passes_tree hlog htree⟩
  obtain ⟨htree, hnone⟩ := not_or.mp htree
  rw [Bool.not_eq_true] at hnone
  by_cases hwasm : goal = .wasm ∧ (checkedLog p log).hasErrors = false
  · obtain ⟨rfl, hchecked⟩ := hwasm
    rw [finish_wasm hnone hchecked] at h
    cases hbytes : moduleBytes p (Check.run p).1 with
    | error f =>
      rw [hbytes] at h
      cases h
    | ok bytes =>
      rw [hbytes] at h
      cases h
      exact ⟨rfl, rfl, passes_checked hlog htree hnone (by simp [hchecked])⟩
  · have hother : goal ≠ .wasm ∨ (checkedLog p log).hasErrors = true := by
      rw [← Bool.not_eq_false]
      exact not_and_or.mp hwasm
    rw [finish_check htree hnone hother] at h
    cases h
    exact ⟨rfl, rfl, passes_checked hlog htree hnone (iff_of_false Bool.false_ne_true hwasm)⟩

/-- Where the module of a program is asked for, its check is not lost. -/
theorem finish_wasm_ok {checked : Compiled} (hcheck : finish source .check p log = .ok checked)
    (h : finish source .wasm p log = .ok c) : c.log = checked.log ∧ c.checked = checked.checked := by
  cases hlog : log.hasErrors with
  | true =>
    rw [finish_tree (.inr hlog)] at hcheck h
    cases hcheck
    cases h
    exact ⟨rfl, rfl⟩
  | false =>
    rw [finish_check (by decide) hlog (.inl (by decide))] at hcheck
    cases hcheck
    cases herrors : (checkedLog p log).hasErrors with
    | true =>
      rw [finish_check (by decide) hlog (.inr herrors)] at h
      cases h
      exact ⟨rfl, rfl⟩
    | false =>
      rw [finish_wasm hlog herrors] at h
      cases hbytes : moduleBytes p (Check.run p).1 with
      | error f =>
        rw [hbytes] at h
        cases h
      | ok bytes =>
        rw [hbytes] at h
        cases h
        exact ⟨rfl, rfl⟩

/-- A module is missing only for what is in the program, and only behind a check without errors. -/
theorem finish_wasm_error {checked : Compiled} (hcheck : finish source .check p log = .ok checked)
    (h : finish source .wasm p log = .error f) : (∃ detail, f = .lowering detail) ∧ checked.errors = 0 := by
  cases hlog : log.hasErrors with
  | true =>
    rw [finish_tree (.inr hlog)] at h
    cases h
  | false =>
    rw [finish_check (by decide) hlog (.inl (by decide))] at hcheck
    cases hcheck
    rw [Compiled.errors_eq_zero]
    cases herrors : (checkedLog p log).hasErrors with
    | true =>
      rw [finish_check (by decide) hlog (.inr herrors)] at h
      cases h
    | false =>
      rw [finish_wasm hlog herrors] at h
      cases hbytes : moduleBytes p (Check.run p).1 with
      | error g =>
        rw [hbytes] at h
        cases h
        exact ⟨moduleBytes_error hbytes, rfl⟩
      | ok bytes =>
        rw [hbytes] at h
        cases h

theorem finish_check_ok (source : Source) (p : Program) (log : Log) :
    ∃ checked, finish source .check p log = .ok checked := by
  cases hlog : log.hasErrors with
  | true => exact ⟨_, finish_tree (.inr hlog)⟩
  | false => exact ⟨_, finish_check (by decide) hlog (.inl (by decide))⟩

end

/-- Whatever a text is compiled for, the passes are the same, and each of them runs only behind passes
without errors. Either no goal is reached, for the same construct that is not supported, or the check and
the tree are, and the module is missing for its own sake only. -/
theorem compile_goals (file : FileId) (name text : String) :
    (∃ construct span, ∀ goal, compile file name text goal = .error (.unsupported construct span)) ∨
      ∃ checked tree, compile file name text .check = .ok checked ∧
        compile file name text .tree = .ok tree ∧
        (∀ goal c, compile file name text goal = .ok c →
          c.source = checked.source ∧ c.program = checked.program ∧ Passes file text goal c) ∧
        (∀ c, compile file name text .wasm = .ok c → c.log = checked.log ∧ c.checked = checked.checked) ∧
        ∀ f, compile file name text .wasm = .error f →
          (∃ detail, f = .lowering detail) ∧ checked.errors = 0 := by
  have hlog : (Parse.ofText Parse.program file text).log.toList = said file text := ofText_log _ file text
  have hresult := ofText_result Parse.program file text
  cases hrun : (Parse.run Parse.program (Lexer.read file text).tokens).result with
  | error e =>
    obtain ⟨construct, place, rfl⟩ := Parse.program_refused hrun
    rw [hrun] at hresult
    exact .inl ⟨construct.describe, place, fun goal => compile_of_failed hresult⟩
  | ok p =>
    rw [hrun] at hresult
    have hcompile : ∀ goal, compile file name text goal = finish (Source.ofText name text) goal p
        (Parse.ofText Parse.program file text).log := fun goal => compile_of_parsed hresult
    obtain ⟨checked, hcheck⟩ := finish_check_ok (Source.ofText name text) p
      (Parse.ofText Parse.program file text).log
    obtain ⟨hsource, hprogram, -⟩ := passes_of_finish hlog hcheck
    refine .inr ⟨checked, _, (hcompile _).trans hcheck, (hcompile _).trans (finish_tree (.inl rfl)), ?_, ?_, ?_⟩
    · intro goal c hc
      rw [hsource, hprogram]
      exact passes_of_finish hlog ((hcompile goal).symm.trans hc)
    · intro c hc
      exact finish_wasm_ok hcheck ((hcompile _).symm.trans hc)
    · intro f hf
      exact finish_wasm_error hcheck ((hcompile _).symm.trans hf)

end Ferrite
