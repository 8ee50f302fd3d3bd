import Ferrite.Compile
import Ferrite.Proofs.Check.Relabel
import Ferrite.Proofs.Lower.Relabel
import Ferrite.Proofs.Parse.Relabel

/-!
How a text is laid out does not change what it is compiled to. Texts of the same tokens give the
same tree, the same module and the same messages, at other places.
-/

namespace Ferrite

/-- Messages that differ in their places at most. -/
def SameMessages (ds ds' : List Diagnostic) : Prop :=
  ds.map (Diagnostic.relabel .unplaced) = ds'.map (Diagnostic.relabel .unplaced)

/-- What two texts are compiled to differs in places at most, behind what was said of the texts
themselves. -/
inductive Corresponds (said said' : List Diagnostic) :
    Except Failure Compiled → Except Failure Compiled → Prop
  | error {f f' : Failure} (failure : f.relabel .unplaced = f'.relabel .unplaced)
      (message : f.message = f'.message) : Corresponds said said' (.error f) (.error f')
  | ok {c c' : Compiled} {ds ds' : List Diagnostic}
      (program : c.program.relabel .unplaced = c'.program.relabel .unplaced)
      (print : c.program.print = c'.program.print) (checked : c.checked = c'.checked)
      (wasm : c.wasm = c'.wasm) (log : c.log.toList = said ++ ds) (log' : c'.log.toList = said' ++ ds')
      (same : SameMessages ds ds') : Corresponds said said' (.ok c) (.ok c')

namespace SameMessages

variable {ds ds' es es' : List Diagnostic}

theorem append (h : SameMessages ds ds') (h' : SameMessages es es') :
    SameMessages (ds ++ es) (ds' ++ es') := by
  unfold SameMessages at *
  rw [List.map_append, List.map_append, h, h']

theorem of_parse {ps ps' : List (Located Parse.Problem)}
    (h : ps.map (Located.relabel .unplaced) = ps'.map (Located.relabel .unplaced)) :
    SameMessages (ps.map Parse.Problem.diagnostic) (ps'.map Parse.Problem.diagnostic) := by
  have hmap := congrArg (List.map Parse.Problem.diagnostic) h
  rw [List.map_map, List.map_map] at hmap
  rw [SameMessages, List.map_map, List.map_map]
  exact hmap

theorem of_check {ps ps' : List (Located Check.Problem)}
    (h : ps.map (Located.relabel .unplaced) = ps'.map (Located.relabel .unplaced)) :
    SameMessages (ps.map Check.Problem.diagnostic) (ps'.map Check.Problem.diagnostic) := by
  have hmap := congrArg (List.map Check.Problem.diagnostic) h
  rw [List.map_map, List.map_map] at hmap
  rw [SameMessages, List.map_map, List.map_map]
  exact hmap

theorem errors (h : SameMessages ds ds') : ds.countP Diagnostic.isError = ds'.countP Diagnostic.isError := by
  have hmap := congrArg (List.countP Diagnostic.isError) h
  rw [List.countP_map, List.countP_map] at hmap
  exact hmap

end SameMessages

/-- Where nothing said of the texts is an error, both logs have as many errors. -/
theorem errors_eq {log log' : Log} {said said' ds ds' : List Diagnostic}
    (hl : log.toList = said ++ ds) (hl' : log'.toList = said' ++ ds')
    (hsaid : said.countP Diagnostic.isError = 0) (hsaid' : said'.countP Diagnostic.isError = 0)
    (h : SameMessages ds ds') : log.errors = log'.errors := by
  rw [log.errors_toList, log'.errors_toList, hl, hl', List.countP_append, List.countP_append, hsaid, hsaid', h.errors]

theorem hasErrors_eq {log log' : Log} (h : log.errors = log'.errors) : log.hasErrors = log'.hasErrors := by
  have h₁ := log.hasErrors_iff
  have h₂ := log'.hasErrors_iff
  rw [Bool.eq_iff_iff, h₁, h₂, h]

/-- What is parsed from the same tokens at other places. -/
theorem run_unplaced {tokens tokens' : List Token}
    (h : tokens.map Token.terminal = tokens'.map Token.terminal) :
    (Parse.run Parse.program tokens).relabel .unplaced (Program.relabel .unplaced) =
      (Parse.run Parse.program tokens').relabel .unplaced (Program.relabel .unplaced) := by
  have hsame : tokens.map (Token.relabel .unplaced) = tokens'.map (Token.relabel .unplaced) := by
    have hmap := congrArg (List.map fun t => (⟨t, default⟩ : Token)) h
    rw [List.map_map, List.map_map] at hmap
    exact hmap
  have hprogram := Parse.program_equivariant Relabel.unplaced_lawful
  rw [← Parse.run_relabel hprogram rfl _ (.inl rfl), ← Parse.run_relabel hprogram rfl _ (.inl rfl), hsame]

theorem failure_relabel (n : Nat) (a : Parse.Abort) :
    (a.failure n).relabel .unplaced = (a.relabel .unplaced).failure n := by
  cases a <;> rfl

theorem message_of_relabel {f f' : Failure} (h : f.relabel .unplaced = f'.relabel .unplaced) :
    f.message = f'.message := by
  have hmessage : ∀ f : Failure, (f.relabel .unplaced).message = f.message := fun f => by cases f <;> rfl
  rw [← hmessage f, h, hmessage f']

/-- What is checked and lowered of the same tree at other places. -/
theorem moduleBytes_eq {p p' : Program} (h : p.relabel .unplaced = p'.relabel .unplaced)
    (checked : Check.Checked) : moduleBytes p checked = moduleBytes p' checked := by
  have hgenerate : Lower.generate p checked = Lower.generate p' checked := by
    rw [← Lower.generate_relabel (fun _ => default) p, h, Lower.generate_relabel]
  rw [moduleBytes, moduleBytes, hgenerate]

theorem checked_eq {p p' : Program} (h : p.relabel .unplaced = p'.relabel .unplaced) :
    (Check.run p).1 = (Check.run p').1 ∧
      SameMessages ((Check.run p).2.map Check.Problem.diagnostic)
        ((Check.run p').2.map Check.Problem.diagnostic) := by
  have hrun := congrArg Check.run h
  rw [Check.run_relabel Relabel.unplaced_lawful, Check.run_relabel Relabel.unplaced_lawful] at hrun
  obtain ⟨hchecked, hproblems⟩ := Prod.mk.inj hrun
  exact ⟨hchecked, .of_check hproblems⟩

theorem print_eq {p p' : Program} (h : p.relabel .unplaced = p'.relabel .unplaced) : p.print = p'.print := by
  rw [← Program.print_relabel .unplaced p, h, Program.print_relabel]

theorem ofText_log {α : Type} (p : Parse.Parser α) (file : FileId) (text : String) :
    (Parse.ofText p file text).log.toList = (Lexer.read file text).diagnostics ++
      (Parse.run p (Lexer.read file text).tokens).diagnostics := by
  simp [Parse.ofText]

theorem ofText_result {α : Type} (p : Parse.Parser α) (file : FileId) (text : String) :
    (Parse.ofText p file text).result = (Parse.run p (Lexer.read file text).tokens).result.mapError
      (·.failure (Parse.ofText p file text).log.errors) := rfl

theorem compile_of_failed {file : FileId} {name text : String} {goal : Goal} {f : Failure}
    (h : (Parse.ofText Parse.program file text).result = .error f) :
    compile file name text goal = .error f := by
  unfold compile
  simp only [h]
  rfl

/-- What is done with a program once it is parsed. -/
def finish (source : Source) (goal : Goal) (program : Program) (log : Log) : Except Failure Compiled :=
  if goal = .tree || log.hasErrors then .ok { source, program, log }
  else
    let log := log.append ((Check.run program).2.map Check.Problem.diagnostic)
    if goal = .wasm && !log.hasErrors then
      (moduleBytes program (Check.run program).1).map fun bytes =>
        { source, program, checked := (Check.run program).1, log, wasm := some bytes }
    else .ok { source, program, checked := (Check.run program).1, log }

theorem compile_of_parsed {file : FileId} {name text : String} {goal : Goal} {p : Program}
    (h : (Parse.ofText Parse.program file text).result = .ok p) : compile file name text goal =
      finish (Source.ofText name text) goal p (Parse.ofText Parse.program file text).log := by
  unfold compile
  simp only [h]
  rfl

/-- The same tree at other places is checked and lowered to the same. -/
theorem finish_corresponds {source source' : Source} {goal : Goal} {p p' : Program} {log log' : Log}
    {said said' ds ds' : List Diagnostic} (hp : p.relabel .unplaced = p'.relabel .unplaced)
    (hlog : log.toList = said ++ ds) (hlog' : log'.toList = said' ++ ds') (hds : SameMessages ds ds')
    (hsaid : said.countP Diagnostic.isError = 0) (hsaid' : said'.countP Diagnostic.isError = 0) :
    Corresponds said said' (finish source goal p log) (finish source' goal p' log') := by
  obtain ⟨hchecked, hproblems⟩ := checked_eq hp
  have herrors := hasErrors_eq (errors_eq hlog hlog' hsaid hsaid' hds)
  have hall : (log.append ((Check.run p).2.map Check.Problem.diagnostic)).toList =
      said ++ (ds ++ (Check.run p).2.map Check.Problem.diagnostic) := by
    rw [Log.toList_append, hlog, List.append_assoc]
  have hall' : (log'.append ((Check.run p').2.map Check.Problem.diagnostic)).toList =
      said' ++ (ds' ++ (Check.run p').2.map Check.Problem.diagnostic) := by
    rw [Log.toList_append, hlog', List.append_assoc]
  have hboth := hds.append hproblems
  have hallErrors := hasErrors_eq (errors_eq hall hall' hsaid hsaid' hboth)
  unfold finish
  simp only [herrors, hallErrors, ← hchecked, ← moduleBytes_eq hp]
  split
  · exact .ok hp (print_eq hp) rfl rfl hlog hlog' hds
  · split
    · cases moduleBytes p (Check.run p).1 with
      | error f => exact .error rfl rfl
      | ok bytes => exact .ok hp (print_eq hp) rfl rfl hall hall' hboth
    · exact .ok hp (print_eq hp) rfl rfl hall hall' hboth

/-- Two texts of the same tokens, in which nothing is wrong with a token, are compiled to the same
up to places. -/
theorem compile_corresponds {file file' : FileId} {name name' text text' : String} {goal : Goal}
    (h : (Lexer.read file text).tokens.map Token.terminal =
      (Lexer.read file' text').tokens.map Token.terminal)
    (hl : ∀ d ∈ (Lexer.read file text).diagnostics, d.isError = false)
    (hl' : ∀ d ∈ (Lexer.read file' text').diagnostics, d.isError = false) :
    Corresponds (Lexer.read file text).diagnostics (Lexer.read file' text').diagnostics
      (compile file name text goal) (compile file' name' text' goal) := by
  have hrun := run_unplaced h
  have hsaid := List.countP_eq_zero.mpr fun d hd => by simpa using hl d hd
  have hsaid' := List.countP_eq_zero.mpr fun d hd => by simpa using hl' d hd
  have hlog := ofText_log Parse.program file text
  have hlog' := ofText_log Parse.program file' text'
  have hresult := ofText_result Parse.program file text
  have hresult' := ofText_result Parse.program file' text'
  have hds : SameMessages (Parse.run Parse.program (Lexer.read file text).tokens).diagnostics
      (Parse.run Parse.program (Lexer.read file' text').tokens).diagnostics :=
    .of_parse (congrArg Parse.Outcome.problems hrun)
  have herrors := errors_eq hlog hlog' hsaid hsaid' hds
  have hsame := congrArg Parse.Outcome.result hrun
  simp only [Parse.Outcome.relabel] at hsame
  cases hr : (Parse.run Parse.program (Lexer.read file text).tokens).result with
  | error e =>
    cases hr' : (Parse.run Parse.program (Lexer.read file' text').tokens).result with
    | error e' =>
      rw [hr, hr'] at hsame
      have hfailure : (e.failure (Parse.ofText Parse.program file text).log.errors).relabel .unplaced =
          (e'.failure (Parse.ofText Parse.program file' text').log.errors).relabel .unplaced := by
        rw [failure_relabel, failure_relabel, herrors, Except.error.inj hsame]
      rw [hr] at hresult
      rw [hr'] at hresult'
      rw [compile_of_failed hresult, compile_of_failed hresult']
      exact .error hfailure (message_of_relabel hfailure)
    | ok p' =>
      rw [hr, hr'] at hsame
      cases hsame
  | ok p =>
    cases hr' : (Parse.run Parse.program (Lexer.read file' text').tokens).result with
    | error e' =>
      rw [hr, hr'] at hsame
      cases hsame
    | ok p' =>
      rw [hr, hr'] at hsame
      rw [hr] at hresult
      rw [hr'] at hresult'
      rw [compile_of_parsed hresult, compile_of_parsed hresult']
      exact finish_corresponds (Except.ok.inj hsame) hlog hlog' hds hsaid hsaid'

/-- Neither comments nor the spelling of a number make a difference. -/
theorem compile_corresponds_spelling :
    (Lexer.read 0 "fn f() -> i32 \x7b 16 \x7d").tokens ≠
        (Lexer.read 1 "/* g */ fn f()->i32\n\x7b 0x10 \x7d").tokens ∧
      Corresponds (Lexer.read 0 "fn f() -> i32 \x7b 16 \x7d").diagnostics
        (Lexer.read 1 "/* g */ fn f()->i32\n\x7b 0x10 \x7d").diagnostics
        (compile 0 "a" "fn f() -> i32 \x7b 16 \x7d" .wasm)
        (compile 1 "b" "/* g */ fn f()->i32\n\x7b 0x10 \x7d" .wasm) := by
  have htokens : (Lexer.read 0 "fn f() -> i32 \x7b 16 \x7d").tokens.map Token.terminal =
      (Lexer.read 1 "/* g */ fn f()->i32\n\x7b 0x10 \x7d").tokens.map Token.terminal := by
    decide +kernel
  refine ⟨by decide +kernel, compile_corresponds htokens ?_ ?_⟩
  · decide +kernel
  · decide +kernel

end Ferrite
