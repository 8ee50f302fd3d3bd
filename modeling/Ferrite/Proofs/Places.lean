import Ferrite.Parse.Text
import Ferrite.Proofs.Check.Places
import Ferrite.Proofs.Lexer.Places
import Ferrite.Proofs.Parse.Places

/-!
Every place that is told of a text is one in the text, whatever the text is: those of messages, of what is
not supported, and of all nodes of a tree, which lie inside one another as the nodes do.
-/

namespace Ferrite

/-- What parsing a text reports is about places in the text, and what it gives is good. -/
structure Parse.Parsed.Placed (file : FileId) (text : String) {α : Type} (parsed : Parsed α) (good : α → Prop) :
    Prop where
  messages : ∀ d ∈ parsed.log.toList, d.span.In file text.toList
  failure : ∀ f, parsed.result = .error f → ∀ place ∈ f.span?, place.In file text.toList
  result : ∀ a, parsed.result = .ok a → good a

variable {file : FileId} {text : String}

namespace Parse

/-- The parser starts among the tokens of the text. -/
theorem sited_of_read (file : FileId) (text : String) :
    Sited (Span.In file text.toList) { rest := (Lexer.read file text).tokens } := by
  obtain ⟨htokens, hordered⟩ := Lexer.read_tokens_in file text
  obtain ⟨ts, finish, hends, -⟩ := Lexer.read_ends file text
  exact {
    ne_nil := by simp [hends]
    ordered := hordered
    tokens := htokens
    problems := by simp }

variable {α : Type} {p : Parser α} {good : α → Prop}

theorem Traces.placed (h : Traces (Span.In file text.toList) p fun _ _ a => good a) :
    (ofText p file text).Placed file text good := by
  obtain ⟨hproblems, hresult, hfailure⟩ := h.run (sited_of_read file text)
  exact {
    messages := by
      intro d hd
      simp only [ofText, Log.toList_append, Log.toList_empty, List.nil_append] at hd
      rcases List.mem_append.mp hd with hd | hd
      · obtain ⟨q, hq, rfl⟩ := List.mem_map.mp hd
        exact Lexer.read_problems_in file text q hq
      · obtain ⟨q, hq, rfl⟩ := List.mem_map.mp hd
        exact hproblems q hq
    failure := by
      intro f hf place hplace
      cases hrun : (Parse.run p (Lexer.read file text).tokens).result with
      | ok a => simp [ofText, hrun, Except.mapError] at hf
      | error e =>
        simp only [ofText, hrun, Except.mapError, Except.error.injEq] at hf
        cases e with
        | unsupported construct span =>
          obtain rfl : span = place := by simpa [← hf, Abort.failure, Failure.span?] using hplace
          exact hfailure construct span hrun
        | reported => simp [← hf, Abort.failure, Failure.span?] at hplace
        | exhausted => simp [← hf, Abort.failure, Failure.span?] at hplace
    result := by
      intro a ha
      cases hrun : (Parse.run p (Lexer.read file text).tokens).result with
      | ok b =>
        simp only [ofText, hrun, Except.mapError, Except.ok.injEq] at ha
        exact ha ▸ hresult b hrun
      | error e => simp [ofText, hrun, Except.mapError] at ha }

end Parse

/-- Every place is real and every part lies inside its whole, also in a text full of mistakes. The places are
those of messages about the text, its grammar, its names and its types, of what is not supported, and of the
program, items, blocks, statements, expressions and names; no offset is beyond the end of the text. -/
theorem places_in_text (file : FileId) (text : String) :
    (Parse.ofText Parse.program file text).Placed file text (fun p =>
      p.span.In file text.toList ∧ (∀ i ∈ p.items, i.span.Within p.span) ∧
        AllSit (Span.In file text.toList) p.nodes ∧
        ∀ d ∈ (Check.run p).2.map Check.Problem.diagnostic, d.span.In file text.toList) ∧
    (Parse.ofText Parse.statementList file text).Placed file text (fun ss =>
      AllSit (Span.In file text.toList) (stmtNodes ss)) ∧
    (Parse.ofText Parse.expression file text).Placed file text (fun e =>
      AllSit (Span.In file text.toList) e.nodes) := by
  have hok := Span.In.places file text.toList
  refine ⟨?_, (Parse.statementList_traces hok).placed, (Parse.expression_traces hok).placed⟩
  refine Parse.Traces.placed ((Parse.program_traces hok).mono fun _ _ p ⟨hspan, hitems⟩ => ?_)
  have hnodes : AllSit (Span.In file text.toList) p.nodes := by
    rw [Program.nodes, itemNodes_eq, allSit_flatMap]
    exact fun i hi => (hitems i hi).2
  refine ⟨hspan, fun i hi => (hitems i hi).1, hnodes, fun d hd => ?_⟩
  obtain ⟨q, hq, rfl⟩ := List.mem_map.mp hd
  exact Check.run_points hok hnodes q hq

end Ferrite
