import Ferrite.Parse.Text
import Ferrite.Proofs.Lexer.Slice
import Ferrite.Proofs.Parse.Inside
import Ferrite.Proofs.Parse.Numbered
import Ferrite.Proofs.Parse.Sound
import Ferrite.Proofs.Parse.Whole

/-!
Every expression of a program has exactly its own text as its place: the text there, read and parsed
by itself, gives the same expression.
-/

namespace Ferrite

/-- Places counted from an offset, in a text of their own. -/
def Relabel.cut (offset : Nat) : Relabel := .moved fun s => ⟨0, s.start - offset, s.stop - offset⟩

theorem Relabel.cut_lawful (offset : Nat) : (cut offset).Lawful where
  join a b := by
    simp only [cut, Span.join, Span.mk.injEq, true_and]
    omega
  succ _ := rfl

/-- The place of an expression. -/
def Node.place? : Node → Option Span
  | .expr e => some e.span
  | _ => none

namespace Lexer

theorem isError_iff {code : Code} : code.severity = .error ↔ code ≠ .literalOutOfRange := by
  cases code <;> simp [Code.severity]

/-- A text is read without errors if all its lexemes are accepted. -/
theorem accepted_iff (file : FileId) (text : String) :
    (∀ d ∈ (read file text).diagnostics, d.isError = false) ↔ ∀ l ∈ lexemes text.toList, l.Accepted := by
  have hvalues := problemsAt_value file 0 (lexemes text.toList)
  constructor
  · intro h l hl f hf
    by_contra hcode
    have hmem : f.problem ∈ (problemsAt file 0 (lexemes text.toList)).map Located.value := by
      rw [hvalues]
      exact List.mem_flatMap.mpr ⟨l, hl, List.mem_map_of_mem hf⟩
    obtain ⟨p, hp, hvalue⟩ := List.mem_map.mp hmem
    have herror := h _ (List.mem_map_of_mem (f := Problem.diagnostic) hp)
    rw [Diagnostic.isError, decide_eq_false_iff_not] at herror
    exact herror (isError_iff.mpr (show p.value.code ≠ _ by rwa [hvalue]))
  · intro h d hd
    obtain ⟨p, hp, rfl⟩ := List.mem_map.mp hd
    have hmem : p.value ∈ (problemsAt file 0 (lexemes text.toList)).map Located.value := List.mem_map_of_mem hp
    rw [hvalues] at hmem
    obtain ⟨l, hl, hf⟩ := List.mem_flatMap.mp hmem
    obtain ⟨f, hf, hvalue⟩ := List.mem_map.mp hf
    rw [Diagnostic.isError, decide_eq_false_iff_not]
    intro herror
    exact isError_iff.mp herror (show p.value.code = _ by rw [← hvalue]; exact h l hl f hf)

theorem spelled_inOrder {file : FileId} {offset : Nat} {ls : List Lexeme} (h : ∀ l ∈ ls, l.Full) :
    Parse.InOrder file (spelled file offset ls) := by
  induction ls generalizing offset with
  | nil => exact ⟨by simp [spelled], List.Pairwise.nil⟩
  | cons l ls ih =>
    rw [List.forall_mem_cons] at h
    have hrest : Parse.InOrder file (spelled file (offset + l.width) ls) := ih h.2
    cases htoken : l.token? with
    | none => simpa only [spelled, htoken] using hrest
    | some token =>
      have hwidth : token.2 = l.width := h.1 token htoken
      simp only [spelled, htoken]
      refine ⟨List.forall_mem_cons.mpr ⟨⟨rfl, Nat.le_add_right _ _⟩, hrest.each⟩,
        List.pairwise_cons.mpr ⟨fun t ht => ?_, hrest.before⟩⟩
      rw [hwidth]
      exact spelled_start t ht

theorem spelled_cut (file : FileId) (offset k : Nat) (ls : List Lexeme) : spelled 0 k ls =
    (spelled file (offset + k) ls).map (Token.relabel (.cut offset)) := by
  induction ls generalizing k with
  | nil => rfl
  | cons l ls ih =>
    have hspan : ∀ w, (Relabel.cut offset).place ⟨file, offset + k, offset + k + w⟩ = ⟨0, k, k + w⟩ := by
      intro w
      simp only [Relabel.cut, Span.mk.injEq, true_and]
      omega
    rw [spelled, spelled, ih, Nat.add_assoc]
    cases l.token? with
    | none => rfl
    | some token => rw [List.map_cons, Token.relabel, ← Nat.add_assoc, hspan]

end Lexer

namespace Parse

/-- What is read and parsed without errors is parsed without a problem. -/
theorem run_of_text {α : Type} {parser : Parser α} {file : FileId} {text : String} {a : α}
    (hresult : (ofText parser file text).result = .ok a)
    (herrors : (ofText parser file text).log.hasErrors = false) :
    run parser (Lexer.read file text).tokens = ⟨.ok a, []⟩ ∧
      ∀ d ∈ (Lexer.read file text).diagnostics, d.isError = false := by
  simp only [ofText, Log.hasErrors_toList, Log.toList_append, Log.toList_empty, List.nil_append, List.any_append,
    Bool.or_eq_false_iff, List.any_eq_false, Bool.not_eq_true] at herrors
  obtain ⟨hread, hparse⟩ := herrors
  cases hrun : run parser (Lexer.read file text).tokens with
  | mk result problems =>
    rw [hrun] at hparse
    have hnone : problems = [] := problems_eq_nil fun p hp => hparse _ (List.mem_map_of_mem hp)
    obtain ⟨f, hresult'⟩ : ∃ f : Abort → Failure, result.mapError f = .ok a := by
      rw [ofText, hrun] at hresult
      exact ⟨_, hresult⟩
    cases result with
    | ok b =>
      cases hresult'
      exact ⟨by rw [hnone], hread⟩
    | error e => cases hresult'

/-- What is parsed without a problem, of a text read without errors, is what the text holds. -/
theorem exprOfText_of_run {text : String} {e : Expr}
    (hrun : run expression (Lexer.read 0 text).tokens = ⟨.ok e, []⟩)
    (hread : ∀ d ∈ (Lexer.read 0 text).diagnostics, d.isError = false) : exprOfText text = .ok e := by
  have herrors : ((Log.empty.append (Lexer.read 0 text).diagnostics).append []).hasErrors = false := by
    simpa [Log.hasErrors_toList] using hread
  simp only [exprOfText, ofText, hrun, Outcome.diagnostics, List.map_nil, herrors]
  rfl

/-- The tokens of a phrase stand before the end of input. -/
theorem spelled_of_read {file : FileId} {text : String} {before us rest : List Token}
    (h : (Lexer.read file text).tokens = before ++ (us ++ rest)) (hne : us ≠ []) (husual : Usual us) :
    ∃ vs, Lexer.spelled file 0 (Lexer.lexemes text.toList) = before ++ (us ++ vs) := by
  rw [Lexer.read, Lexer.tokensAt_eq] at h
  rcases List.eq_nil_or_concat' rest with rfl | ⟨vs, last, rfl⟩
  · obtain ⟨us, last, rfl⟩ := (List.eq_nil_or_concat' us).resolve_left hne
    rw [List.append_nil, ← List.append_assoc] at h
    have hlast := List.append_inj_right' h rfl
    have hend := husual last (by simp)
    rw [← List.cons.inj hlast |>.1] at hend
    cases hend
  · rw [← List.append_assoc us, ← List.append_assoc] at h
    exact ⟨vs, List.append_inj_left' h rfl⟩

end Parse
end Ferrite
