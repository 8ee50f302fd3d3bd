import Ferrite.Proofs.Lexer.Slice

/-!
What a text can say: its names are words of their own, its integers have room in their types, its
floating-point numbers are infinite at most, and its strings end where their closing quote stands.
-/

namespace Ferrite

/-- A literal that some text spells without a problem. -/
def Literal.Written : Literal → Prop
  | .bool _ => True
  | .int t bits => bits.toNat ≤ t.greatest
  | .float t bits => bits.toNat ≤ t.format.infinity
  | .text s => ∀ r, Lexer.stringBody (s.toList ++ '\x22' :: r) = some (s.toList, r)

/-- The literal is no infinite number. -/
def Literal.isFinite : Literal → Bool
  | .float t bits => bits.toNat < t.format.infinity
  | _ => true

namespace Lexer

/-- The characters of a name, a keyword or a truth value. -/
def IsWord (cs : List Char) : Prop := ∃ c rest, cs = c :: rest ∧ isNameStart c = true ∧ ∀ d ∈ rest, isNamePart d = true

/-- A word that is neither a keyword nor a truth value. -/
structure IsName (text : String) : Prop where
  isWord : IsWord text.toList
  terminal : wordTerminal text = .name text

end Lexer

def Terminal.Written : Terminal → Prop
  | .name text => Lexer.IsName text
  | .literal value => value.Written
  | _ => True

namespace Lexer

/-- The token of the lexeme, if there is one, is one that texts have. -/
def Lexeme.Written (l : Lexeme) : Prop := ∀ token ∈ l.token?, token.1.Written

theorem written_whole {text : List Char} {terminal : Terminal} {faults : List Fault} :
    (Lexeme.whole text terminal faults).Written ↔ terminal.Written := by
  simp [Lexeme.Written, Lexeme.whole]

theorem written_of_none {l : Lexeme} (h : l.token? = none) : l.Written := by
  simp [Lexeme.Written, h]

theorem word_written {c : Char} (hc : isNameStart c = true) (rest : List Char) : (word c rest).lexeme.Written := by
  rw [word, written_whole]
  have hword : IsWord (c :: rest.takeWhile isNamePart) := ⟨c, _, rfl, hc, fun d hd => List.mem_takeWhile_imp hd⟩
  cases hterminal : wordTerminal (String.ofList (c :: rest.takeWhile isNamePart)) with
  | name text =>
    have htext : text = String.ofList (c :: rest.takeWhile isNamePart) := by
      unfold wordTerminal at hterminal
      split at hterminal
      · cases hterminal
      split at hterminal
      · cases hterminal
      split at hterminal
      · cases hterminal
      · exact (Terminal.name.inj hterminal).symm
    refine ⟨?_, ?_⟩
    · rwa [htext, String.toList_ofList]
    · rwa [← htext] at hterminal
  | literal value =>
    obtain ⟨b, rfl⟩ : ∃ b, value = .bool b := by
      unfold wordTerminal at hterminal
      split at hterminal
      · exact ⟨true, (Terminal.literal.inj hterminal).symm⟩
      split at hterminal
      · exact ⟨false, (Terminal.literal.inj hterminal).symm⟩
      · split at hterminal <;> cases hterminal
    trivial
  | _ => trivial

theorem integer_written {base : Nat} {spelled run suffix : List Char}
    (h : (integer base spelled run suffix).faults = []) : (integer base spelled run suffix).Written := by
  obtain ⟨hoverflow, hrange⟩ : (tally base run).overflow = false ∧
      ((tally base run).overflow = false → (tally base run).value ≤ (suffixType suffix).1.greatest) := by
    simp only [integer, Lexeme.whole, List.append_eq_nil_iff] at h
    obtain ⟨⟨⟨-, hoverflow⟩, -⟩, hrange⟩ := h
    simpa using And.intro hoverflow hrange
  exact written_whole.mpr ((Nat.mod_le _ _).trans (hrange hoverflow))

theorem code_le_infinity (f : Decimal.Format) (n : Decimal.Numeral) : n.code f ≤ f.infinity := by
  have hnearest : ∀ a b, Decimal.nearest f a b ≤ f.infinity := by
    intro a b
    unfold Decimal.nearest
    split
    · exact Nat.zero_le _
    · exact Nat.min_le_left _ _
  unfold Decimal.Numeral.code
  split
  · exact Nat.zero_le _
  split
  · exact Nat.le_refl _
  split
  · exact hnearest _ _
  · exact hnearest _ _

theorem floatValue_written (t : FloatTy) (spelled : List Char) : (floatValue t spelled).1.Written := by
  unfold floatValue
  dsimp only
  split
  · exact (Nat.mod_le _ _).trans (code_le_infinity _ _)
  · exact Nat.zero_le _

theorem string_written (rest : List Char) : (string rest).lexeme.Written := by
  unfold string
  split
  · rename_i a b hbody
    rw [written_whole]
    intro r
    rw [String.toList_ofList]
    exact stringBody_before hbody r
  · exact written_of_none rfl

theorem single_written (c : Char) (rest : List Char) : (single c rest).lexeme.Written := by
  unfold single
  split
  · exact written_whole.mpr trivial
  · exact written_of_none rfl

theorem mark_written (c : Char) (rest : List Char) : (mark c rest).lexeme.Written := by
  unfold mark
  split
  · split
    · exact written_whole.mpr trivial
    · exact single_written _ _
  · exact single_written _ _

theorem scan_written {c : Char} {cs : List Char} (h : (scan c cs).lexeme.faults = []) :
    (scan c cs).lexeme.Written := by
  by_cases hdigit : c.isDigit = true
  · rw [scan_number hdigit] at h ⊢
    have hacc : (number (c :: cs)).lexeme.Accepted := by simp [Lexeme.Accepted, h]
    rcases number_spelled ⟨c, rfl, hdigit⟩ hacc with ⟨_, _, _, _, -, hnumber⟩ | ⟨_, _, _, _, -, hnumber⟩
    · rw [hnumber] at h ⊢
      exact integer_written h
    · rw [hnumber]
      exact written_whole.mpr (floatValue_written _ _)
  unfold scan
  split
  · exact written_of_none rfl
  split
  · exact word_written ‹_› _
  split
  · exact string_written _
  split
  · split
    · exact written_of_none rfl
    · unfold comment
      split <;> exact written_of_none rfl
    · exact mark_written _ _
  · exact mark_written _ _

/-- The tokens of a text without problems. -/
theorem lexemes_written {cs : List Char} (h : ∀ l ∈ lexemes cs, l.faults = []) : ∀ l ∈ lexemes cs, l.Written := by
  fun_induction lexemes cs with
  | case1 => simp
  | case2 c rest ih =>
    rw [List.forall_mem_cons] at h ⊢
    exact ⟨scan_written h.1, ih h.2⟩

end Lexer
end Ferrite
