import Ferrite.Lexer.Scan

/-! A step divides its text: the lexeme and the rest together are what was to be read. -/

namespace Ferrite.Lexer

/-- The whole text of a step. -/
def Step.all (s : Step) : List Char := s.lexeme.text ++ s.rest

theorem splitBase_append (cs : List Char) :
    (splitBase cs).2.1 ++ (splitBase cs).2.2 = cs := by
  unfold splitBase
  split <;> rfl

theorem splitPlaces_append (cs : List Char) :
    (splitPlaces cs).1 ++ (splitPlaces cs).2 = cs := by
  unfold splitPlaces
  split
  · split <;> simp
  · rfl

theorem splitExponent_append (cs : List Char) :
    (splitExponent cs).1 ++ (splitExponent cs).2 = cs := by
  unfold splitExponent
  split
  · split <;> simp
  · rfl

theorem integer_text (base : Nat) (spelled run suffix : List Char) :
    (integer base spelled run suffix).text = spelled ++ suffix := rfl

theorem float_all (whole rest : List Char) : (float whole rest).all = whole ++ rest := by
  have h1 := splitPlaces_append rest
  have h2 := splitExponent_append (splitPlaces rest).2
  simp only [float, Step.all, Lexeme.whole, List.append_assoc, List.takeWhile_append_dropWhile,
    h2, h1]

theorem rescan_all (cs : List Char) : (rescan cs).all = cs := by
  rw [rescan, float_all, List.takeWhile_append_dropWhile]

theorem integerWithFraction_all (base : Nat) (spelled run rest : List Char) :
    (integerWithFraction base spelled run rest).all = spelled ++ rest := by
  cases rest <;> simp [integerWithFraction, Step.all, integer_text]

theorem number_all (cs : List Char) : (number cs).all = cs := by
  have h := splitBase_append cs
  unfold number
  generalize splitBase cs = split at h
  obtain ⟨base, head, body⟩ := split
  simp only at h ⊢
  split
  · exact rescan_all cs
  · split
    · rw [integerWithFraction_all]; simp [← h]
    · simp [Step.all, integer_text, ← h]

theorem single_all (c : Char) (rest : List Char) : (single c rest).all = c :: rest := by
  unfold single
  split <;> rfl

theorem mark_all (c : Char) (rest : List Char) : (mark c rest).all = c :: rest := by
  unfold mark
  split
  · split
    · rfl
    · exact single_all ..
  · exact single_all ..

theorem stringBody_append (cs a b : List Char) (h : stringBody cs = some (a, b)) :
    a ++ '\x22' :: b = cs := by
  fun_induction stringBody cs generalizing a b with
  | case1 => simp at h
  | case2 r => simp_all
  | case3 => simp at h
  | case4 d r _ ih =>
      obtain ⟨⟨x, y⟩, hxy, he⟩ := Option.map_eq_some_iff.1 h
      simp only [Prod.mk.injEq] at he
      obtain ⟨rfl, rfl⟩ := he
      simp [ih x y hxy]
  | case5 c r _ _ ih =>
      obtain ⟨⟨x, y⟩, hxy, he⟩ := Option.map_eq_some_iff.1 h
      simp only [Prod.mk.injEq] at he
      obtain ⟨rfl, rfl⟩ := he
      simp [ih x y hxy]

theorem string_all (rest : List Char) : (string rest).all = '\x22' :: rest := by
  unfold string
  split
  · next h => simp [Step.all, Lexeme.whole, stringBody_append _ _ _ h]
  · simp [Step.all, Lexeme.rejected]

theorem commentBody_append (depth : Nat) (cs a b : List Char)
    (h : commentBody depth cs = some (a, b)) : a ++ b = cs := by
  fun_induction commentBody depth cs generalizing a b with
  | case1 depth r ih =>
      obtain ⟨⟨x, y⟩, hxy, he⟩ := Option.map_eq_some_iff.1 h
      simp only [Prod.mk.injEq] at he
      obtain ⟨rfl, rfl⟩ := he
      simp [ih x y hxy]
  | case2 r =>
      simp only [Option.some.injEq, Prod.mk.injEq] at h
      obtain ⟨rfl, rfl⟩ := h
      rfl
  | case3 depth r ih =>
      obtain ⟨⟨x, y⟩, hxy, he⟩ := Option.map_eq_some_iff.1 h
      simp only [Prod.mk.injEq] at he
      obtain ⟨rfl, rfl⟩ := he
      simp [ih x y hxy]
  | case4 depth c r _ _ _ ih =>
      obtain ⟨⟨x, y⟩, hxy, he⟩ := Option.map_eq_some_iff.1 h
      simp only [Prod.mk.injEq] at he
      obtain ⟨rfl, rfl⟩ := he
      simp [ih x y hxy]
  | case5 => simp at h

theorem comment_all (rest : List Char) : (comment rest).all = '/' :: '*' :: rest := by
  unfold comment
  split
  · next h => simp [Step.all, Lexeme.skipped, commentBody_append _ _ _ _ h]
  · simp [Step.all, Lexeme.rejected]

theorem lineComment_all (rest : List Char) : (lineComment rest).all = '/' :: rest := by
  simp [lineComment, Step.all, Lexeme.skipped, List.takeWhile_append_dropWhile]

theorem word_all (c : Char) (rest : List Char) : (word c rest).all = c :: rest := by
  simp [word, Step.all, Lexeme.whole, List.takeWhile_append_dropWhile]

theorem scan_all (c : Char) (rest : List Char) : (scan c rest).all = c :: rest := by
  unfold scan
  split
  · rfl
  split
  · exact word_all ..
  split
  · exact number_all ..
  split
  · next h => rw [h]; exact string_all ..
  split
  · next h =>
    subst h
    split
    · exact lineComment_all ..
    · exact comment_all ..
    · exact mark_all ..
  · exact mark_all ..

theorem isRun_of_isDigit (c : Char) (h : c.isDigit = true) : isRun 10 c = true := by
  have h' := h
  simp only [Char.isDigit, Bool.and_eq_true, decide_eq_true_eq] at h'
  have h9 : c.toNat ≤ '9'.toNat := h'.2
  have hlt : c.toNat - 48 < 10 := by
    have : '9'.toNat = 57 := rfl
    omega
  have h0 : '0'.toNat = 48 := rfl
  simp [isRun, digit?, h, Option.filter, h0, hlt]

theorem splitBase_cases (cs : List Char) :
    splitBase cs = (10, [], cs) ∨ (splitBase cs).2.1 ≠ [] := by
  unfold splitBase
  split <;> simp

theorem number_text_ne_nil (c : Char) (r : List Char) (h : c.isDigit = true) :
    (number (c :: r)).lexeme.text ≠ [] := by
  have hrun : (c :: r).takeWhile (isRun 10) ≠ [] := by simp [isRun_of_isDigit c h]
  have hc := splitBase_cases (c :: r)
  unfold number
  generalize splitBase (c :: r) = split at hc
  obtain ⟨base, head, body⟩ := split
  simp only at hc ⊢
  have hne : head ++ body.takeWhile (isRun base) ≠ [] := by
    rcases hc with hc | hc
    · simp only [Prod.mk.injEq] at hc
      obtain ⟨rfl, rfl, rfl⟩ := hc
      simpa using hrun
    · simp [hc]
  split
  · simp only [rescan, float, Lexeme.whole]
    exact fun he => hrun (by simp_all)
  · split
    · simp only [integerWithFraction, integer_text]
      exact fun he => hne (by simp_all)
    · simp only [integer_text]
      exact fun he => hne (by simp_all)

theorem mark_text_ne_nil (c : Char) (rest : List Char) : (mark c rest).lexeme.text ≠ [] := by
  have hs : ∀ rest, (single c rest).lexeme.text ≠ [] := by
    intro rest
    unfold single
    split <;> simp [Lexeme.whole, Lexeme.rejected]
  unfold mark
  split
  · split
    · simp [Lexeme.whole]
    · exact hs _
  · exact hs _

theorem scan_text_ne_nil (c : Char) (rest : List Char) : (scan c rest).lexeme.text ≠ [] := by
  unfold scan
  split
  · simp [Lexeme.skipped]
  split
  · simp [word, Lexeme.whole]
  split
  · next h => exact number_text_ne_nil c rest h
  split
  · unfold string
    split <;> simp [Lexeme.whole, Lexeme.rejected]
  split
  · split
    · simp [lineComment, Lexeme.skipped]
    · unfold comment
      split <;> simp [Lexeme.skipped, Lexeme.rejected]
    · exact mark_text_ne_nil _ _
  · exact mark_text_ne_nil _ _

/-- Every step reads something. -/
theorem scan_rest_length (c : Char) (rest : List Char) :
    (scan c rest).rest.length < (c :: rest).length := by
  have h := congrArg List.length (scan_all c rest)
  have hpos := List.length_pos_iff.2 (scan_text_ne_nil c rest)
  simp only [Step.all, List.length_append] at h
  omega

end Ferrite.Lexer
