import Ferrite.Proofs.Lexer.Slice

/-!
Two texts with a line end between them are read one behind the other: no lexeme looks beyond the end
of its line, apart from strings and comments that go on there. A text that leaves neither open is
read as if it stood alone, and so is what comes behind it.
-/

namespace Ferrite

def Diagnostic.shift (n : Nat) (d : Diagnostic) : Diagnostic := { d with span := d.span.shift n }

namespace Lexer

/-! ## One lexeme before a line end -/

section

variable {p : Char → Bool} (cs b : List Char)

theorem takeWhile_line (hp : p '\n' = false) : (cs ++ '\n' :: b).takeWhile p = cs.takeWhile p := by
  induction cs with
  | nil => simp [hp]
  | cons c cs ih => simp only [List.cons_append, List.takeWhile_cons, ih]

theorem dropWhile_line (hp : p '\n' = false) :
    (cs ++ '\n' :: b).dropWhile p = cs.dropWhile p ++ '\n' :: b := by
  induction cs with
  | nil => simp [hp]
  | cons c cs ih =>
    simp only [List.cons_append, List.dropWhile_cons, ih]
    split <;> rfl

theorem isRun_line (base : Nat) : isRun base '\n' = false := rfl

theorem isNamePart_line : isNamePart '\n' = false := rfl

theorem startsPlaces_line : startsPlaces (cs ++ '\n' :: b) = startsPlaces cs := by
  match cs with
  | [] => rfl
  | [c] => rfl
  | _ :: _ :: _ => rfl

theorem startsPower_line : startsPower (cs ++ '\n' :: b) = startsPower cs := by
  match cs with
  | [] => rfl
  | [c] => rfl
  | _ :: _ :: _ => rfl

theorem startsExponent_line : startsExponent (cs ++ '\n' :: b) = startsExponent cs := by
  match cs with
  | [] => rfl
  | c :: cs => exact congrArg ((c = 'e' || c = 'E') && ·) (startsPower_line cs b)

theorem startsFraction_cons (c d : Char) : startsFraction (c :: d :: cs) = (decide (c = '.') && d.isDigit) := by
  unfold startsFraction
  split <;> simp_all

theorem startsFraction_line : startsFraction (cs ++ '\n' :: b) = startsFraction cs := by
  match cs with
  | [] => rfl
  | [c] =>
    rw [List.cons_append, List.nil_append, startsFraction_cons]
    simp [startsFraction]
  | c :: d :: cs =>
    rw [List.cons_append, List.cons_append, startsFraction_cons, startsFraction_cons]

theorem splitPlaces_line :
    splitPlaces (cs ++ '\n' :: b) = ((splitPlaces cs).1, (splitPlaces cs).2 ++ '\n' :: b) := by
  match cs with
  | [] => rfl
  | c :: cs =>
    have hstarts := startsPlaces_line (c :: cs) b
    rw [List.cons_append] at hstarts
    simp only [splitPlaces, List.cons_append, hstarts, takeWhile_line cs b (isRun_line 10),
      dropWhile_line cs b (isRun_line 10)]
    split <;> rfl

theorem splitExponent_line :
    splitExponent (cs ++ '\n' :: b) = ((splitExponent cs).1, (splitExponent cs).2 ++ '\n' :: b) := by
  match cs with
  | [] => exact splitExponent_none rfl
  | [c] =>
    have hnone : startsExponent [c] = false := by simp [startsExponent, startsPower]
    rw [splitExponent_none ((startsExponent_line [c] b).trans hnone)]
    rfl
  | c :: d :: cs =>
    have hstarts := startsExponent_line (c :: d :: cs) b
    rw [List.cons_append, List.cons_append] at hstarts
    simp only [splitExponent, List.cons_append, hstarts, takeWhile_line cs b (isRun_line 10),
      dropWhile_line cs b (isRun_line 10)]
    split <;> rfl

theorem splitBase_cons (c d : Char) : splitBase (c :: d :: cs) =
    if c = '0' ∧ d = 'b' then (2, ['0', 'b'], cs)
    else if c = '0' ∧ d = 'o' then (8, ['0', 'o'], cs)
    else if c = '0' ∧ d = 'x' then (16, ['0', 'x'], cs)
    else (10, [], c :: d :: cs) := by
  unfold splitBase
  split
  · simp_all
  · simp_all
  · simp_all
  · rename_i hb ho hx
    have hb' : ¬(c = '0' ∧ d = 'b') := fun h => hb cs (by rw [h.1, h.2])
    have ho' : ¬(c = '0' ∧ d = 'o') := fun h => ho cs (by rw [h.1, h.2])
    have hx' : ¬(c = '0' ∧ d = 'x') := fun h => hx cs (by rw [h.1, h.2])
    rw [if_neg hb', if_neg ho', if_neg hx']

theorem splitBase_line : splitBase (cs ++ '\n' :: b) =
    ((splitBase cs).1, (splitBase cs).2.1, (splitBase cs).2.2 ++ '\n' :: b) := by
  match cs with
  | [] =>
    rw [List.nil_append]
    unfold splitBase
    split <;> simp_all
  | [c] =>
    rw [splitBase_plain (by simp : ∀ d ∈ [c].tail.head?, d ∉ ['b', 'o', 'x'])]
    exact splitBase_plain (by simp)
  | c :: d :: cs =>
    rw [List.cons_append, List.cons_append, splitBase_cons, splitBase_cons]
    split_ifs <;> rfl

end

/-- A line end behind what a step has left. -/
def Step.withLine (s : Step) (b : List Char) : Step := ⟨s.lexeme, s.rest ++ '\n' :: b⟩

variable (b : List Char)

theorem float_line (whole cs : List Char) : float whole (cs ++ '\n' :: b) = (float whole cs).withLine b := by
  simp only [float_eq_decimal, splitPlaces_line, splitExponent_line, takeWhile_line _ _ isNamePart_line,
    dropWhile_line _ _ isNamePart_line, Step.withLine]

theorem rescan_line (cs : List Char) : rescan (cs ++ '\n' :: b) = (rescan cs).withLine b := by
  rw [rescan, takeWhile_line _ _ (isRun_line 10), dropWhile_line _ _ (isRun_line 10), float_line, rescan]

theorem integerWithFraction_line (base : Nat) (spelled run : List Char) {cs : List Char}
    (h : startsFraction cs = true) : integerWithFraction base spelled run (cs ++ '\n' :: b) =
      (integerWithFraction base spelled run cs).withLine b := by
  obtain ⟨c, cs, rfl⟩ : ∃ c cs', cs = c :: cs' := by
    cases cs with
    | nil => cases h
    | cons c cs => exact ⟨c, cs, rfl⟩
  simp only [integerWithFraction, List.cons_append, List.take_succ_cons, List.take_zero, List.drop_succ_cons,
    List.drop_zero, takeWhile_line _ _ isNamePart_line, dropWhile_line _ _ isNamePart_line, Step.withLine]

theorem number_line (cs : List Char) : number (cs ++ '\n' :: b) = (number cs).withLine b := by
  unfold number
  rw [splitBase_line]
  obtain ⟨base, head, body⟩ := splitBase cs
  simp only [takeWhile_line _ _ (isRun_line base), dropWhile_line _ _ (isRun_line base), startsPlaces_line,
    startsExponent_line, startsFraction_line]
  split
  · exact rescan_line b cs
  · split
    · rename_i hfraction
      exact integerWithFraction_line b base _ _ (Bool.and_eq_true_iff.mp hfraction).2
    · simp only [takeWhile_line _ _ isNamePart_line, dropWhile_line _ _ isNamePart_line, Step.withLine]

theorem mark_line (c : Char) (cs : List Char) : mark c (cs ++ '\n' :: b) = (mark c cs).withLine b := by
  have hsingle : ∀ cs, single c (cs ++ '\n' :: b) = (single c cs).withLine b := fun cs => by
    rw [single_before c cs (cs ++ '\n' :: b), Step.withLine, (show (single c cs).rest = cs from ?_)]
    unfold single
    split <;> rfl
  cases cs with
  | nil =>
    have hpair : pair? c '\n' = none := by
      unfold pair?
      split <;> simp_all
    rw [List.nil_append, mark, hpair]
    exact hsingle []
  | cons d cs =>
    simp only [mark, List.cons_append]
    split
    · rfl
    · exact hsingle (d :: cs)

theorem word_line (c : Char) (cs : List Char) : word c (cs ++ '\n' :: b) = (word c cs).withLine b := by
  simp only [word, takeWhile_line _ _ isNamePart_line, dropWhile_line _ _ isNamePart_line, Step.withLine]

/-- Neither a string nor a comment is left open. -/
def Lexeme.Closed (l : Lexeme) : Prop :=
  ∀ f ∈ l.faults, f.problem ≠ .unterminatedString ∧ f.problem ≠ .unterminatedComment

theorem string_line {cs : List Char} (h : (string cs).lexeme.Closed) :
    string (cs ++ '\n' :: b) = (string cs).withLine b := by
  unfold string at h
  split at h
  · rename_i contents rest hbody
    have happend := stringBody_append _ _ _ hbody
    have hagain := stringBody_before hbody (rest ++ '\n' :: b)
    rw [← List.cons_append, ← List.append_assoc, happend] at hagain
    rw [string, hagain, string, hbody]
    rfl
  · exact absurd rfl (h _ (List.mem_singleton.mpr rfl)).1

theorem comment_line {cs : List Char} (h : (comment cs).lexeme.Closed) :
    comment (cs ++ '\n' :: b) = (comment cs).withLine b := by
  unfold comment at h
  split at h
  · rename_i body rest hbody
    have happend := commentBody_append _ _ _ _ hbody
    have hagain := commentBody_before hbody (rest ++ '\n' :: b)
    rw [← List.append_assoc, happend] at hagain
    rw [comment, hagain, comment, hbody]
    rfl
  · exact absurd rfl (h _ (List.mem_singleton.mpr rfl)).2

theorem lineComment_line (cs : List Char) : lineComment (cs ++ '\n' :: b) = (lineComment cs).withLine b := by
  have hp : (decide ('\n' ≠ '\n')) = false := rfl
  simp only [lineComment, takeWhile_line (p := (· ≠ '\n')) cs b hp, dropWhile_line (p := (· ≠ '\n')) cs b hp,
    Step.withLine]

theorem scan_line {c : Char} {cs : List Char} (h : (scan c cs).lexeme.Closed) :
    scan c (cs ++ '\n' :: b) = (scan c cs).withLine b := by
  unfold scan at h ⊢
  split
  · rfl
  split
  · exact word_line b c cs
  split
  · exact number_line b (c :: cs)
  rw [if_neg ‹_›, if_neg ‹_›, if_neg ‹_›] at h
  split
  · rw [if_pos ‹_›] at h
    exact string_line b h
  rw [if_neg ‹_›] at h
  split
  · rw [if_pos ‹_›] at h
    split at h
    · exact lineComment_line b _
    · exact comment_line b h
    · rename_i hline hblock
      cases cs with
      | nil => exact mark_line b c []
      | cons d cs =>
        split
        · rename_i heq
          exact (hline cs (congrArg (· :: cs) (List.cons.inj heq).1)).elim
        · rename_i heq
          exact (hblock cs (congrArg (· :: cs) (List.cons.inj heq).1)).elim
        · exact mark_line b c (d :: cs)
  · exact mark_line b c cs

/-! ## Texts -/

theorem lexemes_line {cs : List Char} (h : ∀ l ∈ lexemes cs, l.Closed) :
    lexemes (cs ++ '\n' :: b) = lexemes cs ++ .skipped ['\n'] :: lexemes b := by
  fun_induction lexemes cs with
  | case1 => rw [List.nil_append, lexemes, scan_blank rfl, List.nil_append]
  | case2 c rest ih =>
    rw [List.forall_mem_cons] at h
    rw [List.cons_append, lexemes, scan_line b h.1, Step.withLine, ih h.2, List.cons_append]

theorem tokensAt_append (file : FileId) (offset : Nat) (ls ms : List Lexeme) : tokensAt file offset (ls ++ ms) =
    spelled file offset ls ++ tokensAt file (offset + Text.width (textOf ls)) ms := by
  rw [tokensAt_eq, tokensAt_eq, spelled_append, List.append_assoc, textOf_append, Text.width_append,
    Nat.add_assoc]

theorem problemsAt_append (file : FileId) (offset : Nat) (ls ms : List Lexeme) :
    problemsAt file offset (ls ++ ms) =
      problemsAt file offset ls ++ problemsAt file (offset + Text.width (textOf ls)) ms := by
  induction ls generalizing offset with
  | nil => rfl
  | cons l ls ih =>
    rw [List.cons_append, problemsAt, problemsAt, ih, List.append_assoc, textOf_cons, Text.width_append,
      ← Nat.add_assoc]
    rfl

theorem tokensAt_shift (file : FileId) (offset n : Nat) (ls : List Lexeme) :
    tokensAt file (offset + n) ls = (tokensAt file offset ls).map (Token.shift n) := by
  induction ls generalizing offset with
  | nil => rfl
  | cons l ls ih =>
    rw [tokensAt, tokensAt, Nat.add_right_comm, ih]
    split
    · rw [List.map_cons, Token.shift, Span.shift, Nat.add_right_comm offset n]
    · rfl

theorem problemsAt_shift (file : FileId) (offset n : Nat) (ls : List Lexeme) :
    (problemsAt file (offset + n) ls).map Problem.diagnostic =
      ((problemsAt file offset ls).map Problem.diagnostic).map (Diagnostic.shift n) := by
  induction ls generalizing offset with
  | nil => rfl
  | cons l ls ih =>
    rw [problemsAt, problemsAt, Nat.add_right_comm, List.map_append, ih, List.map_append, List.map_append]
    simp only [List.map_map]
    refine congrArg (· ++ _) (List.map_congr_left fun f _ => ?_)
    simp only [Function.comp_apply, Fault.place, Problem.diagnostic, Diagnostic.shift, Span.shift,
      Nat.add_right_comm offset n]

theorem closed_of_diagnostics {file : FileId} {text : String}
    (h : ∀ d ∈ (read file text).diagnostics, d.code ≠ .unterminatedString ∧ d.code ≠ .unterminatedComment) :
    ∀ l ∈ lexemes text.toList, l.Closed := by
  intro l hl f hf
  have hmem : f.problem ∈ (problemsAt file 0 (lexemes text.toList)).map Located.value := by
    rw [problemsAt_value]
    exact List.mem_flatMap.mpr ⟨l, hl, List.mem_map_of_mem hf⟩
  obtain ⟨p, hp, hvalue⟩ := List.mem_map.mp hmem
  obtain ⟨hstring, hcomment⟩ := h _ (List.mem_map_of_mem hp)
  rw [Problem.diagnostic, hvalue] at hstring hcomment
  exact ⟨fun hf => hstring (by rw [hf]; rfl), fun hf => hcomment (by rw [hf]; rfl)⟩

/-- The lexemes of two texts that are joined by a line end. -/
theorem lexemes_joined {a : String} (b : String) (h : ∀ l ∈ lexemes a.toList, l.Closed) :
    lexemes (a ++ "\n" ++ b).toList = (lexemes a.toList ++ [.skipped ['\n']]) ++ lexemes b.toList := by
  have hline := lexemes_line b.toList h
  simpa using hline

theorem width_joined (a : String) :
    Text.width (textOf (lexemes a.toList ++ [.skipped ['\n']])) = Text.width a.toList + 1 := by
  rw [textOf_append, Text.width_append, textOf, lexemes_text]
  rfl

theorem tokens_joined {file : FileId} {a : String} (b : String) (h : ∀ l ∈ lexemes a.toList, l.Closed) :
    (read file (a ++ "\n" ++ b)).tokens = spelled file 0 (lexemes a.toList) ++
      (read file b).tokens.map (Token.shift (Text.width a.toList + 1)) := by
  have hskip : spelled file 0 (lexemes a.toList ++ [.skipped ['\n']]) = spelled file 0 (lexemes a.toList) := by
    rw [spelled_append]
    exact List.append_nil _
  simp only [read, lexemes_joined b h]
  rw [tokensAt_append, hskip, width_joined, tokensAt_shift]

/-- Texts that are joined by a line end, of which the first leaves neither a string nor a comment open,
are read one behind the other. -/
theorem read_lines {file : FileId} {a : String} (b : String)
    (h : ∀ d ∈ (read file a).diagnostics, d.code ≠ .unterminatedString ∧ d.code ≠ .unterminatedComment) :
    ∃ ts finish, (read file a).tokens = ts ++ [finish] ∧ finish.terminal = .endOfInput ∧
      (read file (a ++ "\n" ++ b)).tokens =
        ts ++ (read file b).tokens.map (Token.shift (Text.width a.toList + 1)) ∧
      (read file (a ++ "\n" ++ b)).diagnostics = (read file a).diagnostics ++
        (read file b).diagnostics.map (Diagnostic.shift (Text.width a.toList + 1)) := by
  have hclosed := closed_of_diagnostics h
  refine ⟨spelled file 0 (lexemes a.toList), _, tokensAt_eq file 0 (lexemes a.toList), rfl,
    tokens_joined b hclosed, ?_⟩
  simp only [read, Reading.diagnostics, lexemes_joined b hclosed]
  rw [problemsAt_append, width_joined, List.map_append, problemsAt_shift, problemsAt_append, List.map_append]
  exact congrArg (· ++ _) (List.append_nil _)

/-- A number with a mistake before the line end, and an open string behind it. -/
theorem read_lines_open : ∃ ts finish,
    (read 0 "a/*b*/+0x1.5 é// 1.").tokens = ts ++ [finish] ∧ finish.terminal = .endOfInput ∧
      (read 0 ("a/*b*/+0x1.5 é// 1." ++ "\n" ++ "7q\"c")).tokens =
        ts ++ (read 0 "7q\"c").tokens.map (Token.shift (Text.width "a/*b*/+0x1.5 é// 1.".toList + 1)) ∧
      (read 0 ("a/*b*/+0x1.5 é// 1." ++ "\n" ++ "7q\"c")).diagnostics =
        (read 0 "a/*b*/+0x1.5 é// 1.").diagnostics ++
          (read 0 "7q\"c").diagnostics.map (Diagnostic.shift (Text.width "a/*b*/+0x1.5 é// 1.".toList + 1)) :=
  read_lines "7q\"c" (by decide +kernel)

end Lexer
end Ferrite
