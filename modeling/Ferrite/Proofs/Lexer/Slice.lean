import Mathlib
import Ferrite.Lexer.Stream
import Ferrite.Proofs.Lexer.Number

/-!
A piece of a text is read as it was read in the whole text, if it starts and ends with lexemes. A
lexeme is settled by its own characters and by the one behind it.
-/

namespace Ferrite.Lexer

/-- Another rest starts in the same way, or there is none. -/
def Continues (r r' : List Char) : Prop := r' = [] ∨ r'.head? = r.head?

theorem Continues.all {r r' : List Char} (h : Continues r r') {good : Char → Prop}
    (hgood : ∀ d ∈ r.head?, good d) : ∀ d ∈ r'.head?, good d := by
  rcases h with rfl | h
  · simp
  · rwa [h]

theorem takeWhile_eq_left {p : Char → Bool} {t r : List Char} (h : (t ++ r).takeWhile p = t) :
    (∀ c ∈ t, p c = true) ∧ ∀ d ∈ r.head?, p d = false := by
  have hall : ∀ c ∈ t, p c = true := fun c hc => List.mem_takeWhile_imp (h.symm ▸ hc)
  refine ⟨hall, fun d hd => ?_⟩
  rw [List.takeWhile_append_of_pos hall] at h
  have hnil : r.takeWhile p = [] := List.append_cancel_left (h.trans (List.append_nil t).symm)
  obtain ⟨r, rfl⟩ := List.head?_eq_some_iff.mp hd
  by_contra hd
  rw [List.takeWhile_cons_of_pos (by simpa using hd)] at hnil
  cases hnil

theorem head_dropWhile {p : Char → Bool} (cs : List Char) : ∀ d ∈ (cs.dropWhile p).head?, p d = false := by
  intro d hd
  have hnot := List.head?_dropWhile_not p cs
  rw [Option.mem_def.mp hd] at hnot
  simpa using hnot

section

variable {c : Char} {t r r' : List Char}

theorem word_before (h : (word c (t ++ r)).lexeme.text = c :: t) (hr : Continues r r') :
    word c (t ++ r') = ⟨(word c (t ++ r)).lexeme, r'⟩ := by
  have htake : (t ++ r).takeWhile isNamePart = t := (List.cons.inj h).2
  obtain ⟨hall, hhead⟩ := takeWhile_eq_left htake
  obtain ⟨htake', hdrop'⟩ := takeWhile_append_stop hall (hr.all hhead)
  simp only [word, htake, htake', hdrop']

theorem number_rest_head (cs : List Char) : ∀ d ∈ (number cs).rest.head?, isNamePart d = false := by
  simp only [number]
  split
  · exact head_dropWhile _
  · split
    · exact head_dropWhile _
    · exact head_dropWhile _

theorem stringBody_before {cs a b : List Char} (h : stringBody cs = some (a, b)) (b' : List Char) :
    stringBody (a ++ '\x22' :: b') = some (a, b') := by
  fun_induction stringBody cs generalizing a b with
  | case1 => cases h
  | case2 r =>
    obtain ⟨rfl, rfl⟩ := Prod.mk.inj (Option.some.inj h)
    rw [List.nil_append, stringBody.eq_def]
    simp
  | case3 => cases h
  | case4 d r _ ih =>
    obtain ⟨⟨x, y⟩, hxy, he⟩ := Option.map_eq_some_iff.mp h
    obtain ⟨rfl, rfl⟩ := Prod.mk.inj he
    rw [List.cons_append, List.cons_append, stringBody]
    simp [ih hxy]
  | case5 c r hquote hslash ih =>
    obtain ⟨⟨x, y⟩, hxy, he⟩ := Option.map_eq_some_iff.mp h
    obtain ⟨rfl, rfl⟩ := Prod.mk.inj he
    rw [List.cons_append, stringBody.eq_def]
    simp [hquote, hslash, ih hxy]

theorem string_before (hacc : (string (t ++ r)).lexeme.Accepted)
    (h : (string (t ++ r)).lexeme.text = '\x22' :: t) (r' : List Char) :
    string (t ++ r') = ⟨(string (t ++ r)).lexeme, r'⟩ := by
  unfold string at hacc h
  split at h
  · rename_i a b hbody
    have ht : a ++ ['\x22'] = t := (List.cons.inj h).2
    subst ht
    have hagain := stringBody_before hbody r'
    rw [List.append_assoc, List.singleton_append] at hbody ⊢
    rw [string, hagain, List.append_assoc, string, List.singleton_append, hbody]
  · rename_i hnone
    rw [hnone] at hacc
    cases hacc _ (List.mem_singleton.mpr rfl)

theorem commentBody_ne_nil {depth : Nat} {cs a b : List Char} (h : commentBody depth cs = some (a, b)) :
    a ≠ [] := by
  rintro rfl
  unfold commentBody at h
  split at h <;> simp at h

theorem commentBody_before {depth : Nat} {cs a b : List Char} (h : commentBody depth cs = some (a, b))
    (b' : List Char) : commentBody depth (a ++ b') = some (a, b') := by
  fun_induction commentBody depth cs generalizing a b with
  | case1 depth r ih =>
    obtain ⟨⟨x, y⟩, hxy, he⟩ := Option.map_eq_some_iff.mp h
    obtain ⟨rfl, rfl⟩ := Prod.mk.inj he
    simp [commentBody, ih hxy]
  | case2 r =>
    obtain ⟨rfl, rfl⟩ := Prod.mk.inj (Option.some.inj h)
    simp [commentBody]
  | case3 depth r ih =>
    obtain ⟨⟨x, y⟩, hxy, he⟩ := Option.map_eq_some_iff.mp h
    obtain ⟨rfl, rfl⟩ := Prod.mk.inj he
    simp [commentBody, ih hxy]
  | case4 depth c r hopens hcloses hcloses' ih =>
    obtain ⟨⟨x, y⟩, hxy, he⟩ := Option.map_eq_some_iff.mp h
    obtain ⟨rfl, rfl⟩ := Prod.mk.inj he
    -- the comment goes on behind this character, so the next one is the same
    obtain ⟨d, x, rfl⟩ := List.exists_cons_of_ne_nil (commentBody_ne_nil hxy)
    have hr := commentBody_append _ _ _ _ hxy
    subst hr
    have hrest := ih hxy
    rw [List.cons_append, commentBody.eq_def]
    split
    · rename_i heq
      obtain ⟨hc, hd⟩ := List.cons.inj heq
      exact (hopens _ hc (congrArg (· :: _) (List.cons.inj hd).1)).elim
    · rename_i heq
      obtain ⟨hc, hd⟩ := List.cons.inj heq
      exact (hcloses _ rfl hc (congrArg (· :: _) (List.cons.inj hd).1)).elim
    · rename_i heq
      obtain ⟨hc, hd⟩ := List.cons.inj heq
      exact (hcloses' _ _ rfl hc (congrArg (· :: _) (List.cons.inj hd).1)).elim
    · rename_i heq
      obtain ⟨rfl, rfl⟩ := List.cons.inj heq
      rw [hrest]
      rfl
    · rename_i heq
      cases heq
  | case5 => cases h

theorem comment_before (hacc : (comment (t ++ r)).lexeme.Accepted)
    (h : (comment (t ++ r)).lexeme.text = '/' :: '*' :: t) (r' : List Char) :
    comment (t ++ r') = ⟨(comment (t ++ r)).lexeme, r'⟩ := by
  unfold comment at hacc h
  split at h
  · rename_i a b hbody
    have ht : a = t := (List.cons.inj (List.cons.inj h).2).2
    subst ht
    rw [comment, commentBody_before hbody r', comment, hbody]
  · rename_i hnone
    rw [hnone] at hacc
    cases hacc _ (List.mem_singleton.mpr rfl)

theorem lineComment_before (h : (lineComment (t ++ r)).lexeme.text = '/' :: t) (hr : Continues r r') :
    lineComment (t ++ r') = ⟨(lineComment (t ++ r)).lexeme, r'⟩ := by
  have htake : (t ++ r).takeWhile (· ≠ '\n') = t := (List.cons.inj h).2
  obtain ⟨hall, hhead⟩ := takeWhile_eq_left htake
  obtain ⟨htake', hdrop'⟩ := takeWhile_append_stop hall (hr.all hhead)
  simp only [lineComment, htake, htake', hdrop']

theorem single_before (c : Char) (r r' : List Char) : single c r' = ⟨(single c r).lexeme, r'⟩ := by
  unfold single
  split <;> rfl

theorem single_text (c : Char) (r : List Char) : (single c r).lexeme.text = [c] := by
  unfold single
  split <;> rfl

theorem mark_before (h : (mark c (t ++ r)).lexeme.text = c :: t) (hr : Continues r r') :
    mark c (t ++ r') = ⟨(mark c (t ++ r)).lexeme, r'⟩ := by
  cases t with
  | nil =>
    -- a mark of one character: none of two starts here
    have hsingle : mark c r = single c r := by
      cases r with
      | nil => rfl
      | cons d r =>
        cases hpair : pair? c d with
        | none => simp [mark, hpair]
        | some p => simp [mark, hpair, Lexeme.whole] at h
    have hsingle' : mark c r' = single c r' := by
      rcases hr with rfl | hr
      · rfl
      · cases r with
        | nil =>
          rw [List.head?_nil, List.head?_eq_none_iff] at hr
          rw [hr]
          rfl
        | cons d r =>
          obtain ⟨r', rfl⟩ := List.head?_eq_some_iff.mp hr
          cases hpair : pair? c d with
          | none => simp [mark, hpair]
          | some p => simp [mark, hpair, Lexeme.whole] at h
    rw [List.nil_append, List.nil_append, hsingle, hsingle']
    exact single_before c r r'
  | cons d t =>
    obtain ⟨p, hpair⟩ : ∃ p, pair? c d = some p := by
      cases hpair : pair? c d with
      | none =>
        have htext := single_text c (d :: (t ++ r))
        simp [mark, hpair, htext] at h
      | some p => exact ⟨p, rfl⟩
    have ht : t = [] := by simpa [mark, hpair, Lexeme.whole] using h
    subst ht
    simp [mark, hpair]

theorem scan_blank (h : isBlank c = true) (cs : List Char) : scan c cs = ⟨.skipped [c], cs⟩ := by
  unfold scan
  rw [if_pos h]

theorem not_blank_of_isNamePart (h : isNamePart c = true) : isBlank c = false := by
  rw [Bool.eq_false_iff]
  intro hblank
  simp only [isBlank, Bool.or_eq_true, decide_eq_true_eq] at hblank
  rcases hblank with ((rfl | rfl) | rfl) | rfl <;> revert h <;> decide

theorem scan_word (h : isNameStart c = true) (cs : List Char) : scan c cs = word c cs := by
  have hblank := not_blank_of_isNamePart (by simp [isNamePart, h] : isNamePart c = true)
  unfold scan
  rw [if_neg (Bool.eq_false_iff.mp hblank), if_pos h]

theorem not_nameStart_of_isDigit (h : c.isDigit = true) : isNameStart c = false := by
  rw [Bool.eq_false_iff]
  intro hstart
  simp only [isNameStart, Char.isAlpha, Char.isUpper, Char.isLower, Char.isDigit, Bool.or_eq_true,
    Bool.and_eq_true, decide_eq_true_eq, UInt32.le_iff_toNat_le, ge_iff_le] at h hstart
  have hnine : '9'.val.toNat = 57 := rfl
  have hA : 'A'.val.toNat = 65 := rfl
  have ha : 'a'.val.toNat = 97 := rfl
  rcases hstart with (hupper | hlower) | rfl
  · omega
  · omega
  · revert h
    decide

theorem scan_number (h : c.isDigit = true) (cs : List Char) : scan c cs = number (c :: cs) := by
  have hblank := not_blank_of_isNamePart (by simp [isNamePart, h] : isNamePart c = true)
  have hname := not_nameStart_of_isDigit h
  unfold scan
  rw [if_neg (Bool.eq_false_iff.mp hblank), if_neg (Bool.eq_false_iff.mp hname), if_pos h]

/-- What a slash starts. -/
theorem slash_before (hacc : (scan '/' (t ++ r)).lexeme.Accepted)
    (h : (scan '/' (t ++ r)).lexeme.text = '/' :: t) (hr : Continues r r') :
    scan '/' (t ++ r') = ⟨(scan '/' (t ++ r)).lexeme, r'⟩ := by
  have hmark : ∀ cs, (∀ d ∈ cs.head?, d ≠ '/' ∧ d ≠ '*') → scan '/' cs = mark '/' cs := by
    intro cs hcs
    unfold scan
    rw [if_neg (by decide), if_neg (by decide), if_neg (by decide), if_neg (by decide), if_pos rfl]
    split
    · exact absurd rfl (hcs '/' rfl).1
    · exact absurd rfl (hcs '*' rfl).2
    · rfl
  rcases t with _ | ⟨d, t⟩
  · have hhead : ∀ d ∈ r.head?, d ≠ '/' ∧ d ≠ '*' := by
      intro d hd
      obtain ⟨r, rfl⟩ := List.head?_eq_some_iff.mp hd
      constructor
      · rintro rfl
        cases h
      · rintro rfl
        have hstart : (comment r).lexeme.text ≠ ['/'] := by
          unfold comment
          split <;> simp [Lexeme.skipped, Lexeme.rejected]
        exact hstart h
    rw [List.nil_append, List.nil_append, hmark _ hhead, hmark _ (hr.all hhead)] at *
    exact mark_before (t := []) h hr
  · by_cases hline : d = '/'
    · subst hline
      exact lineComment_before (t := '/' :: t) h hr
    · by_cases hblock : d = '*'
      · subst hblock
        exact comment_before hacc h r'
      · have hhead : ∀ r : List Char, ∀ e ∈ (d :: t ++ r).head?, e ≠ '/' ∧ e ≠ '*' := by
          rintro r _ ⟨rfl⟩
          exact ⟨hline, hblock⟩
        rw [hmark _ (hhead r), hmark _ (hhead r')] at *
        exact mark_before h hr

/-- A lexeme that is accepted is read the same where something else stands behind it. -/
theorem scan_before (hacc : (scan c (t ++ r)).lexeme.Accepted) (h : (scan c (t ++ r)).lexeme.text = c :: t)
    (hr : Continues r r') (hdot : r'.head? ≠ some '.') :
    scan c (t ++ r') = ⟨(scan c (t ++ r)).lexeme, r'⟩ := by
  by_cases hslash : c = '/'
  · subst hslash
    exact slash_before hacc h hr
  by_cases hblank : isBlank c = true
  · rw [scan_blank hblank] at h
    obtain rfl : [] = t := (List.cons.inj h).2
    rw [scan_blank hblank, scan_blank hblank]
    rfl
  by_cases hname : isNameStart c = true
  · rw [scan_word hname] at h ⊢
    rw [scan_word hname]
    exact word_before h hr
  by_cases hdigit : c.isDigit = true
  · rw [scan_number hdigit] at hacc h ⊢
    rw [scan_number hdigit]
    have hrest : (number (c :: (t ++ r))).rest = r := by
      have hall := number_all (c :: (t ++ r))
      rw [Step.all, h] at hall
      exact List.append_cancel_left (show c :: t ++ _ = c :: t ++ r from hall)
    have hquiet : Quiet r' := fun d hd =>
      ⟨hr.all (fun d hd => number_rest_head _ d (by rw [hrest]; exact hd)) d hd, fun heq => hdot (heq ▸ hd)⟩
    have hbefore := number_before ⟨c, rfl, hdigit⟩ hacc hquiet
    rwa [h] at hbefore
  by_cases hquote : c = '\x22'
  · subst hquote
    exact string_before hacc h r'
  · have hscan : ∀ cs, scan c cs = mark c cs := fun cs => by
      unfold scan
      rw [if_neg hblank, if_neg hname, if_neg hdigit, if_neg hquote, if_neg hslash]
    rw [hscan] at h ⊢
    rw [hscan]
    exact mark_before h hr

end

/-! ## Pieces of a text -/

/-- The text of some lexemes. -/
def textOf (ls : List Lexeme) : List Char := ls.flatMap Lexeme.text

@[simp] theorem textOf_nil : textOf [] = [] := rfl

@[simp] theorem textOf_cons (l : Lexeme) (ls : List Lexeme) : textOf (l :: ls) = l.text ++ textOf ls := rfl

@[simp] theorem textOf_append (ls ms : List Lexeme) : textOf (ls ++ ms) = textOf ls ++ textOf ms :=
  List.flatMap_append

/-- The first lexeme of a text comes of one step. -/
theorem lexemes_cons {cs : List Char} {l : Lexeme} {ls : List Lexeme} (h : lexemes cs = l :: ls) :
    ∃ c t r, cs = c :: (t ++ r) ∧ scan c (t ++ r) = ⟨l, r⟩ ∧ l.text = c :: t ∧ lexemes r = ls := by
  cases cs with
  | nil =>
    rw [lexemes] at h
    cases h
  | cons c rest =>
    rw [lexemes] at h
    obtain ⟨rfl, hls⟩ := List.cons.inj h
    have hall := scan_all c rest
    obtain ⟨d, t, htext⟩ := List.exists_cons_of_ne_nil (scan_text_ne_nil c rest)
    rw [Step.all, htext, List.cons_append] at hall
    obtain ⟨rfl, hrest⟩ := List.cons.inj hall
    exact ⟨d, t, (scan d rest).rest, by rw [hrest], by rw [hrest], htext, hls⟩

theorem lexemes_append {cs : List Char} {ls ms : List Lexeme} (h : lexemes cs = ls ++ ms) :
    lexemes (textOf ms) = ms := by
  induction ls generalizing cs with
  | nil =>
    have htext := lexemes_text cs
    rw [h] at htext
    rw [show textOf ms = cs from htext, h]
    rfl
  | cons l ls ih =>
    obtain ⟨c, t, r, -, -, -, hls⟩ := lexemes_cons h
    exact ih hls

/-- The first lexemes of a text are read without the rest of it. -/
theorem lexemes_take {ls ms : List Lexeme} (h : lexemes (textOf (ls ++ ms)) = ls ++ ms)
    (hacc : ∀ l ∈ ls, l.Accepted) (hdot : ∀ l ∈ ls, l.text.head? ≠ some '.') : lexemes (textOf ls) = ls := by
  induction ls with
  | nil => rw [textOf_nil, lexemes]
  | cons l ls ih =>
    obtain ⟨c, t, r, hcs, hscan, htext, hrest⟩ := lexemes_cons h
    have hr : textOf (ls ++ ms) = r := by
      rw [List.cons_append, textOf_cons, htext] at hcs
      exact List.append_cancel_left (List.cons.inj hcs).2
    have hls := ih (by rw [hr]; exact hrest) (fun l hl => hacc l (List.mem_cons_of_mem _ hl))
      fun l hl => hdot l (List.mem_cons_of_mem _ hl)
    have hhead : Continues r (textOf ls) ∧ (textOf ls).head? ≠ some '.' := by
      rw [← hr]
      cases ls with
      | nil => exact ⟨.inl rfl, by simp⟩
      | cons m ls =>
        obtain ⟨d, u, v, -, -, hm, -⟩ := lexemes_cons hls
        rw [textOf_append, textOf_cons, hm]
        refine ⟨.inr rfl, ?_⟩
        have hdot' := hdot m (by simp)
        rwa [hm] at hdot'
    have hagain := scan_before (c := c) (t := t) (r := r) (by rw [hscan]; exact hacc l List.mem_cons_self)
      (by rw [hscan]; exact htext) hhead.1 hhead.2
    rw [hscan] at hagain
    rw [textOf_cons, htext, List.cons_append, lexemes, hagain]
    exact congrArg (l :: ·) hls

/-! ## Their tokens -/

/-- The tokens of lexemes that start at the offset. -/
def spelled (file : FileId) : Nat → List Lexeme → List Token
  | _, [] => []
  | offset, l :: ls =>
      match l.token? with
      | some (terminal, width) =>
          ⟨terminal, ⟨file, offset, offset + width⟩⟩ :: spelled file (offset + l.width) ls
      | none => spelled file (offset + l.width) ls

theorem tokensAt_eq (file : FileId) (offset : Nat) (ls : List Lexeme) : tokensAt file offset ls =
    spelled file offset ls ++
      [⟨.endOfInput, ⟨file, offset + Text.width (textOf ls), offset + Text.width (textOf ls)⟩⟩] := by
  induction ls generalizing offset with
  | nil => rfl
  | cons l ls ih =>
    have hwidth : offset + Text.width (textOf (l :: ls)) = offset + l.width + Text.width (textOf ls) := by
      rw [textOf_cons, Text.width_append, Nat.add_assoc]
      rfl
    rw [tokensAt, spelled, ih, hwidth]
    cases l.token? <;> rfl

theorem spelled_append (file : FileId) (offset : Nat) (ls ms : List Lexeme) :
    spelled file offset (ls ++ ms) =
      spelled file offset ls ++ spelled file (offset + Text.width (textOf ls)) ms := by
  induction ls generalizing offset with
  | nil => rfl
  | cons l ls ih =>
    have hwidth : offset + Text.width (textOf (l :: ls)) = offset + l.width + Text.width (textOf ls) := by
      rw [textOf_cons, Text.width_append, Nat.add_assoc]
      rfl
    rw [List.cons_append, spelled, spelled, ih, hwidth]
    cases l.token? <;> rfl

theorem spelled_of_mem {file : FileId} {offset : Nat} {ls : List Lexeme} {l : Lexeme} {terminal : Terminal}
    {width : Nat} (hl : l ∈ ls) (h : l.token? = some (terminal, width)) :
    ∃ t ∈ spelled file offset ls, t.terminal = terminal := by
  obtain ⟨before, behind, rfl⟩ := List.append_of_mem hl
  rw [spelled_append, spelled, h]
  exact ⟨_, List.mem_append_right _ List.mem_cons_self, rfl⟩

/-- A piece that starts with a token. -/
theorem spelled_drop {file : FileId} {offset : Nat} {ls : List Lexeme} {us vs : List Token}
    (h : spelled file offset ls = us ++ vs) (hvs : vs ≠ []) : ∃ before l rest, ls = before ++ l :: rest ∧
      spelled file (offset + Text.width (textOf before)) (l :: rest) = vs ∧ l.token?.isSome = true := by
  induction ls generalizing offset us with
  | nil => exact absurd (List.append_eq_nil_iff.mp h.symm).2 hvs
  | cons l ls ih =>
    have hgo : ∀ us, spelled file (offset + l.width) ls = us ++ vs → ∃ before m rest,
        l :: ls = before ++ m :: rest ∧
          spelled file (offset + Text.width (textOf before)) (m :: rest) = vs ∧ m.token?.isSome = true := by
      intro us h
      obtain ⟨before, m, rest, rfl, hvs, hm⟩ := ih h
      refine ⟨l :: before, m, rest, rfl, ?_, hm⟩
      rwa [textOf_cons, Text.width_append, ← Nat.add_assoc]
    cases htoken : l.token? with
    | none =>
      rw [spelled, htoken] at h
      exact hgo us h
    | some token =>
      cases us with
      | nil => exact ⟨[], l, ls, rfl, h, by rw [htoken]; rfl⟩
      | cons u us =>
        rw [spelled, htoken] at h
        exact hgo us (List.cons.inj h).2

/-- A piece that ends with a token. -/
theorem spelled_take {file : FileId} {offset : Nat} {ls : List Lexeme} {us vs : List Token}
    (h : spelled file offset ls = us ++ vs) (hus : us ≠ []) : ∃ before l rest, ls = before ++ l :: rest ∧
      spelled file offset (before ++ [l]) = us ∧ l.token?.isSome = true := by
  induction ls generalizing offset us with
  | nil => exact absurd (List.append_eq_nil_iff.mp h.symm).1 hus
  | cons l ls ih =>
    cases htoken : l.token? with
    | none =>
      rw [spelled, htoken] at h
      obtain ⟨before, m, rest, rfl, hus, hm⟩ := ih h hus
      refine ⟨l :: before, m, rest, rfl, ?_, hm⟩
      rw [List.cons_append, spelled, htoken]
      exact hus
    | some token =>
      rw [spelled, htoken] at h
      obtain ⟨u, us, rfl⟩ := List.exists_cons_of_ne_nil hus
      obtain ⟨hu, h⟩ := List.cons.inj h
      by_cases hnil : us = []
      · subst hnil
        refine ⟨[], l, ls, rfl, ?_, by rw [htoken]; rfl⟩
        rw [List.nil_append, spelled, htoken, ← hu]
        rfl
      · obtain ⟨before, m, rest, rfl, hus, hm⟩ := ih h hnil
        refine ⟨l :: before, m, rest, rfl, ?_, hm⟩
        rw [List.cons_append, spelled, htoken, ← hu]
        exact congrArg (_ :: ·) hus

/-- A token in the lexeme takes all its bytes. -/
def Lexeme.Full (l : Lexeme) : Prop := ∀ token ∈ l.token?, token.2 = l.width

theorem full_whole (text : List Char) (terminal : Terminal) (faults : List Fault) :
    (Lexeme.whole text terminal faults).Full := by
  rintro _ ⟨rfl⟩
  rfl

theorem full_of_none {l : Lexeme} (h : l.token? = none) : l.Full := by
  simp [Lexeme.Full, h]

theorem single_full (c : Char) (rest : List Char) : (single c rest).lexeme.Full := by
  unfold single
  split
  · exact full_whole _ _ _
  · exact full_of_none rfl

theorem mark_full (c : Char) (rest : List Char) : (mark c rest).lexeme.Full := by
  unfold mark
  split
  · split
    · exact full_whole _ _ _
    · exact single_full _ _
  · exact single_full _ _

/-- An accepted lexeme is a token as a whole, or none. -/
theorem scan_full {c : Char} {cs : List Char} (hacc : (scan c cs).lexeme.Accepted) :
    (scan c cs).lexeme.Full := by
  by_cases hdigit : c.isDigit = true
  · rw [scan_number hdigit] at hacc ⊢
    rcases number_spelled ⟨c, rfl, hdigit⟩ hacc with ⟨_, _, _, _, -, hnumber⟩ | ⟨_, _, _, _, -, hnumber⟩
    · rw [hnumber]
      exact full_whole _ _ _
    · rw [hnumber]
      exact full_whole _ _ _
  unfold scan
  split
  · exact full_of_none rfl
  split
  · exact full_whole _ _ _
  split
  · unfold string
    split
    · exact full_whole _ _ _
    · exact full_of_none rfl
  split
  · split
    · exact full_of_none rfl
    · unfold comment
      split <;> exact full_of_none rfl
    · exact mark_full _ _
  · exact mark_full _ _

theorem lexemes_full {cs : List Char} (hacc : ∀ l ∈ lexemes cs, l.Accepted) : ∀ l ∈ lexemes cs, l.Full := by
  fun_induction lexemes cs with
  | case1 => simp
  | case2 c rest ih =>
    rw [List.forall_mem_cons] at hacc ⊢
    exact ⟨scan_full hacc.1, ih hacc.2⟩

/-- A point is read as a token. -/
theorem lexemes_dot {cs : List Char} : ∀ l ∈ lexemes cs, l.text.head? = some '.' →
    l.token? = some (.punct .dot, 1) := by
  fun_induction lexemes cs with
  | case1 => simp
  | case2 c rest ih =>
    rw [List.forall_mem_cons]
    refine ⟨fun hdot => ?_, ih⟩
    have hall := scan_all c rest
    obtain ⟨text, htext⟩ := List.head?_eq_some_iff.mp hdot
    rw [Step.all, htext, List.cons_append] at hall
    obtain rfl := (List.cons.inj hall).1
    cases rest with
    | nil => rfl
    | cons d rest =>
      have hpair : pair? '.' d = none := by
        unfold pair?
        split <;> simp_all
      change (mark '.' (d :: rest)).lexeme.token? = _
      simp only [mark, hpair]
      rfl

/-- The problems of a text are those of its lexemes. -/
theorem problemsAt_value (file : FileId) (offset : Nat) (ls : List Lexeme) :
    (problemsAt file offset ls).map Located.value = ls.flatMap fun l => l.faults.map Fault.problem := by
  induction ls generalizing offset with
  | nil => rfl
  | cons l ls ih =>
    rw [problemsAt, List.map_append, ih, List.flatMap_cons, List.map_map]
    rfl

/-- A text in three pieces, of which the middle one lies between its bytes. -/
theorem slice?_textOf (before ls rest : List Lexeme) :
    Text.slice? (Text.width (textOf before)) (Text.width (textOf before) + Text.width (textOf ls))
      (textOf (before ++ (ls ++ rest))) = some (textOf ls) := by
  have hstart : ¬Text.width (textOf before) + Text.width (textOf ls) < Text.width (textOf before) := by omega
  simp [Text.slice?, hstart, Text.cut?_width]

/-- The text from one token to another is read by itself as it was read in the whole text. -/
theorem lexemes_slice {file : FileId} {cs : List Char} {us ts vs : List Token} {first last : Token}
    (hacc : ∀ l ∈ lexemes cs, l.Accepted) (h : spelled file 0 (lexemes cs) = us ++ (ts ++ vs))
    (hfirst : ts.head? = some first) (hlast : ts.getLast? = some last)
    (hdot : ∀ t ∈ ts, t.terminal ≠ .punct .dot) :
    ∃ ls, Text.slice? first.span.start last.span.stop cs = some (textOf ls) ∧ lexemes (textOf ls) = ls ∧
      spelled file first.span.start ls = ts ∧ ∀ l ∈ ls, l.Accepted := by
  have hne : ts ≠ [] := by
    rintro rfl
    cases hfirst
  obtain ⟨before, l, rest, hlexemes, hspelled, hl⟩ := spelled_drop h (by simp [hne])
  obtain ⟨inner, m, behind, hinner, hts, hm⟩ := spelled_take hspelled hne
  obtain ⟨⟨terminal, width⟩, htoken⟩ := Option.isSome_iff_exists.mp hl
  obtain ⟨⟨terminal', width'⟩, htoken'⟩ := Option.isSome_iff_exists.mp hm
  have hstart : first.span.start = Text.width (textOf before) := by
    have hhead : (ts ++ vs).head? = some first := by
      rw [List.head?_append, hfirst]
      rfl
    rw [← hspelled, spelled, htoken] at hhead
    have hfirst' := Option.some.inj hhead
    rw [← hfirst']
    exact Nat.zero_add _
  have hmem : ∀ n ∈ inner ++ [m], n ∈ lexemes cs := by
    intro n hn
    rw [hlexemes, hinner]
    have hpiece : n ∈ (inner ++ [m]) ++ behind := List.mem_append_left _ hn
    rw [List.append_assoc, List.singleton_append] at hpiece
    exact List.mem_append_right _ hpiece
  have hstop : last.span.stop = Text.width (textOf before) + Text.width (textOf (inner ++ [m])) := by
    rw [spelled_append, spelled, htoken'] at hts
    rw [← hts, List.getLast?_append] at hlast
    have hlast' := Option.some.inj hlast
    have hwidth : width' = m.width := lexemes_full hacc m (hmem m (by simp)) _ htoken'
    rw [← hlast', textOf_append, Text.width_append, textOf_cons, textOf_nil, List.append_nil, hwidth]
    simp only [Nat.zero_add, Nat.add_assoc]
    rfl
  have hall : cs = textOf (before ++ ((inner ++ [m]) ++ behind)) := by
    have htext := lexemes_text cs
    rw [hlexemes, hinner] at htext
    rw [List.append_assoc, List.singleton_append]
    exact htext.symm
  refine ⟨inner ++ [m], ?_, ?_, ?_, fun n hn => hacc n (hmem n hn)⟩
  · rw [hstart, hstop, hall]
    exact slice?_textOf before (inner ++ [m]) behind
  · have hpiece : lexemes (textOf ((inner ++ [m]) ++ behind)) = (inner ++ [m]) ++ behind := by
      rw [List.append_assoc, List.singleton_append, ← hinner]
      exact lexemes_append hlexemes
    refine lexemes_take hpiece (fun n hn => hacc n (hmem n hn)) fun n hn hpoint => ?_
    have htoken'' := lexemes_dot n (hmem n hn) hpoint
    obtain ⟨t, ht, hterminal⟩ : ∃ t ∈ ts, t.terminal = .punct .dot := by
      rw [← hts]
      exact spelled_of_mem hn htoken''
    exact hdot t ht hterminal
  · rw [hstart, ← hts, Nat.zero_add]

theorem spelled_start {file : FileId} {offset : Nat} {ls : List Lexeme} :
    ∀ t ∈ spelled file offset ls, offset ≤ t.span.start := by
  induction ls generalizing offset with
  | nil => simp [spelled]
  | cons l ls ih =>
    have hrest : ∀ t ∈ spelled file (offset + l.width) ls, offset ≤ t.span.start :=
      fun t ht => Nat.le_trans (Nat.le_add_right _ _) (ih t ht)
    cases htoken : l.token? with
    | none => simpa only [spelled, htoken] using hrest
    | some token =>
      simp only [spelled, htoken, List.forall_mem_cons]
      exact ⟨Nat.le_refl _, hrest⟩

end Ferrite.Lexer
