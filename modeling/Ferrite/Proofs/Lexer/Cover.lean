import Ferrite.Proofs.Lexer.Alone
import Ferrite.Proofs.Parse.Slice

/-!
The tokens of a text and what stands between them. Each token is the token of its own place; in a
text without mistakes only blanks and comments are left over.
-/

namespace Ferrite.Lexer

/-! ## Blanks and comments -/

/-- What stands behind the start of a comment, its end included. Comments inside it are ended too. -/
inductive CommentRest : List Char → Prop
  | close : CommentRest ['*', '/']
  | comment {a b : List Char} (h : CommentRest a) (hs : CommentRest b) : CommentRest ('/' :: '*' :: (a ++ b))
  | char {c : Char} {cs : List Char} (h : CommentRest cs) (hopen : ¬(c = '/' ∧ cs.head? = some '*'))
      (hclose : ¬(c = '*' ∧ cs.head? = some '/')) : CommentRest (c :: cs)

/-- Blanks, comments up to the end of their line, and comments that end by themselves. -/
inductive Trivia : List Char → Prop
  | nil : Trivia []
  | blank {c : Char} {cs : List Char} (hc : c ∈ [' ', '\t', '\r', '\n']) (h : Trivia cs) : Trivia (c :: cs)
  | line {body cs : List Char} (hbody : '\n' ∉ body) (hend : cs = [] ∨ cs.head? = some '\n') (h : Trivia cs) :
      Trivia ('/' :: '/' :: (body ++ cs))
  | comment {body cs : List Char} (hbody : CommentRest body) (h : Trivia cs) :
      Trivia ('/' :: '*' :: (body ++ cs))

/-- The rest of a comment that stands so many comments deep inside others, and theirs. -/
def CommentRests : Nat → List Char → Prop
  | 0, cs => CommentRest cs
  | depth + 1, cs => ∃ a b, cs = a ++ b ∧ CommentRest a ∧ CommentRests depth b

theorem CommentRest.ne_nil {cs : List Char} (h : CommentRest cs) : cs ≠ [] := by
  cases h <;> exact List.cons_ne_nil _ _

theorem CommentRests.comment {depth : Nat} {cs : List Char} (h : CommentRests (depth + 1) cs) :
    CommentRests depth ('/' :: '*' :: cs) := by
  obtain ⟨a, b, rfl, ha, hb⟩ := h
  cases depth with
  | zero => exact CommentRest.comment ha hb
  | succ depth =>
    obtain ⟨x, y, rfl, hx, hy⟩ := hb
    exact ⟨'/' :: '*' :: (a ++ x), y, by simp, .comment ha hx, hy⟩

theorem CommentRests.char {depth : Nat} {c : Char} {cs : List Char} (h : CommentRests depth cs)
    (hopen : ¬(c = '/' ∧ cs.head? = some '*')) (hclose : ¬(c = '*' ∧ cs.head? = some '/')) :
    CommentRests depth (c :: cs) := by
  cases depth with
  | zero => exact CommentRest.char h hopen hclose
  | succ depth =>
    obtain ⟨a, b, rfl, ha, hb⟩ := h
    have hhead : (a ++ b).head? = a.head? := by
      obtain ⟨d, a, rfl⟩ := List.exists_cons_of_ne_nil ha.ne_nil
      rfl
    rw [hhead] at hopen hclose
    exact ⟨c :: a, b, rfl, .char ha hopen hclose, hb⟩

theorem commentBody_rests {depth : Nat} {cs a b : List Char} (h : commentBody depth cs = some (a, b)) :
    CommentRests depth a := by
  fun_induction commentBody depth cs generalizing a b with
  | case1 depth r ih =>
    obtain ⟨⟨x, y⟩, hxy, he⟩ := Option.map_eq_some_iff.mp h
    obtain ⟨rfl, rfl⟩ := Prod.mk.inj he
    exact (ih hxy).comment
  | case2 r =>
    obtain ⟨rfl, rfl⟩ := Prod.mk.inj (Option.some.inj h)
    exact CommentRest.close
  | case3 depth r ih =>
    obtain ⟨⟨x, y⟩, hxy, he⟩ := Option.map_eq_some_iff.mp h
    obtain ⟨rfl, rfl⟩ := Prod.mk.inj he
    exact ⟨['*', '/'], x, rfl, .close, ih hxy⟩
  | case4 depth c r hopens hcloses hcloses' ih =>
    obtain ⟨⟨x, y⟩, hxy, he⟩ := Option.map_eq_some_iff.mp h
    obtain ⟨rfl, rfl⟩ := Prod.mk.inj he
    -- the comment goes on behind the character as the text does
    obtain ⟨d, x, rfl⟩ := List.exists_cons_of_ne_nil (commentBody_ne_nil hxy)
    have hr := commentBody_append _ _ _ _ hxy
    subst hr
    refine (ih hxy).char ?_ ?_
    · rintro ⟨rfl, hd⟩
      obtain rfl := Option.some.inj hd
      exact hopens _ rfl rfl
    · rintro ⟨rfl, hd⟩
      obtain rfl := Option.some.inj hd
      cases depth with
      | zero => exact hcloses _ rfl rfl rfl
      | succ depth => exact hcloses' _ _ rfl rfl rfl
  | case5 => cases h

/-- A lexeme that is no token and no mistake. -/
inductive Lexeme.IsTrivia (l : Lexeme) (rest : List Char) : Prop
  | blank {c : Char} (h : l.text = [c]) (hc : c ∈ [' ', '\t', '\r', '\n'])
  | line {body : List Char} (h : l.text = '/' :: '/' :: body) (hbody : '\n' ∉ body)
      (hend : rest = [] ∨ rest.head? = some '\n')
  | comment {body : List Char} (h : l.text = '/' :: '*' :: body) (hbody : CommentRest body)

theorem mark_trivia {c : Char} {cs : List Char} (hacc : (mark c cs).lexeme.Accepted)
    (h : (mark c cs).lexeme.token? = none) : False := by
  have hsingle : ∀ c cs, (single c cs).lexeme.Accepted → (single c cs).lexeme.token? ≠ none := by
    intro c cs hacc h
    unfold single at hacc h
    split at h
    · cases h
    · rename_i hnone
      rw [hnone] at hacc
      cases hacc _ (List.mem_singleton.mpr rfl)
  unfold mark at hacc h
  split at h
  · split at h
    · cases h
    · rename_i hpair
      simp only [hpair] at hacc
      exact hsingle _ _ hacc h
  · exact hsingle _ _ hacc h

theorem lineComment_trivia (cs : List Char) :
    (lineComment ('/' :: cs)).lexeme.IsTrivia (lineComment ('/' :: cs)).rest := by
  refine @Lexeme.IsTrivia.line _ _ (cs.takeWhile (· ≠ '\n')) rfl (fun hmem => ?_) ?_
  · simpa using List.mem_takeWhile_imp hmem
  · cases hrest : (lineComment ('/' :: cs)).rest with
    | nil => exact .inl rfl
    | cons d rest =>
      right
      have hd := head_dropWhile (p := (· ≠ '\n')) ('/' :: cs) d (by
        rw [show ('/' :: cs).dropWhile (· ≠ '\n') = d :: rest from hrest]
        rfl)
      simpa using hd

theorem comment_trivia {cs : List Char} (hacc : (comment cs).lexeme.Accepted) :
    (comment cs).lexeme.IsTrivia (comment cs).rest := by
  unfold comment at hacc ⊢
  split
  · rename_i body rest hbody
    exact .comment rfl (commentBody_rests hbody)
  · rename_i hnone
    simp only [hnone] at hacc
    cases hacc _ (List.mem_singleton.mpr rfl)

theorem scan_trivia {c : Char} {cs : List Char} (hacc : (scan c cs).lexeme.Accepted)
    (h : (scan c cs).lexeme.token? = none) : (scan c cs).lexeme.IsTrivia (scan c cs).rest := by
  by_cases hblank : isBlank c = true
  · rw [scan_blank hblank]
    refine .blank rfl ?_
    simpa [isBlank, or_assoc, or_left_comm, or_comm] using hblank
  by_cases hdigit : c.isDigit = true
  · rw [scan_number hdigit] at hacc h
    rcases number_spelled ⟨c, rfl, hdigit⟩ hacc with ⟨_, _, _, _, -, hnumber⟩ | ⟨_, _, _, _, -, hnumber⟩
    · rw [hnumber] at h
      cases h
    · rw [hnumber] at h
      cases h
  unfold scan at hacc h ⊢
  rw [if_neg hblank, if_neg hdigit] at hacc h ⊢
  split
  · rw [if_pos ‹_›] at h
    cases h
  rw [if_neg ‹_›] at hacc h
  split
  · rw [if_pos ‹_›] at hacc h
    unfold string at hacc h
    split at h
    · cases h
    · rename_i hnone
      rw [hnone] at hacc
      cases hacc _ (List.mem_singleton.mpr rfl)
  rw [if_neg ‹_›] at hacc h
  split
  · rw [if_pos ‹_›] at hacc h
    revert hacc h
    split
    · exact fun _ _ => lineComment_trivia _
    · exact fun hacc _ => comment_trivia hacc
    · exact fun hacc h => (mark_trivia hacc h).elim
  · rw [if_neg ‹_›] at hacc h
    exact (mark_trivia hacc h).elim

/-- Lexemes up to the next token, which are no mistakes, are blanks and comments. -/
theorem trivia_of_lexemes {cs : List Char} {ls rest : List Lexeme} (h : lexemes cs = ls ++ rest)
    (hls : ∀ l ∈ ls, l.token? = none ∧ l.Accepted) (hrest : ∀ l ∈ rest.head?, l.token? ≠ none) :
    Trivia (textOf ls) := by
  induction ls generalizing cs with
  | nil => exact .nil
  | cons l ls ih =>
    obtain ⟨c, t, r, rfl, hscan, -, hr⟩ := lexemes_cons h
    have hr : lexemes r = ls ++ rest := hr
    rw [List.forall_mem_cons] at hls
    have htail : Trivia (textOf ls) := ih hr hls.2
    have hl : l.IsTrivia r := by
      have hstep : (scan c (t ++ r)).lexeme.IsTrivia (scan c (t ++ r)).rest :=
        scan_trivia (by rw [hscan]; exact hls.1.2) (by rw [hscan]; exact hls.1.1)
      rwa [hscan] at hstep
    rw [textOf_cons]
    cases hl with
    | blank htext hc =>
      rw [htext]
      exact .blank hc htail
    | line htext hbody hend =>
      rw [htext, List.cons_append, List.cons_append]
      refine .line hbody ?_ htail
      rcases hend with rfl | hend
      · left
        rw [lexemes] at hr
        rw [(List.append_eq_nil_iff.mp hr.symm).1]
        rfl
      · -- the line end behind the comment is skipped as well
        right
        obtain ⟨r, rfl⟩ := List.head?_eq_some_iff.mp hend
        rw [lexemes, scan_blank rfl] at hr
        cases ls with
        | nil =>
          rw [List.nil_append] at hr
          exact absurd rfl (hrest (.skipped ['\n']) (by rw [← hr]; rfl))
        | cons m ls =>
          rw [List.cons_append] at hr
          rw [textOf_cons, ← (List.cons.inj hr).1]
          rfl
    | comment htext hbody =>
      rw [htext, List.cons_append, List.cons_append]
      exact .comment hbody htail

/-! ## Places -/

theorem slice?_middle (a b c : List Char) :
    Text.slice? (Text.width a) (Text.width a + Text.width b) (a ++ (b ++ c)) = some b := by
  have hstart : ¬Text.width a + Text.width b < Text.width a := by omega
  simp [Text.slice?, hstart, Text.cut?_width]

/-- From the offset to the first place, and from each place to the next one. -/
def gaps : Nat → List Token → List (Nat × Nat)
  | _, [] => []
  | offset, t :: ts => (offset, t.span.start) :: gaps t.span.stop ts

theorem tokensAt_skip (file : FileId) (offset : Nat) {ls : List Lexeme} (ms : List Lexeme)
    (h : ∀ l ∈ ls, l.token? = none) :
    tokensAt file offset (ls ++ ms) = tokensAt file (offset + Text.width (textOf ls)) ms := by
  induction ls generalizing offset with
  | nil => rfl
  | cons l ls ih =>
    rw [List.forall_mem_cons] at h
    rw [List.cons_append, tokensAt, h.1, ih _ h.2, textOf_cons, Text.width_append, ← Nat.add_assoc]
    rfl

theorem gaps_trivia (file : FileId) (before : List Char) {ls : List Lexeme} (h : lexemes (textOf ls) = ls)
    (hacc : ∀ l ∈ ls, l.Accepted) :
    ∀ g ∈ gaps (Text.width before) (tokensAt file (Text.width before) ls),
      ∃ cs, Text.slice? g.1 g.2 (before ++ textOf ls) = some cs ∧ Trivia cs := by
  induction hn : ls.length using Nat.strong_induction_on generalizing before ls with | _ n ih
  -- the lexemes up to the next token
  obtain ⟨gap, rest, rfl, hgap, hrest⟩ : ∃ gap rest, ls = gap ++ rest ∧ (∀ l ∈ gap, l.token? = none) ∧
      ∀ l ∈ rest.head?, l.token? ≠ none := by
    refine ⟨ls.takeWhile (·.token?.isNone), ls.dropWhile (·.token?.isNone),
      List.takeWhile_append_dropWhile.symm, fun l hl => ?_, fun l hl hnone => ?_⟩
    · simpa using List.mem_takeWhile_imp hl
    · have hnot := List.head?_dropWhile_not (·.token?.isNone) ls
      rw [Option.mem_def.mp hl] at hnot
      simp [hnone] at hnot
  have htrivia : Trivia (textOf gap) :=
    trivia_of_lexemes h (fun l hl => ⟨hgap l hl, hacc l (List.mem_append_left _ hl)⟩) hrest
  have hslice : Text.slice? (Text.width before) (Text.width before + Text.width (textOf gap))
      (before ++ textOf (gap ++ rest)) = some (textOf gap) := by
    rw [textOf_append]
    exact slice?_middle _ _ _
  rw [tokensAt_skip file _ rest hgap]
  cases rest with
  | nil =>
    intro g hg
    obtain rfl := List.mem_singleton.mp hg
    exact ⟨_, hslice, htrivia⟩
  | cons l ls =>
    cases htoken : l.token? with
    | none => exact absurd htoken (hrest l rfl)
    | some token =>
      have hrestLexemes : lexemes (textOf (l :: ls)) = l :: ls := lexemes_append h
      have hls : lexemes (textOf ls) = ls := @lexemes_append _ [l] ls hrestLexemes
      have hfull : ∀ m ∈ lexemes (textOf (l :: ls)), m.Full := lexemes_full fun m hm => by
        rw [hrestLexemes] at hm
        exact hacc m (List.mem_append_right _ hm)
      rw [hrestLexemes] at hfull
      have hwidth : token.2 = l.width := hfull l List.mem_cons_self token htoken
      have hstart : Text.width before + Text.width (textOf gap) + l.width =
          Text.width (before ++ (textOf gap ++ l.text)) := by
        rw [Text.width_append, Text.width_append, Nat.add_assoc]
        rfl
      intro g hg
      rw [tokensAt, htoken, gaps, List.mem_cons] at hg
      rcases hg with rfl | hg
      · exact ⟨_, hslice, htrivia⟩
      · simp only [hwidth, hstart] at hg
        have hless : ls.length < n := by
          rw [← hn, List.length_append, List.length_cons]
          omega
        have hnext := ih ls.length hless (before ++ (textOf gap ++ l.text)) hls
          (fun m hm => hacc m (by simp [hm])) rfl g hg
        simpa using hnext

/-! ## Tokens -/

theorem number_terminal (cs : List Char) :
    ∃ value width, (number cs).lexeme.token? = some (.literal value, width) := by
  simp only [number]
  split
  · exact ⟨_, _, by rw [rescan, float_eq_decimal]; rfl⟩
  · split
    · exact ⟨_, _, rfl⟩
    · exact ⟨_, _, rfl⟩

theorem mark_terminal {c : Char} {cs : List Char} {terminal : Terminal} {width : Nat}
    (h : (mark c cs).lexeme.token? = some (terminal, width)) : ∃ p, terminal = .punct p := by
  have hsingle : ∀ cs, (single c cs).lexeme.token? = some (terminal, width) → ∃ p, terminal = .punct p := by
    intro cs h
    unfold single at h
    split at h
    · cases h
      exact ⟨_, rfl⟩
    · cases h
  unfold mark at h
  split at h
  · split at h
    · cases h
      exact ⟨_, rfl⟩
    · exact hsingle _ h
  · exact hsingle _ h

theorem wordTerminal_ne_end (text : String) : wordTerminal text ≠ .endOfInput := by
  unfold wordTerminal
  split
  · exact Terminal.noConfusion
  split
  · exact Terminal.noConfusion
  split <;> exact Terminal.noConfusion

/-- The end of input is none of the tokens in a text. -/
theorem scan_terminal {c : Char} {cs : List Char} {terminal : Terminal} {width : Nat}
    (h : (scan c cs).lexeme.token? = some (terminal, width)) : terminal ≠ .endOfInput := by
  have hmark : ∀ cs, (mark c cs).lexeme.token? = some (terminal, width) → terminal ≠ .endOfInput := by
    intro cs h
    obtain ⟨p, rfl⟩ := mark_terminal h
    exact Terminal.noConfusion
  unfold scan at h
  split at h
  · cases h
  split at h
  · cases h
    exact wordTerminal_ne_end _
  split at h
  · obtain ⟨value, width', hnumber⟩ := number_terminal (c :: cs)
    rw [hnumber] at h
    cases h
    exact Terminal.noConfusion
  split at h
  · unfold string at h
    split at h
    · cases h
      exact Terminal.noConfusion
    · cases h
  split at h
  · split at h
    · cases h
    · unfold comment at h
      split at h <;> cases h
    · exact hmark _ h
  · exact hmark _ h

/-- Where a token stands: so many bytes into the text as the lexemes before it take. -/
theorem spelled_place {file : FileId} {before : List Char} {ls : List Lexeme} (h : lexemes (textOf ls) = ls)
    {t : Token} (ht : t ∈ spelled file (Text.width before) ls) :
    ∃ front pre behind l, before ++ textOf ls = front ++ (pre ++ behind) ∧
      t.span = ⟨file, Text.width front, Text.width front + Text.width pre⟩ ∧ pre ≠ [] ∧
      lexemes pre = [l] ∧ l.token? = some (t.terminal, Text.width pre) ∧ t.terminal ≠ .endOfInput := by
  induction ls generalizing before with
  | nil => cases ht
  | cons l ls ih =>
    obtain ⟨c, u, r, hcs, hscan, htext, hls⟩ := lexemes_cons h
    have hr : textOf ls = r := by
      rw [textOf_cons, htext] at hcs
      exact List.append_cancel_left (List.cons.inj hcs).2
    have hnext : Text.width before + l.width = Text.width (before ++ l.text) := by
      rw [Text.width_append]
      rfl
    have hrest : t ∈ spelled file (Text.width before + l.width) ls → ∃ front pre behind l',
        before ++ textOf (l :: ls) = front ++ (pre ++ behind) ∧
        t.span = ⟨file, Text.width front, Text.width front + Text.width pre⟩ ∧ pre ≠ [] ∧
        lexemes pre = [l'] ∧ l'.token? = some (t.terminal, Text.width pre) ∧ t.terminal ≠ .endOfInput := by
      intro ht
      rw [hnext] at ht
      have hplace := ih (by rw [hr]; exact hls) ht
      rwa [List.append_assoc] at hplace
    cases htoken : l.token? with
    | none =>
      rw [spelled, htoken] at ht
      exact hrest ht
    | some token =>
      obtain ⟨terminal, width⟩ := token
      rw [spelled, htoken, List.mem_cons] at ht
      rcases ht with rfl | ht
      · have htoken' : (scan c (u ++ r)).lexeme.token? = some (terminal, width) := by rw [hscan]; exact htoken
        obtain ⟨pre, post, m, hpre, halone, hm, hwidth⟩ := scan_alone htoken'
        have hend := scan_terminal htoken'
        rw [hscan] at hpre
        simp only at hwidth
        refine ⟨before, c :: pre, post ++ textOf ls, m, ?_, by rw [hwidth], List.cons_ne_nil _ _, ?_, ?_, hend⟩
        · rw [textOf_cons, hpre]
          simp
        · rw [lexemes, halone, lexemes]
        · rw [hm, hwidth]
      · exact hrest ht

/-- One token behind the other. -/
theorem spelled_pairwise {file : FileId} {offset : Nat} {ls : List Lexeme} (h : lexemes (textOf ls) = ls) :
    (spelled file offset ls).Pairwise fun a b => a.span.stop ≤ b.span.start := by
  induction ls generalizing offset with
  | nil => exact List.Pairwise.nil
  | cons l ls ih =>
    obtain ⟨c, u, r, hcs, hscan, htext, hls⟩ := lexemes_cons h
    have hr : textOf ls = r := by
      rw [textOf_cons, htext] at hcs
      exact List.append_cancel_left (List.cons.inj hcs).2
    have hrest := @ih (offset + l.width) (by rw [hr]; exact hls)
    cases htoken : l.token? with
    | none => simpa only [spelled, htoken] using hrest
    | some token =>
      simp only [spelled, htoken]
      refine List.pairwise_cons.mpr ⟨fun t ht => ?_, hrest⟩
      have htoken' : (scan c (u ++ r)).lexeme.token? = some token := by rw [hscan]; exact htoken
      obtain ⟨pre, post, -, hpre, -, -, hwidth⟩ := scan_alone htoken'
      have hle : token.2 ≤ l.width := by
        rw [hscan] at hpre
        rw [Lexeme.width, hpre, hwidth, ← List.cons_append, Text.width_append]
        exact Nat.le_add_right _ _
      have hstart := spelled_start t ht
      change offset + token.2 ≤ t.span.start
      omega

/-- The end of input stands behind all other tokens. -/
theorem read_ends (file : FileId) (text : String) : ∃ ts finish, (read file text).tokens = ts ++ [finish] ∧
    finish.terminal = .endOfInput ∧ ∀ t ∈ ts, t.terminal ≠ .endOfInput := by
  have hlexemes : lexemes (textOf (lexemes text.toList)) = lexemes text.toList := by
    rw [show textOf (lexemes text.toList) = text.toList from lexemes_text _]
  refine ⟨spelled file 0 (lexemes text.toList), _, tokensAt_eq file 0 _, rfl, ?_⟩
  intro t ht
  obtain ⟨-, -, -, -, -, -, -, -, -, hend⟩ := @spelled_place file [] _ hlexemes t ht
  exact hend

theorem width_pos {cs : List Char} (h : cs ≠ []) : 0 < Text.width cs := by
  obtain ⟨c, cs, rfl⟩ := List.exists_cons_of_ne_nil h
  exact Nat.lt_of_lt_of_le (Char.utf8Size_pos c) (Nat.le_add_right _ _)

/-- The tokens are in the order of their places, and the end of input is the last one. -/
theorem read_starts (file : FileId) (text : String) :
    (read file text).tokens.Pairwise fun a b => a.span.start < b.span.start := by
  have htext : textOf (lexemes text.toList) = text.toList := lexemes_text _
  have hlexemes : lexemes (textOf (lexemes text.toList)) = lexemes text.toList := by rw [htext]
  have hplace : ∀ t ∈ spelled file 0 (lexemes text.toList),
      t.span.start < t.span.stop ∧ t.span.stop ≤ Text.width text.toList := by
    intro t ht
    obtain ⟨front, pre, behind, -, hall, hspan, hne, -⟩ := @spelled_place file [] _ hlexemes t ht
    rw [List.nil_append, htext] at hall
    rw [hspan, hall, Text.width_append, Text.width_append]
    exact ⟨Nat.lt_add_of_pos_right (width_pos hne), Nat.add_le_add_left (Nat.le_add_right _ _) _⟩
  rw [read, tokensAt_eq, htext, Nat.zero_add]
  refine List.pairwise_append.mpr ⟨?_, List.pairwise_singleton _ _, fun a ha b hb => ?_⟩
  · exact (spelled_pairwise hlexemes).imp_of_mem fun ha _ hle => Nat.lt_of_lt_of_le (hplace _ ha).1 hle
  · rw [List.mem_singleton.mp hb]
    exact Nat.lt_of_lt_of_le (hplace a ha).1 (hplace a ha).2

/-- Reading loses nothing and looks at nothing but the token that it reads: the tokens stand one behind
the other, each at characters of the text that are that token by themselves, and if nothing is
wrong, only blanks and comments stand between them. -/
theorem read_lossless (file : FileId) (text : String) :
    ∃ ts, (read file text).tokens =
        ts ++ [⟨.endOfInput, ⟨file, Text.width text.toList, Text.width text.toList⟩⟩] ∧
      (∀ t ∈ ts, t.terminal ≠ .endOfInput ∧ t.span.file = file ∧ t.span.start < t.span.stop ∧
        t.span.stop ≤ Text.width text.toList ∧
        ∃ cs, Text.slice? t.span.start t.span.stop text.toList = some cs ∧ ∀ other,
          (read other (String.ofList cs)).tokens = [⟨t.terminal, ⟨other, 0, t.span.stop - t.span.start⟩⟩,
            ⟨.endOfInput, ⟨other, t.span.stop - t.span.start, t.span.stop - t.span.start⟩⟩]) ∧
      (ts.Pairwise fun a b => a.span.stop ≤ b.span.start) ∧
      ((∀ d ∈ (read file text).diagnostics, d.isError = false) → ∀ g ∈ gaps 0 (read file text).tokens,
        ∃ cs, Text.slice? g.1 g.2 text.toList = some cs ∧ Trivia cs) := by
  have htext : textOf (lexemes text.toList) = text.toList := lexemes_text _
  have hlexemes : lexemes (textOf (lexemes text.toList)) = lexemes text.toList := by rw [htext]
  refine ⟨spelled file 0 (lexemes text.toList), ?_, fun t ht => ?_, spelled_pairwise hlexemes, fun herrors => ?_⟩
  · rw [read, tokensAt_eq, htext, Nat.zero_add]
  · obtain ⟨front, pre, behind, l, hall, hspan, hne, halone, htoken, hend⟩ :=
      @spelled_place file [] _ hlexemes t ht
    rw [List.nil_append, htext] at hall
    have hwidth : (⟨file, Text.width front, Text.width front + Text.width pre⟩ : Span).stop -
        (⟨file, Text.width front, Text.width front + Text.width pre⟩ : Span).start = Text.width pre := by simp
    have hpre : l.text = pre := by
      have hpieces := lexemes_text pre
      rwa [halone, List.flatMap_singleton] at hpieces
    rw [hspan, hwidth]
    refine ⟨hend, rfl, Nat.lt_add_of_pos_right (width_pos hne), ?_, pre, ?_, fun other => ?_⟩
    · rw [hall, Text.width_append, Text.width_append]
      exact Nat.add_le_add_left (Nat.le_add_right _ _) _
    · rw [hall]
      exact slice?_middle _ _ _
    · rw [read, String.toList_ofList, halone]
      simp only [tokensAt, htoken, Lexeme.width, hpre, Nat.zero_add]
  · have hacc := (accepted_iff file text).mp herrors
    have hgaps := gaps_trivia file [] hlexemes hacc
    rwa [List.nil_append, htext] at hgaps

/-- Comments inside a comment, one at the end of a line, and a string. -/
theorem read_lossless_comments : ∃ ts,
    (read 0 "/* a /* b */ */ x // é\n\"ü\" 1.5e3").tokens = ts ++ [⟨.endOfInput, ⟨0, 34, 34⟩⟩] ∧
      (∀ t ∈ ts, t.span.start < t.span.stop ∧ t.span.stop ≤ 34) ∧
      (ts.Pairwise fun a b => a.span.stop ≤ b.span.start) ∧
      ∀ g ∈ gaps 0 (read 0 "/* a /* b */ */ x // é\n\"ü\" 1.5e3").tokens, ∃ cs,
        Text.slice? g.1 g.2 "/* a /* b */ */ x // é\n\"ü\" 1.5e3".toList = some cs ∧ Trivia cs := by
  obtain ⟨ts, htokens, hts, horder, hgaps⟩ := read_lossless 0 "/* a /* b */ */ x // é\n\"ü\" 1.5e3"
  have hwidth : Text.width "/* a /* b */ */ x // é\n\"ü\" 1.5e3".toList = 34 := by decide +kernel
  rw [hwidth] at htokens hts
  exact ⟨ts, htokens, fun t ht => ⟨(hts t ht).2.2.1, (hts t ht).2.2.2.1⟩, horder, hgaps (by decide +kernel)⟩

end Ferrite.Lexer
