import Ferrite.Proofs.Lexer.Cover
import Ferrite.Proofs.Tree.Places

/-!
The places of tokens and of mistakes in a text: both ends of each are between characters, or at the ends of
the text.
-/

namespace Ferrite

/-- So many bytes into the text no character is cut in two. -/
def Text.Boundary (cs : List Char) (n : Nat) : Prop := ∃ before behind, cs = before ++ behind ∧ n = width before

namespace Text.Boundary

variable {cs : List Char} {n : Nat}

theorem zero (cs : List Char) : Boundary cs 0 := ⟨[], cs, rfl, rfl⟩

theorem width (before behind : List Char) : Boundary (before ++ behind) (width before) := ⟨before, behind, rfl, rfl⟩

theorem finish (cs : List Char) : Boundary cs (Text.width cs) := ⟨cs, [], (List.append_nil cs).symm, rfl⟩

theorem le_width (h : Boundary cs n) : n ≤ Text.width cs := by
  obtain ⟨before, behind, rfl, rfl⟩ := h
  rw [width_append]
  exact Nat.le_add_right _ _

/-- A boundary in a piece of a text. -/
theorem piece (h : Boundary cs n) (front behind : List Char) :
    Boundary (front ++ (cs ++ behind)) (Text.width front + n) := by
  obtain ⟨a, b, rfl, rfl⟩ := h
  exact ⟨front ++ a, b ++ behind, by simp, by simp⟩

/-- At a boundary the text can be cut, and nowhere else. -/
theorem iff_cut? : Boundary cs n ↔ (cut? n cs).isSome := by
  constructor
  · rintro ⟨before, behind, rfl, rfl⟩
    rw [cut?_width]
    rfl
  · intro h
    induction cs generalizing n with
    | nil =>
      cases n with
      | zero => exact zero []
      | succ n => cases h
    | cons c cs ih =>
      cases n with
      | zero => exact zero _
      | succ n =>
        rw [cut?] at h
        split at h
        · rename_i hle
          rw [Option.isSome_map] at h
          obtain ⟨a, b, rfl, hn⟩ := ih h
          exact ⟨c :: a, b, rfl, by rw [width_cons]; omega⟩
        · cases h

instance : Decidable (Boundary cs n) := decidable_of_iff _ iff_cut?.symm

example : Boundary "aé".toList 3 ∧ ¬Boundary "aé".toList 2 := by decide

end Text.Boundary

/-- A place in a text: it begins and ends at boundaries of the text, and does not end before it begins. -/
structure Span.In (file : FileId) (text : List Char) (s : Span) : Prop where
  file : s.file = file
  ordered : s.start ≤ s.stop
  stop_le : s.stop ≤ Text.width text
  start : Text.Boundary text s.start
  stop : Text.Boundary text s.stop

namespace Span.In

variable {file : FileId} {text : List Char}

theorem of_piece {front piece behind : List Char} (h : text = front ++ (piece ++ behind)) :
    Span.In file text ⟨file, Text.width front, Text.width front + Text.width piece⟩ where
  file := rfl
  ordered := Nat.le_add_right _ _
  stop_le := (h ▸ (Text.Boundary.finish piece).piece front behind).le_width
  start := h ▸ Text.Boundary.width front _
  stop := h ▸ (Text.Boundary.finish piece).piece front behind

theorem places (file : FileId) (text : List Char) : Places (Span.In file text) where
  ordered _ h := h.ordered
  join a b ha hb := {
    file := ha.file
    ordered := Nat.le_trans (Nat.min_le_left ..) (Nat.le_trans ha.ordered (Nat.le_max_left ..))
    stop_le := Nat.max_le.mpr ⟨ha.stop_le, hb.stop_le⟩
    start := by
      show Text.Boundary text (min a.start b.start)
      rcases Nat.le_total a.start b.start with h | h
      · rw [Nat.min_eq_left h]
        exact ha.start
      · rw [Nat.min_eq_right h]
        exact hb.start
    stop := by
      show Text.Boundary text (max a.stop b.stop)
      rcases Nat.le_total a.stop b.stop with h | h
      · rw [Nat.max_eq_right h]
        exact hb.stop
      · rw [Nat.max_eq_left h]
        exact ha.stop }

end Span.In

namespace Lexer

/-! ## Mistakes in a lexeme -/

/-- The fault is about a piece of the text of its lexeme. -/
structure Fault.About (text : List Char) (f : Fault) : Prop where
  ordered : f.start ≤ f.stop
  start : Text.Boundary text f.start
  stop : Text.Boundary text f.stop

theorem Fault.about_whole (problem : Problem) (text : List Char) :
    Fault.About text ⟨problem, 0, Text.width text⟩ := ⟨Nat.zero_le _, .zero text, .finish text⟩

theorem Fault.about_front (problem : Problem) (a b : List Char) :
    Fault.About (a ++ b) ⟨problem, 0, Text.width a⟩ := ⟨Nat.zero_le _, .zero _, .width a b⟩

theorem Fault.about_back (problem : Problem) (a b : List Char) :
    Fault.About (a ++ b) ⟨problem, Text.width a, Text.width (a ++ b)⟩ :=
  ⟨(Text.Boundary.width a b).le_width, .width a b, .finish _⟩

theorem Fault.About.append {text : List Char} {f : Fault} (h : f.About text) (behind : List Char) :
    f.About (text ++ behind) where
  ordered := h.ordered
  start := by simpa using h.start.piece [] behind
  stop := by simpa using h.stop.piece [] behind

def Lexeme.Blames (l : Lexeme) : Prop := ∀ f ∈ l.faults, f.About l.text

theorem integer_blames (base : Nat) (spelled run suffix : List Char) :
    (integer base spelled run suffix).Blames := by
  have hwidth : Text.width spelled + Text.width suffix = Text.width (spelled ++ suffix) := (Text.width_append ..).symm
  intro f hf
  change f.About (spelled ++ suffix)
  simp only [integer, Lexeme.whole, hwidth, List.mem_append, List.mem_ite_nil_right, List.mem_singleton,
    Option.mem_toList, Option.map_eq_some_iff] at hf
  rcases hf with ((⟨-, rfl⟩ | ⟨-, rfl⟩) | ⟨s, -, rfl⟩) | ⟨-, rfl⟩
  · exact Fault.about_front _ _ _
  · exact Fault.about_front _ _ _
  · exact Fault.about_back _ _ _
  · exact Fault.about_whole _ _

theorem float_blames (whole rest : List Char) : (float whole rest).lexeme.Blames := by
  intro f hf
  simp only [float, Lexeme.whole, List.mem_append, List.mem_ite_nil_left, List.mem_singleton, List.mem_map] at hf ⊢
  rcases hf with ⟨-, rfl⟩ | ⟨problem, -, rfl⟩
  · exact Fault.about_back _ _ _
  · exact Fault.about_whole _ _

theorem integerWithFraction_blames (base : Nat) (spelled run rest : List Char) :
    (integerWithFraction base spelled run rest).lexeme.Blames := by
  intro f hf
  change f.About (spelled ++ [] ++ (rest.take 1 ++ (rest.drop 1).takeWhile isNamePart))
  rcases List.mem_cons.mp hf with rfl | hf
  · rw [List.append_nil, ← Text.width_append]
    exact Fault.about_back _ _ _
  · exact (integer_blames base spelled run [] f hf).append _

theorem number_blames (cs : List Char) : (number cs).lexeme.Blames := by
  simp only [number]
  split
  · exact float_blames _ _
  · split
    · exact integerWithFraction_blames _ _ _ _
    · exact integer_blames _ _ _ _

theorem blames_of_nil {l : Lexeme} (h : l.faults = []) : l.Blames := by simp [Lexeme.Blames, h]

theorem rejected_blames (text : List Char) (problem : Problem) : (Lexeme.rejected text problem).Blames := by
  intro f hf
  rw [List.mem_singleton.mp hf]
  exact Fault.about_whole _ _

theorem mark_blames (c : Char) (cs : List Char) : (mark c cs).lexeme.Blames := by
  have hsingle : (single c cs).lexeme.Blames := by
    unfold single
    split
    · exact blames_of_nil rfl
    · exact rejected_blames _ _
  unfold mark
  split
  · split
    · exact blames_of_nil rfl
    · exact hsingle
  · exact hsingle

theorem scan_blames (c : Char) (cs : List Char) : (scan c cs).lexeme.Blames := by
  unfold scan
  split
  · exact blames_of_nil rfl
  split
  · exact blames_of_nil rfl
  split
  · exact number_blames _
  split
  · unfold string
    split
    · exact blames_of_nil rfl
    · exact rejected_blames _ _
  split
  · split
    · exact blames_of_nil rfl
    · unfold comment
      split
      · exact blames_of_nil rfl
      · exact rejected_blames _ _
    · exact mark_blames _ _
  · exact mark_blames _ _

/-! ## Whole texts -/

theorem problemsAt_in (file : FileId) (before cs : List Char) :
    ∀ q ∈ problemsAt file (Text.width before) (lexemes cs), q.span.In file (before ++ cs) := by
  fun_induction lexemes cs generalizing before with
  | case1 => simp [problemsAt]
  | case2 c rest ih =>
    have hall : c :: rest = (scan c rest).lexeme.text ++ (scan c rest).rest := (scan_all c rest).symm
    intro q hq
    rcases List.mem_append.mp hq with hq | hq
    · obtain ⟨f, hf, rfl⟩ := List.mem_map.mp hq
      have habout := scan_blames c rest f hf
      rw [hall]
      exact {
        file := rfl
        ordered := Nat.add_le_add_left habout.ordered _
        stop_le := (habout.stop.piece _ _).le_width
        start := habout.start.piece _ _
        stop := habout.stop.piece _ _ }
    · have hnext := ih (before ++ (scan c rest).lexeme.text) q (by rw [Text.width_append]; exact hq)
      rwa [List.append_assoc, ← hall] at hnext

/-- Every mistake is reported at a place in the text. -/
theorem read_problems_in (file : FileId) (text : String) :
    ∀ q ∈ (read file text).problems, q.span.In file text.toList := problemsAt_in file [] text.toList

/-- Every token is at a place in the text, one behind the other. -/
theorem read_tokens_in (file : FileId) (text : String) :
    (∀ t ∈ (read file text).tokens, t.span.In file text.toList) ∧
      (read file text).tokens.Pairwise fun t u => t.span.stop ≤ u.span.start := by
  have htext : textOf (lexemes text.toList) = text.toList := lexemes_text _
  have hlexemes : lexemes (textOf (lexemes text.toList)) = lexemes text.toList := by rw [htext]
  have hspelled : ∀ t ∈ spelled file 0 (lexemes text.toList), t.span.In file text.toList := by
    intro t ht
    obtain ⟨front, pre, behind, -, hall, hspan, -⟩ := @spelled_place file [] _ hlexemes t ht
    rw [List.nil_append, htext] at hall
    rw [hspan]
    exact .of_piece hall
  have hend : Span.In file text.toList ⟨file, Text.width text.toList, Text.width text.toList⟩ :=
    ⟨rfl, Nat.le_refl _, Nat.le_refl _, .finish _, .finish _⟩
  rw [read, tokensAt_eq, htext, Nat.zero_add]
  refine ⟨fun t ht => ?_, List.pairwise_append.mpr ⟨spelled_pairwise hlexemes, List.pairwise_singleton _ _, ?_⟩⟩
  · rcases List.mem_append.mp ht with ht | ht
    · exact hspelled t ht
    · rw [List.mem_singleton.mp ht]
      exact hend
  · intro a ha b hb
    rw [List.mem_singleton.mp hb]
    exact (hspelled a ha).stop_le

end Lexer
end Ferrite
