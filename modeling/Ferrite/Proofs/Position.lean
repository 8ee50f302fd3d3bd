import Mathlib
import Ferrite.Source

/-!
Lines and columns. The search in the index of the lines finds what counting the line feeds in front of
an offset gives, also beyond the end of the text.
-/

namespace Ferrite

/-! ## Bytes -/

namespace Text

/-- The text in UTF-8. -/
def bytes (cs : List Char) : List UInt8 := cs.flatMap String.utf8EncodeChar

/-- The byte of a line feed. -/
def newline : UInt8 := 0x0a

@[simp] theorem bytes_cons (c : Char) (cs : List Char) :
    bytes (c :: cs) = String.utf8EncodeChar c ++ bytes cs := rfl

@[simp] theorem bytes_append (a b : List Char) : bytes (a ++ b) = bytes a ++ bytes b := List.flatMap_append

@[simp] theorem length_bytes (cs : List Char) : (bytes cs).length = width cs := by
  induction cs with
  | nil => rfl
  | cons c cs ih => rw [bytes_cons, List.length_append, String.length_utf8EncodeChar, ih, width_cons]

theorem bytes_toList (text : String) : text.toUTF8.data.toList = bytes text.toList := by
  obtain ⟨cs, rfl⟩ : ∃ cs, text = String.ofList cs := ⟨text.toList, String.ofList_toList.symm⟩
  rw [String.toList_ofList]
  change (String.ofList cs).toByteArray.data.toList = _
  rw [String.toByteArray_ofList, List.utf8Encode, List.data_toByteArray]
  rfl

theorem width_toList (text : String) : width text.toList = text.utf8ByteSize := by
  rw [← length_bytes, ← bytes_toList]
  rfl

theorem newline_ne {n : Nat} (h : n % 256 ≠ 10) : newline ≠ UInt8.ofNat n := by
  intro heq
  have hnat := congrArg UInt8.toNat heq
  rw [UInt8.toNat_ofNat'] at hnat
  exact h hnat.symm

/-- Only a line feed has the byte of one. -/
theorem count_newline_char (c : Char) :
    (String.utf8EncodeChar c).count newline = if c = '\n' then 1 else 0 := by
  split
  · rename_i h
    subst h
    decide
  · rename_i h
    have hval : c.val.toNat ≠ 10 := fun heq => h (Char.toNat_inj.mp heq)
    rw [List.count_eq_zero]
    unfold String.utf8EncodeChar
    dsimp only
    -- all bytes of a longer character have their highest bit
    split
    · simp only [List.mem_singleton]
      exact newline_ne (by omega)
    split
    · simp only [List.mem_cons, List.not_mem_nil, or_false, not_or]
      exact ⟨newline_ne (by omega), newline_ne (by omega)⟩
    split
    · simp only [List.mem_cons, List.not_mem_nil, or_false, not_or]
      exact ⟨newline_ne (by omega), newline_ne (by omega), newline_ne (by omega)⟩
    · simp only [List.mem_cons, List.not_mem_nil, or_false, not_or]
      exact ⟨newline_ne (by omega), newline_ne (by omega), newline_ne (by omega), newline_ne (by omega)⟩

theorem count_newline (cs : List Char) : (bytes cs).count newline = cs.count '\n' := by
  induction cs with
  | nil => rfl
  | cons c cs ih =>
    rw [bytes_cons, List.count_append, ih, count_newline_char, List.count_cons, Nat.add_comm]
    simp

end Text

/-! ## Lines -/

/-- The text is made of what stands before a line, of the line, and of what stands behind it. -/
structure IsLine (cs : List Char) (i : Nat) (pre line post : List Char) : Prop where
  text : cs = pre ++ (line ++ post)
  number : pre.count '\n' = i
  inner : '\n' ∉ line
  starts : pre = [] ∨ pre.getLast? = some '\n'
  ends : post = [] ∨ post.head? = some '\n'

/-- A text up to its first line feed, and what stands behind that. -/
theorem splitLine (cs : List Char) : ∃ line post, cs = line ++ post ∧ '\n' ∉ line ∧
    (post = [] ∨ post.head? = some '\n') := by
  refine ⟨cs.takeWhile (· ≠ '\n'), cs.dropWhile (· ≠ '\n'), List.takeWhile_append_dropWhile.symm, ?_, ?_⟩
  · intro hmem
    simpa using List.mem_takeWhile_imp hmem
  · have hnot := List.head?_dropWhile_not (· ≠ '\n') cs
    cases hdrop : cs.dropWhile (· ≠ '\n') with
    | nil => exact .inl rfl
    | cons c r =>
      rw [hdrop] at hnot
      right
      simpa using hnot

theorem exists_line {cs : List Char} {i : Nat} (h : i ≤ cs.count '\n') :
    ∃ pre line post, IsLine cs i pre line post := by
  induction i generalizing cs with
  | zero =>
    obtain ⟨line, post, rfl, hline, hpost⟩ := splitLine cs
    exact ⟨[], line, post, rfl, rfl, hline, .inl rfl, hpost⟩
  | succ i ih =>
    obtain ⟨front, back, rfl, hfront, hback⟩ := splitLine cs
    rw [List.count_append, List.count_eq_zero.mpr hfront, Nat.zero_add] at h
    rcases hback with rfl | hback
    · simp at h
    obtain ⟨back, rfl⟩ := List.head?_eq_some_iff.mp hback
    rw [List.count_cons_self] at h
    obtain ⟨pre, line, post, hline⟩ := ih (Nat.le_of_succ_le_succ h)
    refine ⟨front ++ '\n' :: pre, line, post, by rw [hline.text]; simp, ?_, hline.inner, .inr ?_, hline.ends⟩
    · simp [List.count_append, List.count_eq_zero.mpr hfront, hline.number]
    · rcases hline.starts with rfl | hlast
      · simp
      · simp [List.getLast?_append, List.getLast?_cons, hlast]

theorem lineBreaks_append (offset : Nat) (a b : List Char) :
    lineBreaks offset (a ++ b) = lineBreaks offset a ++ lineBreaks (offset + Text.width a) b := by
  induction a generalizing offset with
  | nil => rfl
  | cons c a ih =>
    simp only [List.cons_append, lineBreaks, ih, Text.width_cons, Nat.add_assoc]
    split <;> rfl

theorem length_lineBreaks (offset : Nat) (cs : List Char) : (lineBreaks offset cs).length = cs.count '\n' := by
  induction cs generalizing offset with
  | nil => rfl
  | cons c cs ih =>
    rw [lineBreaks, List.count_cons]
    split <;> simp [*]

theorem lineBreaks_line {line : List Char} (h : '\n' ∉ line) (offset : Nat) : lineBreaks offset line = [] := by
  rw [← List.length_eq_zero_iff, length_lineBreaks, List.count_eq_zero]
  exact h

theorem length_splitOn (cs : List Char) : (cs.splitOn '\n').length = cs.count '\n' + 1 := by
  induction cs with
  | nil => rfl
  | cons c cs ih =>
    rw [List.splitOn_cons_eq_if_modifyHead, List.count_cons]
    split <;> simp [*]

theorem lineStarts_toList (text : String) : (lineStarts text).toList = 0 :: lineBreaks 0 text.toList := rfl

namespace IsLine

variable {cs pre line post : List Char} {i : Nat}

/-- The line is that one among the parts between the line feeds. -/
theorem splitOn (h : IsLine cs i pre line post) : (cs.splitOn '\n')[i]? = some line := by
  have hfirst : ((line ++ post).splitOn '\n')[0]? = some line := by
    rcases h.ends with rfl | hhead
    · rw [List.append_nil, List.splitOn_eq_singleton h.inner]
      rfl
    · obtain ⟨post, rfl⟩ := List.head?_eq_some_iff.mp hhead
      rw [List.splitOn_append_cons_self_of_not_mem h.inner]
      rfl
  rcases h.starts with rfl | hlast
  · rw [← h.number, h.text]
    exact hfirst
  · obtain ⟨front, rfl⟩ := List.getLast?_eq_some_iff.mp hlast
    have hnumber := h.number
    rw [List.count_append, List.count_singleton_self, ← length_splitOn] at hnumber
    rw [h.text, List.append_assoc, List.singleton_append, List.splitOn_append_cons_self, ← hnumber,
      List.getElem?_append_right (Nat.le_refl _), Nat.sub_self]
    exact hfirst

/-- The index of the lines has the offset at which the line starts. -/
theorem start (h : IsLine cs i pre line post) : (0 :: lineBreaks 0 cs)[i]? = some (Text.width pre) := by
  rcases h.starts with rfl | hlast
  · rw [← h.number]
    rfl
  · obtain ⟨front, rfl⟩ := List.getLast?_eq_some_iff.mp hlast
    have hnumber := h.number
    rw [List.count_append, List.count_singleton_self] at hnumber
    have hlength := length_lineBreaks 0 front
    have hpre : lineBreaks 0 (front ++ ['\n']) = lineBreaks 0 front ++ [Text.width (front ++ ['\n'])] := by
      rw [lineBreaks_append, Text.width_append]
      simp [lineBreaks]
    rw [h.text, lineBreaks_append, hpre, ← hnumber, List.getElem?_cons_succ, ← hlength]
    simp

/-- Behind it comes the start of the next line, if there is one. -/
theorem next (h : IsLine cs i pre line post) :
    (0 :: lineBreaks 0 cs)[i + 1]? = post.head?.map fun _ => Text.width pre + Text.width line + 1 := by
  have hlength := length_lineBreaks 0 pre
  rw [h.number] at hlength
  rw [List.getElem?_cons_succ, h.text, lineBreaks_append, lineBreaks_append, lineBreaks_line h.inner,
    List.nil_append, List.getElem?_append_right (Nat.le_of_eq hlength), hlength, Nat.sub_self, Nat.zero_add]
  rcases h.ends with rfl | hhead
  · rfl
  · obtain ⟨post, rfl⟩ := List.head?_eq_some_iff.mp hhead
    rfl

/-- An offset in the line, or behind it at the end of the text. -/
def Holds (pre line post : List Char) (n : Nat) : Prop :=
  Text.width pre ≤ n ∧ (post ≠ [] → n ≤ Text.width pre + Text.width line)

theorem newline_not_mem (h : IsLine cs i pre line post) {n : Nat} (hn : Holds pre line post n) :
    Text.newline ∉ (Text.bytes (line ++ post)).take (n - Text.width pre) := by
  have hline : Text.newline ∉ Text.bytes line := by
    rw [← List.count_eq_zero, Text.count_newline, List.count_eq_zero]
    exact h.inner
  intro hmem
  refine hline (List.mem_of_mem_take (i := n - Text.width pre) ?_)
  by_cases hpost : post = []
  · rwa [hpost, List.append_nil] at hmem
  · have hle := hn.2 hpost
    rwa [Text.bytes_append, List.take_append_of_le_length (by rw [Text.length_bytes]; omega)] at hmem

/-- In front of the offset there are as many line feeds as lines in front of its own. -/
theorem count_take (h : IsLine cs i pre line post) {n : Nat} (hn : Holds pre line post n) :
    ((Text.bytes cs).take n).count Text.newline = i := by
  rw [h.text, Text.bytes_append, List.take_append, List.count_append, Text.length_bytes,
    List.count_eq_zero.mpr (h.newline_not_mem hn), List.take_of_length_le (by rw [Text.length_bytes]; exact hn.1),
    Text.count_newline, h.number]
  rfl

theorem getElem?_ne (h : IsLine cs i pre line post) {n j : Nat} (hn : Holds pre line post n)
    (hj : Text.width pre ≤ j) (hlt : j < n) : (Text.bytes cs)[j]? ≠ some Text.newline := by
  rw [h.text, Text.bytes_append, List.getElem?_append_right (by rwa [Text.length_bytes]), Text.length_bytes]
  intro heq
  refine h.newline_not_mem hn (List.mem_of_getElem? (i := j - Text.width pre) ?_)
  rwa [List.getElem?_take_of_lt (by omega)]

theorem opens (h : IsLine cs i pre line post) :
    Text.width pre = 0 ∨ (Text.bytes cs)[Text.width pre - 1]? = some Text.newline := by
  rcases h.starts with rfl | hlast
  · exact .inl rfl
  · right
    obtain ⟨front, rfl⟩ := List.getLast?_eq_some_iff.mp hlast
    have hwidth : Text.width (front ++ ['\n']) - 1 = (Text.bytes front).length := by
      rw [Text.width_append, Text.length_bytes]
      exact Nat.add_sub_cancel _ 1
    rw [h.text, hwidth, Text.bytes_append, Text.bytes_append, List.append_assoc,
      List.getElem?_append_right (Nat.le_refl _), Nat.sub_self]
    rfl

theorem slice? (h : IsLine cs i pre line post) :
    Text.slice? (Text.width pre) (Text.width pre + Text.width line) cs = some line := by
  rw [h.text, Text.slice?, if_neg (by omega), Nat.add_sub_cancel_left]
  simp [Text.cut?_width]

end IsLine

/-! ## The search -/

/-- On an earlier line, or on one line in an earlier column. -/
def Position.Before (p q : Position) : Prop := p.line < q.line ∨ p.line = q.line ∧ p.column < q.column

namespace Source

/-- The search keeps an entry that is not beyond the one sought in front, and one beyond it behind. -/
theorem lastAtMost_spec {starts : Array Nat} {x lo hi : Nat} (hlt : lo < hi) (hhi : hi ≤ starts.size)
    (hlo : starts.getD lo 0 ≤ x) (hbehind : ∀ y ∈ starts[hi]?, x < y) :
    lastAtMost starts x lo hi < starts.size ∧ starts.getD (lastAtMost starts x lo hi) 0 ≤ x ∧
      ∀ y ∈ starts[lastAtMost starts x lo hi + 1]?, x < y := by
  fun_induction lastAtMost starts x lo hi with
  | case1 lo hi hstop =>
    obtain rfl : hi = lo + 1 := by omega
    exact ⟨hhi, hlo, hbehind⟩
  | case2 lo hi hgo mid hmid ih => exact ih (by omega) hhi hmid hbehind
  | case3 lo hi hgo mid hmid ih =>
    refine ih (by omega) (by omega) hlo fun y hy => ?_
    rw [Array.getD_eq_getD_getElem?, Option.mem_def.mp hy] at hmid
    exact Nat.not_le.mp hmid

theorem starts_toList (s : Source) : s.starts.toList = 0 :: lineBreaks 0 s.text.toList := by
  rw [s.starts_eq, lineStarts_toList]

theorem starts_getElem? (s : Source) (i : Nat) : s.starts[i]? = (0 :: lineBreaks 0 s.text.toList)[i]? := by
  rw [← starts_toList, Array.getElem?_toList]

/-- The line that the search finds is the one in which the offset lies. -/
theorem lineIndex_spec (s : Source) (offset : Nat) :
    ∃ pre line post, IsLine s.text.toList (s.lineIndex offset) pre line post ∧
      IsLine.Holds pre line post offset := by
  have hsize : s.starts.size = s.text.toList.count '\n' + 1 := by
    rw [← Array.length_toList, starts_toList, List.length_cons, length_lineBreaks]
  have hfirst : s.starts.getD 0 0 = 0 := by
    rw [Array.getD_eq_getD_getElem?, starts_getElem?]
    rfl
  have hpos : 0 < s.starts.size := by omega
  obtain ⟨hlt, hle, hbehind⟩ := lastAtMost_spec hpos (Nat.le_refl _)
    (show s.starts.getD 0 0 ≤ offset by rw [hfirst]; exact Nat.zero_le _) (by simp)
  have hcount : s.lineIndex offset ≤ s.text.toList.count '\n' :=
    Nat.le_of_lt_succ (Nat.lt_of_lt_of_eq hlt hsize)
  obtain ⟨pre, line, post, hline⟩ := exists_line hcount
  refine ⟨pre, line, post, hline, ?_, fun hpost => ?_⟩
  · change s.starts.getD (s.lineIndex offset) 0 ≤ offset at hle
    rw [Array.getD_eq_getD_getElem?, starts_getElem?, hline.start] at hle
    exact hle
  · obtain ⟨c, post, rfl⟩ := List.exists_cons_of_ne_nil hpost
    exact Nat.le_of_lt_succ (hbehind _ (by
      change _ ∈ s.starts[s.lineIndex offset + 1]?
      rw [starts_getElem?, hline.next]
      rfl))

theorem count_take (s : Source) (offset : Nat) :
    (s.text.toUTF8.data.toList.take offset).count Text.newline = s.lineIndex offset := by
  obtain ⟨pre, line, post, hline, hholds⟩ := s.lineIndex_spec offset
  rw [Text.bytes_toList]
  exact hline.count_take hholds

/-- No other line holds the offset. -/
theorem lineIndex_eq (s : Source) {pre line post : List Char} {i offset : Nat}
    (h : IsLine s.text.toList i pre line post) (hn : IsLine.Holds pre line post offset) :
    s.lineIndex offset = i := by
  rw [← s.count_take offset, Text.bytes_toList]
  exact h.count_take hn

/-- The line of an index at which a start stands. -/
theorem exists_line_of_start (s : Source) {i start : Nat} (h : s.starts[i]? = some start) :
    ∃ pre line post, IsLine s.text.toList i pre line post ∧ Text.width pre = start := by
  obtain ⟨hlt, -⟩ := Array.getElem?_eq_some_iff.mp h
  rw [← Array.length_toList, starts_toList, List.length_cons, length_lineBreaks] at hlt
  obtain ⟨pre, line, post, hline⟩ := exists_line (Nat.le_of_lt_succ hlt)
  rw [starts_getElem?, hline.start] at h
  exact ⟨pre, line, post, hline, Option.some.inj h⟩

/-- What a binary search may answer about a number: where it stands, or where it would have to be
put in. -/
inductive Sought (starts : Array Nat) (x : Nat) : Except Nat Nat → Prop
  | hit {i : Nat} (here : starts[i]? = some x) : Sought starts x (.ok i)
  | miss {i : Nat} (inside : i ≤ starts.size) (before : ∀ j < i, ∀ y ∈ starts[j]?, y < x)
      (behind : ∀ j ≥ i, ∀ y ∈ starts[j]?, x < y) : Sought starts x (.error i)

/-- Where a number stands, or the place in front of the one where it would have to be put in. -/
def lastIndex : Except Nat Nat → Nat
  | .ok i => i
  | .error i => i - 1

/-- Every such search leads to the same line. -/
theorem lineIndex_eq_of_sought (s : Source) {offset : Nat} {answer : Except Nat Nat}
    (h : Sought s.starts offset answer) : s.lineIndex offset = lastIndex answer := by
  cases h with
  | hit here =>
    obtain ⟨pre, line, post, hline, rfl⟩ := s.exists_line_of_start here
    exact s.lineIndex_eq hline ⟨Nat.le_refl _, fun _ => Nat.le_add_right _ _⟩
  | @miss i inside before behind =>
    have hfirst : s.starts[0]? = some 0 := by
      rw [starts_getElem?]
      rfl
    cases i with
    | zero => exact absurd (behind 0 (Nat.le_refl _) 0 hfirst) (Nat.not_lt_zero _)
    | succ i =>
      have hstart := Array.getElem?_eq_getElem (Nat.lt_of_succ_le inside)
      obtain ⟨pre, line, post, hline, hwidth⟩ := s.exists_line_of_start hstart
      refine s.lineIndex_eq hline ⟨?_, fun hpost => ?_⟩
      · rw [hwidth]
        exact Nat.le_of_lt (before i (Nat.lt_succ_self i) _ hstart)
      · obtain ⟨c, post, rfl⟩ := List.exists_cons_of_ne_nil hpost
        exact Nat.le_of_lt_succ (behind (i + 1) (Nat.le_refl _) _ (by rw [starts_getElem?, hline.next]; rfl))

/-- A line of the text starts at `start`, and `offset` lies in it, or behind it at the end of the text. -/
structure StartsLine (bytes : List UInt8) (start offset : Nat) : Prop where
  le : start ≤ offset
  opens : start = 0 ∨ bytes[start - 1]? = some Text.newline
  inside : ∀ j, start ≤ j → j < offset → bytes[j]? ≠ some Text.newline

theorem getD_start (s : Source) {pre line post : List Char} {i : Nat} (h : IsLine s.text.toList i pre line post) :
    s.starts.getD i 0 = Text.width pre := by
  rw [Array.getD_eq_getD_getElem?, starts_getElem?, h.start]
  rfl

/-- A line ends in front of the start of the next one, or with the text. -/
theorem stop_eq (s : Source) {pre line post : List Char} {i : Nat} (h : IsLine s.text.toList i pre line post) :
    (s.starts[i + 1]?.map (· - 1)).getD s.text.utf8ByteSize = Text.width pre + Text.width line := by
  rw [starts_getElem?, h.next]
  cases post with
  | nil =>
    have htext := congrArg Text.width h.text
    rw [Text.width_toList, Text.width_append, Text.width_append] at htext
    exact htext
  | cons c post => rfl

theorem lineText_eq (s : Source) {pre line post : List Char} {offset : Nat}
    (h : IsLine s.text.toList (s.lineIndex offset) pre line post) :
    s.lineText offset = String.ofList (line.rdropWhile (· = '\r')) := by
  have hstop := s.stop_eq h
  simp only [lineText, s.getD_start h]
  split
  · rename_i next hnext
    rw [hnext, Option.map_some, Option.getD_some] at hstop
    rw [hstop, h.slice?]
    rfl
  · rename_i hnext
    rw [hnext, Option.map_none, Option.getD_none] at hstop
    rw [hstop, h.slice?]
    rfl

theorem position_eq (s : Source) {pre line post : List Char} {offset : Nat}
    (h : IsLine s.text.toList (s.lineIndex offset) pre line post) :
    s.position offset = ⟨s.lineIndex offset + 1, offset - Text.width pre + 1⟩ := by
  rw [position, s.getD_start h]

theorem position_before (s : Source) {offset later : Nat} (h : offset < later) :
    (s.position offset).Before (s.position later) := by
  have hline : s.lineIndex offset ≤ s.lineIndex later := by
    rw [← s.count_take, ← s.count_take]
    exact (List.take_sublist_take_left (Nat.le_of_lt h)).count_le Text.newline
  obtain hline | hline := Nat.lt_or_eq_of_le hline
  · exact .inl (Nat.succ_lt_succ hline)
  · obtain ⟨pre, line, post, his, hholds⟩ := s.lineIndex_spec offset
    have hstart : Text.width pre ≤ offset := hholds.1
    rw [Position.Before, s.position_eq his, s.position_eq (hline ▸ his)]
    exact .inr ⟨congrArg (· + 1) hline, by dsimp only; omega⟩

theorem position_injective (s : Source) : Function.Injective s.position := by
  intro offset later heq
  have hirrefl : ∀ p : Position, ¬ p.Before p := fun p h => h.elim (Nat.lt_irrefl _) fun h => Nat.lt_irrefl _ h.2
  obtain h | h | h := Nat.lt_trichotomy offset later
  · exact absurd (heq ▸ s.position_before h) (hirrefl _)
  · exact h
  · exact absurd (heq ▸ s.position_before h) (hirrefl _)

/-- The line is one more than the line feeds in front of the offset and the column one more than the
bytes since the start of that line, whatever binary search looks it up; positions grow with the offset;
and the text of the line is that part of the text between its line feeds, less the carriage returns at
its end. -/
theorem position_counts (s : Source) :
    (∀ offset, ∃ start line,
      StartsLine s.text.toUTF8.data.toList start offset ∧
      s.starts[s.lineIndex offset]? = some start ∧
      s.position offset =
        ⟨(s.text.toUTF8.data.toList.take offset).count Text.newline + 1, offset - start + 1⟩ ∧
      (s.text.toList.splitOn '\n')[(s.text.toUTF8.data.toList.take offset).count Text.newline]? = some line ∧
      Text.slice? start ((s.starts[s.lineIndex offset + 1]?.map (· - 1)).getD s.text.utf8ByteSize)
        s.text.toList = some line ∧
      s.lineText offset = String.ofList (line.rdropWhile (· = '\r'))) ∧
    (∀ offset answer, Sought s.starts offset answer → s.lineIndex offset = lastIndex answer) ∧
    (∀ offset later, offset < later → (s.position offset).Before (s.position later)) ∧
    Function.Injective s.position ∧
    (∀ offset, (s.position offset).line ≤ offset + 1 ∧ (s.position offset).column ≤ offset + 1) ∧
    ∀ start ∈ s.starts, start ≤ s.text.utf8ByteSize := by
  refine ⟨fun offset => ?_, fun _ _ => s.lineIndex_eq_of_sought, fun _ _ => s.position_before,
    s.position_injective, fun offset => ⟨?_, ?_⟩, fun start hstart => ?_⟩
  · obtain ⟨pre, line, post, hline, hholds⟩ := s.lineIndex_spec offset
    refine ⟨Text.width pre, line, ⟨hholds.1, ?_, ?_⟩, ?_, ?_, ?_, ?_, s.lineText_eq hline⟩
    · rw [Text.bytes_toList]
      exact hline.opens
    · intro j
      rw [Text.bytes_toList]
      exact hline.getElem?_ne hholds
    · rw [starts_getElem?, hline.start]
    · rw [s.count_take, s.position_eq hline]
    · rw [s.count_take, hline.splitOn]
    · rw [s.stop_eq hline, hline.slice?]
  · have htake := List.length_take_le offset s.text.toUTF8.data.toList
    have hle := (List.count_le_length (a := Text.newline)).trans htake
    rw [s.count_take] at hle
    exact Nat.succ_le_succ hle
  · exact Nat.succ_le_succ (Nat.sub_le _ _)
  · obtain ⟨i, hstart⟩ := Array.mem_iff_getElem?.mp hstart
    obtain ⟨pre, line, post, hline, rfl⟩ := s.exists_line_of_start hstart
    rw [← Text.width_toList, hline.text, Text.width_append]
    exact Nat.le_add_right _ _

/-- Behind the end of a text whose last line has no line feed. -/
theorem position_counts_beyond :
    Sought (lineStarts "a\r\n\né\r\r") 100 (.error 3) ∧ 5 < 100 ∧
      (ofText "m" "a\r\n\né\r\r").position 100 = ⟨3, 97⟩ ∧
      (ofText "m" "a\r\n\né\r\r").lineText 100 = "é" ∧
      ((ofText "m" "a\r\n\né\r\r").position 5).Before ((ofText "m" "a\r\n\né\r\r").position 100) := by
  have hstarts : lineStarts "a\r\n\né\r\r" = #[0, 3, 4] := by decide
  have hsought : Sought (lineStarts "a\r\n\né\r\r") 100 (.error 3) := by
    rw [hstarts]
    refine .miss (by decide) (by decide) fun j hj y hy => ?_
    rw [Array.getElem?_eq_none hj] at hy
    cases hy
  obtain ⟨hplace, hsearch, hgrows, -⟩ := position_counts (ofText "m" "a\r\n\né\r\r")
  have hindex := hsearch 100 (.error 3) hsought
  obtain ⟨start, line, -, hstart, hposition, hline, -, htext⟩ := hplace 100
  have hcount := (ofText "m" "a\r\n\né\r\r").count_take 100
  rw [hindex] at hcount hstart
  rw [hcount] at hposition hline
  change (lineStarts "a\r\n\né\r\r")[2]? = some start at hstart
  rw [hstarts] at hstart
  obtain rfl : 4 = start := Option.some.inj hstart
  obtain rfl : ['é', '\r', '\r'] = line := Option.some.inj (by rw [← hline]; decide)
  exact ⟨hsought, by decide, hposition, htext.trans (by decide), hgrows 5 100 (by decide)⟩

end Source
end Ferrite
