import Ferrite.Proofs.Lexer.Integer
import Ferrite.Proofs.Lexer.Written
import Ferrite.Tree.Printer

/-!
How printed words are read back. A text says its words whatever stands behind it, as long as that is
set apart from it.
-/

namespace Ferrite.Lexer

/-- A blank, or a mark that prolongs no word and no other mark. -/
def Apart (r : List Char) : Prop := ∀ d ∈ r.head?, d ∈ [' ', '\n', ',', ';', ':', '(', ')']

theorem apart_nil : Apart [] := by simp [Apart]

theorem apart_cons {d : Char} (h : d ∈ [' ', '\n', ',', ';', ':', '(', ')']) (r : List Char) : Apart (d :: r) := by
  rintro _ ⟨rfl⟩
  exact h

theorem Apart.append {a b : List Char} (ha : Apart a) (hb : Apart b) : Apart (a ++ b) := by
  cases a with
  | nil => exact hb
  | cons d a => exact ha

theorem Apart.quiet {r : List Char} (h : Apart r) : Quiet r := by
  intro d hd
  have hmem := h d hd
  simp only [List.mem_cons, List.not_mem_nil, or_false] at hmem
  rcases hmem with rfl | rfl | rfl | rfl | rfl | rfl | rfl <;> decide

/-- The character could make one mark with a sign in front of it. -/
def Prolongs (c : Char) : Prop := c = '=' ∨ c = '>'

theorem pair?_sign {c d : Char} (hc : c = '-' ∨ c = '!') (hd : ¬Prolongs d) : pair? c d = none := by
  rw [Prolongs, not_or] at hd
  rcases hc with rfl | rfl
  · unfold pair?
    split <;> simp_all
  · unfold pair?
    split <;> simp_all

def Lexeme.terminal? (l : Lexeme) : Option Terminal := l.token?.map Prod.fst

/-- The text is read as the words, without a problem. -/
def Says (cs : List Char) (ws : List Terminal) : Prop :=
  ∀ r, Apart r → ∃ ls, lexemes (cs ++ r) = ls ++ lexemes r ∧ (∀ l ∈ ls, l.faults = []) ∧
    ls.filterMap Lexeme.terminal? = ws

namespace Says

theorem nil : Says [] [] := fun _ _ => ⟨[], rfl, by simp, rfl⟩

/-- A lexeme of one character, in front of more. -/
theorem cons {c : Char} {b : List Char} {l : Lexeme} {vs : List Terminal}
    (hscan : ∀ r, Apart r → scan c (b ++ r) = ⟨l, b ++ r⟩) (hfaults : l.faults = []) (h : Says b vs) :
    Says (c :: b) (l.terminal?.toList ++ vs) := by
  intro r hr
  obtain ⟨ls, hls, hclean, hvs⟩ := h r hr
  refine ⟨l :: ls, ?_, List.forall_mem_cons.mpr ⟨hfaults, hclean⟩, ?_⟩
  · rw [List.cons_append, lexemes, hscan r hr, hls, List.cons_append]
  · rw [← hvs, List.filterMap_cons]
    cases l.terminal? <;> rfl

/-- A lexeme by itself. -/
theorem one {c : Char} {t : List Char} {l : Lexeme} {w : Terminal}
    (hscan : ∀ r, Apart r → scan c (t ++ r) = ⟨l, r⟩) (hfaults : l.faults = []) (hterminal : l.terminal? = some w) :
    Says (c :: t) [w] := by
  intro r hr
  refine ⟨[l], ?_, by simp [hfaults], by simp [hterminal]⟩
  rw [List.cons_append, lexemes, hscan r hr]
  rfl

theorem append {a b : List Char} {ws vs : List Terminal} (h : Says a ws) (hb : Apart b) (h' : Says b vs) :
    Says (a ++ b) (ws ++ vs) := by
  intro r hr
  obtain ⟨ls, hls, hclean, hws⟩ := h (b ++ r) (hb.append hr)
  obtain ⟨ms, hms, hclean', hvs⟩ := h' r hr
  refine ⟨ls ++ ms, ?_, List.forall_mem_append.mpr ⟨hclean, hclean'⟩, ?_⟩
  · rw [List.append_assoc, hls, hms, List.append_assoc]
  · rw [List.filterMap_append, hws, hvs]

theorem blank {c : Char} {b : List Char} {vs : List Terminal} (hc : isBlank c = true) (h : Says b vs) :
    Says (c :: b) vs :=
  cons (l := .skipped [c]) (fun _ _ => scan_blank hc _) rfl h

theorem spaced {a b : List Char} {ws vs : List Terminal} (h : Says a ws) (h' : Says b vs) :
    Says (a ++ ' ' :: b) (ws ++ vs) :=
  h.append (apart_cons (by simp) b) (.blank rfl h')

/-- A mark that prolongs nothing and that nothing prolongs. -/
theorem mark {c : Char} {p : Punct} {b : List Char} {vs : List Terminal} (hc : single? c = some p)
    (hplain : c ∈ ['(', ')', ',', ';', ':', '\x7b', '\x7d']) (h : Says b vs) : Says (c :: b) (.punct p :: vs) := by
  have hscan : ∀ r, scan c r = single c r := by
    intro cs
    simp only [List.mem_cons, List.not_mem_nil, or_false] at hplain
    rcases hplain with rfl | rfl | rfl | rfl | rfl | rfl | rfl <;> cases cs <;> rfl
  refine cons (l := .whole [c] (.punct p)) (fun _ _ => ?_) rfl h
  rw [hscan, single, hc]

/-- A sign in front of a text that does not prolong it. -/
theorem sign {c : Char} {p : Punct} {b : List Char} {vs : List Terminal} (hc : c = '-' ∨ c = '!')
    (hp : single? c = some p) (hb : ∀ d ∈ b.head?, ¬Prolongs d) (h : Says b vs) : Says (c :: b) (.punct p :: vs) := by
  refine cons (l := .whole [c] (.punct p)) (fun r hr => ?_) rfl h
  have hscan : ∀ cs, scan c cs = Lexer.mark c cs := by rcases hc with rfl | rfl <;> exact fun _ => rfl
  have hsingle : ∀ cs, single c cs = ⟨.whole [c] (.punct p), cs⟩ := by
    intro cs
    rw [single, hp]
  rw [hscan]
  unfold Lexer.mark
  split
  · rename_i d cs hcs
    have hd : ¬Prolongs d := by
      cases b with
      | nil =>
        have hmem := hr d (by rw [List.nil_append] at hcs; rw [hcs]; rfl)
        rintro (rfl | rfl) <;> simp at hmem
      | cons e b =>
        cases hcs
        exact hb d rfl
    rw [pair?_sign hc hd]
    exact hsingle _
  · exact hsingle _

/-- A mark that is set apart from what stands behind it. -/
theorem punct (p : Punct) : Says p.spelling.toList [.punct p] := by
  obtain ⟨c, t, hspelling, hscan⟩ : ∃ c t, p.spelling.toList = c :: t ∧
      ∀ d ∈ [' ', '\n', ',', ';', ':', '(', ')'], scan c (t ++ [d]) = ⟨.whole (c :: t) (.punct p), [d]⟩ := by
    cases p <;>
      (refine ⟨_, _, String.toList_ofList, fun d hd => ?_⟩
       simp only [List.mem_cons, List.not_mem_nil, or_false] at hd
       rcases hd with rfl | rfl | rfl | rfl | rfl | rfl | rfl <;> rfl)
  rw [hspelling]
  refine one (l := .whole (c :: t) (.punct p)) (fun r hr => ?_) rfl rfl
  -- one character behind the mark settles it
  obtain ⟨d, hd, hcontinues⟩ : ∃ d ∈ [' ', '\n', ',', ';', ':', '(', ')'], Continues [d] r := by
    cases r with
    | nil => exact ⟨' ', by simp, .inl rfl⟩
    | cons d s => exact ⟨d, hr d rfl, .inr rfl⟩
  have hagain := scan_before (c := c) (t := t) (r := [d]) (by rw [hscan d hd]; simp [Lexeme.Accepted, Lexeme.whole])
    (by rw [hscan d hd]; rfl) hcontinues fun hdot => by have := hr _ hdot; simp at this
  rwa [hscan d hd] at hagain

theorem word {cs : List Char} (h : IsWord cs) : Says cs [wordTerminal (String.ofList cs)] := by
  obtain ⟨c, rest, rfl, hc, hrest⟩ := h
  refine one (l := .whole (c :: rest) (wordTerminal (String.ofList (c :: rest)))) (fun r hr => ?_) rfl rfl
  obtain ⟨htake, hdrop⟩ := takeWhile_append_stop hrest hr.quiet.not_name
  rw [scan_word hc, Lexer.word, htake, hdrop]

theorem name {text : String} (h : IsName text) : Says text.toList [.name text] := by
  have hword := word h.isWord
  rwa [String.ofList_toList, h.terminal] at hword

theorem keyword (k : Keyword) : Says k.spelling.toList [.keyword k] := by
  have hword : IsWord k.spelling.toList := by
    cases k <;> exact ⟨_, _, rfl, rfl, List.all_eq_true.mp rfl⟩
  have hterminal : wordTerminal k.spelling = .keyword k := by cases k <;> rfl
  have hsays := word hword
  rwa [String.ofList_toList, hterminal] at hsays

/-- A string is printed as it stands in the text. -/
theorem string {s : String} (h : (Literal.text s).Written) :
    Says ("\"" ++ s ++ "\"").toList [.literal (.text s)] := by
  have htext : ("\"" ++ s ++ "\"").toList = '\x22' :: (s.toList ++ ['\x22']) := by
    simp [String.toList_append]
  rw [htext]
  refine one (l := .whole ('\x22' :: (s.toList ++ ['\x22'])) (.literal (.text s))) (fun r _ => ?_) rfl rfl
  have hbody := h r
  change Lexer.string (s.toList ++ ['\x22'] ++ r) = _
  rw [List.append_assoc, List.singleton_append, Lexer.string, hbody]
  simp only [String.ofList_toList, List.cons_append]

theorem number {cs : List Char} {l : Lexeme} {w : Terminal} (hdigit : ∃ c ∈ cs.head?, c.isDigit = true)
    (hnumber : ∀ r, Quiet r → Lexer.number (cs ++ r) = ⟨l, r⟩) (hfaults : l.faults = [])
    (hterminal : l.terminal? = some w) : Says cs [w] := by
  obtain ⟨c, hc, hdigit⟩ := hdigit
  obtain ⟨t, rfl⟩ := List.head?_eq_some_iff.mp hc
  refine one (fun r hr => ?_) hfaults hterminal
  rw [scan_number hdigit]
  exact hnumber r hr.quiet

end Says

/-! ## Integers -/

theorem Says.int {t : IntTy} {bits : BitVec t.width} (h : bits.toNat ≤ t.greatest) :
    Says (Literal.int t bits).print.toList [.literal (.int t bits)] := by
  have hnonneg := toNat_le_greatest_iff.mp h
  have htext : (Literal.int t bits).print.toList = (IntegerText.shown t bits).text := display_int hnonneg
  have hinteger := IntegerText.integer_shown hnonneg
  rw [htext]
  exact .number (IntegerText.shown t bits).starts_digit (fun r hr => (IntegerText.shown t bits).number_eq hr)
    (congrArg Lexeme.faults hinteger) (congrArg Lexeme.terminal? hinteger)

/-! ## Numbers with a point -/

/-- A power is its sign, if it has one, and its digits. -/
theorem power_toList (k : Int) : ∃ d run, (toString k).toList = d :: run ∧ startsPower (d :: run) = true ∧
    (∀ c ∈ run, c.isDigit = true) ∧ (d = '-' ∨ d.isDigit = true) := by
  cases k with
  | ofNat n =>
    obtain ⟨d, run, hrun⟩ := List.exists_cons_of_ne_nil (Nat.toDigits_ne_nil (n := n) (b := 10))
    have hdigits := Decimal.isDigit_of_mem_toDigits (n := n)
    rw [hrun, List.forall_mem_cons] at hdigits
    exact ⟨d, run, (Decimal.toString_ofNat n).trans hrun, by simp [startsPower, hdigits.1], hdigits.2, .inr hdigits.1⟩
  | negSucc n =>
    obtain ⟨d, run, hrun⟩ := List.exists_cons_of_ne_nil (Nat.toDigits_ne_nil (n := n + 1) (b := 10))
    have hdigits := Decimal.isDigit_of_mem_toDigits (n := n + 1)
    rw [hrun] at hdigits
    refine ⟨'-', d :: run, (Decimal.toString_negSucc n).trans (by rw [hrun]), ?_, hdigits, .inl rfl⟩
    simp [startsPower, hdigits d List.mem_cons_self]

theorem floatSpelled {whole places : List Char} {power : Option Int} {suffix : List Char}
    (hwhole : whole ≠ []) (hdigits : ∀ c ∈ whole ++ places, c.isDigit = true) (hsome : places ≠ [] ∨ power ≠ none)
    (hsuffix : suffix = [] ∨ ∃ t : FloatTy, suffix = t.name.toList) :
    FloatSpelled whole (Decimal.pointed places) (Decimal.powered power) suffix where
  startsDigit := by
    obtain ⟨c, whole, rfl⟩ := List.exists_cons_of_ne_nil hwhole
    exact ⟨c, rfl, hdigits c List.mem_cons_self⟩
  isWhole c hc := isRun_of_isDigit c (hdigits c (List.mem_append_left _ hc))
  isPlaces := by
    cases places with
    | nil => exact .inl rfl
    | cons d places =>
      have hd : d.isDigit = true := hdigits d (by simp)
      obtain ⟨-, -, hdot, -⟩ := Decimal.not_sign_of_isDigit hd
      refine .inr ⟨?_, d :: places, rfl, fun c hc => isRun_of_isDigit c (hdigits c (List.mem_append_right _ hc))⟩
      simp [Decimal.pointed, startsPlaces, not_nameStart_of_isDigit hd, hdot]
  isPower := by
    cases power with
    | none => exact .inl rfl
    | some k =>
      obtain ⟨d, run, htext, hstarts, hrun, -⟩ := power_toList k
      have hpowered : Decimal.powered (some k) = 'e' :: d :: run := congrArg ('e' :: ·) htext
      rw [hpowered]
      exact .inr ⟨by simp [startsExponent, hstarts], 'e', d, run, rfl, fun c hc => isRun_of_isDigit c (hrun c hc)⟩
  some := by
    rcases hsome with hplaces | hpower
    · exact .inl (by simp [Decimal.pointed, hplaces])
    · obtain ⟨k, rfl⟩ := Option.ne_none_iff_exists'.mp hpower
      exact .inr (by simp [Decimal.powered])
  isSuffix := hsuffix

/-- Neither an underscore nor a capital letter stands in what is printed. -/
theorem numeralText_printed {whole places : List Char} {power : Option Int}
    (hdigits : ∀ c ∈ whole ++ places, c.isDigit = true) :
    numeralText (whole ++ Decimal.pointed places ++ Decimal.powered power) =
      whole ++ (Decimal.pointed places ++ Decimal.powered power) := by
  have hdigit : ∀ {c : Char}, c.isDigit = true → c ≠ '_' ∧ c ≠ 'E' := by
    intro c h
    constructor
    · rintro rfl
      revert h
      decide
    · rintro rfl
      revert h
      decide
  rw [List.append_assoc]
  refine numeralText_eq_self fun c hc => ?_
  rcases List.mem_append.mp hc with hc | hc
  · exact hdigit (hdigits c (List.mem_append_left _ hc))
  rcases List.mem_append.mp hc with hc | hc
  · unfold Decimal.pointed at hc
    split at hc
    · cases hc
    · rcases List.mem_cons.mp hc with rfl | hc
      · decide
      · exact hdigit (hdigits c (List.mem_append_right _ hc))
  · cases power with
    | none => cases hc
    | some k =>
      obtain ⟨d, run, htext, -, hrun, hd⟩ := power_toList k
      rw [show Decimal.powered (some k) = 'e' :: d :: run from congrArg ('e' :: ·) htext] at hc
      rcases List.mem_cons.mp hc with rfl | hc
      · decide
      rcases List.mem_cons.mp hc with rfl | hc
      · rcases hd with rfl | hd
        · decide
        · exact hdigit hd
      · exact hdigit (hrun c hc)

/-- The type behind a number with a point, which goes without saying where it is the default one. -/
def floatSuffixOf (t : FloatTy) : List Char := if t = .f64 then [] else t.name.toList

theorem print_float {t : FloatTy} {bits : BitVec t.width} (h : bits.toNat < t.format.infinity) :
    (Literal.float t bits).print.toList =
      (Decimal.Layout.literal.render t.format false bits.toNat).toList ++ floatSuffixOf t := by
  have hsign : bits.toNat < t.format.signPlace := Nat.lt_trans h (by cases t <;> decide)
  have hdisplay : Literal.floatDisplay t bits = Decimal.Layout.literal.render t.format false bits.toNat := by
    rw [Literal.floatDisplay, decide_eq_false (Nat.not_le.mpr hsign), Nat.mod_eq_of_lt hsign]
  cases t <;> simp only [Literal.print, Literal.display, String.toList_append, hdisplay] <;> simp [floatSuffixOf]

theorem Says.float {t : FloatTy} {bits : BitVec t.width} (h : bits.toNat < t.format.infinity) :
    Says (Literal.float t bits).print.toList [.literal (.float t bits)] := by
  obtain ⟨x, hwrites, hcode⟩ := Decimal.render_reads Decimal.Layout.literal t.format_moderate h
  obtain ⟨n, hn, hvalue, hcount⟩ := hwrites.ofText?
  have hread := hcode n hvalue hcount
  rw [print_float h]
  generalize (Decimal.Layout.literal.render t.format false bits.toNat).toList = cs at *
  obtain @⟨whole, places, power, hwhole, hdigits, hsome, rfl, -⟩ := hwrites
  have hsuffix : floatSuffixOf t = [] ∨ ∃ t' : FloatTy, floatSuffixOf t = t'.name.toList := by
    unfold floatSuffixOf
    split
    · exact .inl rfl
    · exact .inr ⟨t, rfl⟩
  have hspelled := floatSpelled hwhole hdigits hsome hsuffix
  have htype : (if String.ofList (floatSuffixOf t) = FloatTy.f32.name then FloatTy.f32 else .f64) = t := by
    cases t <;> rfl
  have hfloat : floatValue t (whole ++ Decimal.pointed places ++ Decimal.powered power) = (.float t bits, []) := by
    simp only [floatValue, numeralText_printed hdigits, hn, hread, BitVec.ofNat_toNat, BitVec.setWidth_eq]
  have hdecimal : decimal whole (Decimal.pointed places) (Decimal.powered power) (floatSuffixOf t) =
      .whole (whole ++ Decimal.pointed places ++ Decimal.powered power ++ floatSuffixOf t)
        (.literal (.float t bits)) := by
    simp only [decimal, htype, hfloat]
    cases t <;> rfl
  obtain ⟨c, hc, hdigit⟩ := hspelled.startsDigit
  refine .number (l := _) ⟨c, ?_, hdigit⟩ (fun r hr => ?_) (congrArg Lexeme.faults hdecimal)
    (congrArg Lexeme.terminal? hdecimal)
  · rw [List.append_assoc, List.head?_append, Option.mem_def.mp hc]
    rfl
  · have hnumber := number_float hspelled hr
    simpa only [List.append_assoc] using hnumber

theorem Says.literal {value : Literal} (h : value.Written) (hfinite : value.isFinite = true) :
    Says value.print.toList [.literal value] := by
  cases value with
  | bool b =>
    cases b
    · exact word ⟨_, _, rfl, rfl, List.all_eq_true.mp rfl⟩
    · exact word ⟨_, _, rfl, rfl, List.all_eq_true.mp rfl⟩
  | int t bits => exact .int h
  | float t bits => exact .float (of_decide_eq_true hfinite)
  | text s => exact .string h

end Ferrite.Lexer
