import Ferrite.Proofs.Decimal.Layout
import Ferrite.Proofs.Lexer.Slice

/-!
Decimal numbers. The digits of a number are passed once to see that it is a decimal one, and then read
again with what belongs to it. Both times they end at the same place, and what is read is a numeral.
-/

namespace Ferrite.Lexer

/-! ## What comes next -/

/-- Digits and underscores as far as there are any. -/
structure Run (run rest : List Char) : Prop where
  inside : ∀ c ∈ run, c.isDigit = true ∨ c = '_'
  stops : ∀ d ∈ rest.head?, d.isDigit = false ∧ d ≠ '_'

/-- A point comes next, with neither a second point nor a name behind it. -/
def PointNext (cs : List Char) : Prop :=
  ∃ r, cs = '.' :: r ∧ ∀ d ∈ r.head?, d ≠ '.' ∧ isNameStart d = false

def IsSign (sign : List Char) : Prop := sign = [] ∨ sign = ['+'] ∨ sign = ['-']

/-- The letter of an exponent comes next, with a digit behind it or behind its sign. -/
def PowerNext (cs : List Char) : Prop :=
  ∃ e sign d r, cs = e :: (sign ++ d :: r) ∧ (e = 'e' ∨ e = 'E') ∧ IsSign sign ∧ d.isDigit = true

theorem startsPlaces_iff {cs : List Char} : startsPlaces cs = true ↔ PointNext cs := by
  match cs with
  | [] => simp [startsPlaces, PointNext]
  | [c] => simp [startsPlaces, PointNext]
  | c :: d :: r => simp [startsPlaces, PointNext]

theorem startsPower_iff {cs : List Char} :
    startsPower cs = true ↔ ∃ sign d r, cs = sign ++ d :: r ∧ IsSign sign ∧ d.isDigit = true := by
  constructor
  · intro h
    match cs, h with
    | [d], h => exact ⟨[], d, [], rfl, .inl rfl, by simpa [startsPower] using h⟩
    | c :: d :: r, h =>
      rw [startsPower, Bool.or_eq_true, Bool.and_eq_true, Bool.or_eq_true, decide_eq_true_eq, decide_eq_true_eq] at h
      rcases h with hdigit | ⟨rfl | rfl, hdigit⟩
      · exact ⟨[], c, d :: r, rfl, .inl rfl, hdigit⟩
      · exact ⟨['+'], d, r, rfl, .inr (.inl rfl), hdigit⟩
      · exact ⟨['-'], d, r, rfl, .inr (.inr rfl), hdigit⟩
  · rintro ⟨sign, d, r, rfl, rfl | rfl | rfl, hdigit⟩ <;> simp [startsPower, hdigit]

theorem startsExponent_iff {cs : List Char} : startsExponent cs = true ↔ PowerNext cs := by
  cases cs with
  | nil => simp [startsExponent, PowerNext]
  | cons c cs =>
    rw [startsExponent, Bool.and_eq_true, Bool.or_eq_true, decide_eq_true_eq, decide_eq_true_eq, startsPower_iff]
    constructor
    · rintro ⟨hletter, sign, d, r, rfl, hsign, hdigit⟩
      exact ⟨c, sign, d, r, rfl, hletter, hsign, hdigit⟩
    · rintro ⟨e, sign, d, r, heq, hletter, hsign, hdigit⟩
      obtain ⟨rfl, rfl⟩ := List.cons.inj heq
      exact ⟨hletter, sign, d, r, rfl, hsign, hdigit⟩

theorem isRun_ten_iff {c : Char} : isRun 10 c = true ↔ c.isDigit = true ∨ c = '_' := by
  have hletter : c.isDigit = false → digit? 10 c = none := by
    intro hdigit
    unfold digit?
    rw [hdigit, if_neg Bool.false_ne_true]
    split
    · simp
    split
    · simp
    · rfl
  rw [isRun, Bool.or_eq_true, decide_eq_true_eq]
  refine or_congr_left ⟨fun hsome => ?_, fun hdigit => ?_⟩
  · by_contra hno
    rw [hletter (Bool.eq_false_iff.mpr hno)] at hsome
    cases hsome
  · have hrun := isRun_of_isDigit c hdigit
    rw [isRun, Bool.or_eq_true, decide_eq_true_eq] at hrun
    refine hrun.resolve_right ?_
    rintro rfl
    cases hdigit

theorem run_split (cs : List Char) : Run (cs.takeWhile (isRun 10)) (cs.dropWhile (isRun 10)) where
  inside _ hc := isRun_ten_iff.mp (List.mem_takeWhile_imp hc)
  stops d hd := by
    have hstop := head_dropWhile cs d hd
    rw [Bool.eq_false_iff, ne_eq, isRun_ten_iff, not_or, Bool.not_eq_true] at hstop
    exact hstop

/-- The point and the digits behind it, if there is a point. -/
theorem splitPlaces_spec (cs : List Char) :
    splitPlaces cs = ([], cs) ∧ ¬PointNext cs ∨
      PointNext cs ∧ ∃ run, (splitPlaces cs).1 = '.' :: run ∧ Run run (splitPlaces cs).2 := by
  rw [← startsPlaces_iff]
  by_cases hstart : startsPlaces cs = true
  · right
    obtain ⟨r, rfl, -⟩ := startsPlaces_iff.mp hstart
    refine ⟨hstart, r.takeWhile (isRun 10), ?_, ?_⟩
    · simp [splitPlaces, hstart]
    · simpa [splitPlaces, hstart] using run_split r
  · left
    exact ⟨splitPlaces_none (Bool.eq_false_iff.mpr hstart), hstart⟩

/-- The exponent with its letter and its sign, if there is one. -/
theorem splitExponent_spec (cs : List Char) :
    splitExponent cs = ([], cs) ∧ ¬PowerNext cs ∨
      ∃ e sign run, (splitExponent cs).1 = e :: (sign ++ run) ∧ (e = 'e' ∨ e = 'E') ∧ IsSign sign ∧
        (∃ d ∈ run.head?, d.isDigit = true) ∧ Run run (splitExponent cs).2 := by
  rw [← startsExponent_iff]
  by_cases hstart : startsExponent cs = true
  · right
    obtain ⟨e, sign, d, r, rfl, hletter, hsign, hdigit⟩ := startsExponent_iff.mp hstart
    have hrun := run_split (d :: r)
    have hfirst : (d :: r).takeWhile (isRun 10) = d :: r.takeWhile (isRun 10) :=
      List.takeWhile_cons_of_pos (isRun_of_isDigit d hdigit)
    have hrest : (d :: r).dropWhile (isRun 10) = r.dropWhile (isRun 10) :=
      List.dropWhile_cons_of_pos (isRun_of_isDigit d hdigit)
    have hsplit : splitExponent (e :: (sign ++ d :: r)) =
        (e :: (sign ++ (d :: r).takeWhile (isRun 10)), (d :: r).dropWhile (isRun 10)) := by
      rcases hsign with rfl | rfl | rfl
      · simp only [List.nil_append] at hstart ⊢
        rw [splitExponent, if_pos hstart, hfirst, hrest]
      · simp only [List.singleton_append] at hstart ⊢
        rw [splitExponent, if_pos hstart]
      · simp only [List.singleton_append] at hstart ⊢
        rw [splitExponent, if_pos hstart]
    rw [hsplit]
    exact ⟨e, sign, _, rfl, hletter, hsign, ⟨d, by rw [hfirst]; rfl, hdigit⟩, hrun⟩
  · left
    exact ⟨splitExponent_none (Bool.eq_false_iff.mpr hstart), hstart⟩

/-! ## How far a decimal number reaches -/

/-- The parts of a decimal number in front of `rest`, each as long as it can be. -/
structure DecimalSpelled (whole places power suffix rest : List Char) : Prop where
  startsDigit : ∃ c ∈ whole.head?, c.isDigit = true
  isWhole : Run whole (places ++ (power ++ (suffix ++ rest)))
  isPlaces : (places = [] ∧ ¬PointNext (power ++ (suffix ++ rest))) ∨
    PointNext (places ++ (power ++ (suffix ++ rest))) ∧
      ∃ run, places = '.' :: run ∧ Run run (power ++ (suffix ++ rest))
  isPower : (power = [] ∧ ¬PowerNext (suffix ++ rest)) ∨
    ∃ e sign run, power = e :: (sign ++ run) ∧ (e = 'e' ∨ e = 'E') ∧ IsSign sign ∧
      (∃ d ∈ run.head?, d.isDigit = true) ∧ Run run (suffix ++ rest)
  isDecimal : places ≠ [] ∨ power ≠ []
  isSuffix : ∀ c ∈ suffix, isNamePart c = true
  ends : ∀ d ∈ rest.head?, isNamePart d = false

/-- The number at the front of a text turns out to be a decimal one, by what follows its digits. -/
structure ReadsDecimal (cs : List Char) : Prop where
  startsDigit : ∃ c ∈ cs.head?, c.isDigit = true
  base : (splitBase cs).1 = 10
  decided : startsPlaces (cs.dropWhile (isRun 10)) = true ∨ startsExponent (cs.dropWhile (isRun 10)) = true

theorem ReadsDecimal.number_eq {cs : List Char} (h : ReadsDecimal cs) :
    number cs = float (cs.takeWhile (isRun 10)) (cs.dropWhile (isRun 10)) := by
  rcases splitBase_inv cs with hbase | ⟨base, head, body, hmem, hsplit, -⟩
  · exact number_decimal hbase h.decided
  · have hten := h.base
    rw [hsplit] at hten
    simp only [List.mem_cons, List.not_mem_nil, or_false, Prod.mk.injEq] at hmem
    rcases hmem with ⟨rfl, -⟩ | ⟨rfl, -⟩ | ⟨rfl, -⟩ <;> cases hten

/-- The number is read again as far as its parts reach. -/
theorem ReadsDecimal.spelled {cs : List Char} (h : ReadsDecimal cs) :
    ∃ places power suffix rest, cs = cs.takeWhile (isRun 10) ++ (places ++ (power ++ (suffix ++ rest))) ∧
      DecimalSpelled (cs.takeWhile (isRun 10)) places power suffix rest ∧
      number cs = ⟨decimal (cs.takeWhile (isRun 10)) places power suffix, rest⟩ := by
  set behind := cs.dropWhile (isRun 10) with hbehind
  have hplaces := splitPlaces_append behind
  have hpower := splitExponent_append (splitPlaces behind).2
  have hsuffix := List.takeWhile_append_dropWhile (p := isNamePart) (l := (splitExponent (splitPlaces behind).2).2)
  refine ⟨_, _, _, _, ?_, ?_, h.number_eq.trans (float_eq_decimal _ _)⟩
  · rw [hsuffix, hpower, hplaces, List.takeWhile_append_dropWhile]
  · constructor
    · obtain ⟨c, hc, hdigit⟩ := h.startsDigit
      obtain ⟨r, rfl⟩ := List.head?_eq_some_iff.mp hc
      exact ⟨c, by rw [List.takeWhile_cons_of_pos (isRun_of_isDigit c hdigit)]; rfl, hdigit⟩
    · rw [hsuffix, hpower, hplaces]
      exact run_split cs
    · rw [hsuffix, hpower, hplaces]
      rcases splitPlaces_spec behind with ⟨hsplit, hno⟩ | hpoint
      · rw [hsplit]
        exact .inl ⟨rfl, hno⟩
      · exact .inr hpoint
    · rw [hsuffix]
      rcases splitExponent_spec (splitPlaces behind).2 with ⟨hsplit, hno⟩ | hpower
      · rw [hsplit]
        exact .inl ⟨rfl, hno⟩
      · exact .inr hpower
    · -- without a point it was the exponent that decided
      rcases splitPlaces_spec behind with ⟨hsplit, hno⟩ | ⟨-, run, hrun, -⟩
      · have hexponent := startsExponent_iff.mp (h.decided.resolve_left (mt startsPlaces_iff.mp hno))
        rcases splitExponent_spec behind with ⟨-, hno'⟩ | ⟨e, sign, run, hrun, -⟩
        · exact absurd hexponent hno'
        · rw [← hbehind, hsplit, hrun]
          exact .inr (List.cons_ne_nil _ _)
      · rw [← hbehind, hrun]
        exact .inl (List.cons_ne_nil _ _)
    · exact fun c hc => List.mem_takeWhile_imp hc
    · exact head_dropWhile _

/-- A character that is not in the front part stands behind it. -/
theorem past_of_not_mem {α : Type*} {a t u v : List α} {c : α} (h : a ++ t = u ++ c :: v) (hc : c ∉ a) :
    ∃ u', u = a ++ u' ∧ t = u' ++ c :: v := by
  rcases List.append_eq_append_iff.mp h with ⟨u', hu, ht⟩ | ⟨b, ha, hb⟩
  · exact ⟨u', hu, ht⟩
  · cases b with
    | nil => exact ⟨[], by simpa using ha.symm, by simpa using hb.symm⟩
    | cons d b =>
      obtain ⟨rfl, -⟩ := List.cons.inj hb
      exact absurd (by simp [ha]) hc

theorem Run.not_mem {run rest : List Char} (h : Run run rest) : '.' ∉ run := by
  intro hmem
  rcases h.inside _ hmem with hdigit | hunderscore
  · cases hdigit
  · revert hunderscore
    decide

namespace DecimalSpelled

variable {whole places power suffix rest : List Char}

theorem power_not_mem (h : DecimalSpelled whole places power suffix rest) : '.' ∉ power := by
  rcases h.isPower with ⟨rfl, -⟩ | ⟨e, sign, run, rfl, hletter, hsign, -, hrun⟩
  · simp
  · have hno : '.' ≠ e ∧ '.' ∉ sign := by
      constructor
      · rcases hletter with rfl | rfl <;> decide
      · rcases hsign with rfl | rfl | rfl <;> decide
    simp [hno, hrun.not_mem]

/-- A point with a second point or a name behind it stands behind the number. -/
theorem point_behind (h : DecimalSpelled whole places power suffix rest) {u r : List Char} {d : Char}
    (heq : whole ++ (places ++ (power ++ (suffix ++ rest))) = u ++ '.' :: d :: r)
    (hd : d = '.' ∨ isNameStart d = true) : ∃ v, u = whole ++ (places ++ (power ++ (suffix ++ v))) := by
  have hsuffix : '.' ∉ suffix := fun hmem => absurd (h.isSuffix _ hmem) (by decide)
  obtain ⟨u₁, rfl, hplaces⟩ := past_of_not_mem heq h.isWhole.not_mem
  have hpast : ∃ u₂, u₁ = places ++ u₂ ∧ power ++ (suffix ++ rest) = u₂ ++ '.' :: d :: r := by
    rcases h.isPlaces with ⟨rfl, -⟩ | ⟨⟨r', hpoint, hnext⟩, run, rfl, hrun⟩
    · exact ⟨u₁, rfl, hplaces⟩
    · cases u₁ with
      | nil =>
        -- this would be the point of the number itself
        rw [hplaces] at hpoint
        obtain ⟨hdot, hname⟩ := hnext d (by rw [← (List.cons.inj hpoint).2]; rfl)
        rcases hd with hd | hd
        · exact absurd hd hdot
        · rw [hname] at hd
          cases hd
      | cons c u₁ =>
        obtain ⟨rfl, hrest⟩ := List.cons.inj hplaces
        obtain ⟨u₂, rfl, hpower⟩ := past_of_not_mem hrest hrun.not_mem
        exact ⟨u₂, rfl, hpower⟩
  obtain ⟨u₂, rfl, hpower⟩ := hpast
  obtain ⟨u₃, rfl, hrest⟩ := past_of_not_mem hpower h.power_not_mem
  obtain ⟨v, rfl, -⟩ := past_of_not_mem hrest hsuffix
  exact ⟨v, rfl⟩

end DecimalSpelled

/-! ## What is read -/

/-- Digits, then a point with digits or none behind it, or an exponent with a digit at least, or both. -/
inductive NumeralForm : List Char → Prop
  | mk {whole fraction power : List Char} (hne : whole ≠ []) (hwhole : ∀ c ∈ whole, c.isDigit = true)
      (hfraction : fraction = [] ∨ ∃ digits, fraction = '.' :: digits ∧ ∀ c ∈ digits, c.isDigit = true)
      (hpower : power = [] ∨ ∃ sign digits, power = 'e' :: (sign ++ digits) ∧ IsSign sign ∧ digits ≠ [] ∧
        ∀ c ∈ digits, c.isDigit = true)
      (hsome : fraction ≠ [] ∨ power ≠ []) : NumeralForm (whole ++ (fraction ++ power))

theorem NumeralForm.ofText? {text : List Char} (h : NumeralForm text) :
    ∃ n, Decimal.Numeral.ofText? text = some n := by
  obtain @⟨whole, fraction, power, hne, hwhole, hfraction, hpower, -⟩ := h
  have hplaces : ∃ places, (∀ c ∈ places, c.isDigit = true) ∧
      (fraction = [] ∧ places = [] ∨ fraction = '.' :: places) := by
    rcases hfraction with rfl | ⟨digits, rfl, hdigits⟩
    · exact ⟨[], by simp, .inl ⟨rfl, rfl⟩⟩
    · exact ⟨digits, hdigits, .inr rfl⟩
  have hexponent : ∃ k, power = [] ∧ k = 0 ∨ ∃ r, power = 'e' :: r ∧ Decimal.Numeral.exponentOf? r = some k := by
    rcases hpower with rfl | ⟨sign, digits, rfl, hsign, hdigits, hall⟩
    · exact ⟨0, .inl ⟨rfl, rfl⟩⟩
    · obtain ⟨hplain, hplus, hminus⟩ := Decimal.exponentOf?_digits hdigits hall
      rcases hsign with rfl | rfl | rfl
      · exact ⟨_, .inr ⟨_, rfl, hplain⟩⟩
      · exact ⟨_, .inr ⟨_, rfl, hplus⟩⟩
      · exact ⟨_, .inr ⟨_, rfl, hminus⟩⟩
  obtain ⟨places, hdigits, hplaces⟩ := hplaces
  obtain ⟨k, hexponent⟩ := hexponent
  exact ⟨_, Decimal.Numeral.ofText?_parts hne hwhole hdigits hplaces hexponent⟩

theorem numeralText_append (a b : List Char) : numeralText (a ++ b) = numeralText a ++ numeralText b := by
  simp [numeralText]

/-- Of digits and underscores the digits are read. -/
theorem Run.numeralText {run rest : List Char} (h : Run run rest) :
    (∀ c ∈ Lexer.numeralText run, c.isDigit = true) ∧
      ((∃ c ∈ run.head?, c.isDigit = true) → Lexer.numeralText run ≠ []) := by
  constructor
  · intro c hc
    obtain ⟨d, hd, rfl⟩ := List.mem_map.mp hc
    obtain ⟨hmem, hne⟩ := List.mem_filter.mp hd
    have hdigit := (h.inside d hmem).resolve_right (of_decide_eq_true hne)
    have hcapital : d ≠ 'E' := by
      rintro rfl
      cases hdigit
    rwa [if_neg hcapital]
  · rintro ⟨c, hc, hdigit⟩
    obtain ⟨r, rfl⟩ := List.head?_eq_some_iff.mp hc
    have hne : c ≠ '_' := by
      rintro rfl
      cases hdigit
    simp [Lexer.numeralText, hne]

theorem DecimalSpelled.form {whole places power suffix rest : List Char}
    (h : DecimalSpelled whole places power suffix rest) : NumeralForm (numeralText (whole ++ places ++ power)) := by
  rw [List.append_assoc, numeralText_append, numeralText_append]
  refine ⟨h.isWhole.numeralText.2 h.startsDigit, h.isWhole.numeralText.1, ?_, ?_, ?_⟩
  · rcases h.isPlaces with ⟨rfl, -⟩ | ⟨-, run, rfl, hrun⟩
    · exact .inl rfl
    · exact .inr ⟨numeralText run, rfl, hrun.numeralText.1⟩
  · rcases h.isPower with ⟨rfl, -⟩ | ⟨e, sign, run, rfl, hletter, hsign, hdigit, hrun⟩
    · exact .inl rfl
    · refine .inr ⟨sign, numeralText run, ?_, hsign, hrun.numeralText.2 hdigit, hrun.numeralText.1⟩
      rcases hletter with rfl | rfl <;> rcases hsign with rfl | rfl | rfl <;> rfl
  · rcases h.isDecimal with hne | hne
    · rcases h.isPlaces with ⟨rfl, -⟩ | ⟨-, run, rfl, -⟩
      · exact absurd rfl hne
      · exact .inl (List.cons_ne_nil '.' (numeralText run))
    · rcases h.isPower with ⟨rfl, -⟩ | ⟨e, sign, run, rfl, hletter, -⟩
      · exact absurd rfl hne
      · have hkept : e ≠ '_' := by rcases hletter with rfl | rfl <;> decide
        exact .inr (by simp [numeralText, hkept])

/-- The token covers all parts, its value is that of the numeral, and nothing but the suffix can be wrong. -/
theorem DecimalSpelled.lexeme {whole places power suffix rest : List Char}
    (h : DecimalSpelled whole places power suffix rest) : ∃ (type : FloatTy) (n : Decimal.Numeral),
      (type = .f32 ↔ suffix = "f32".toList) ∧
      Decimal.Numeral.ofText? (numeralText (whole ++ places ++ power)) = some n ∧
      (decimal whole places power suffix).token? =
        some (.literal (.float type (BitVec.ofNat type.width (n.code type.format))),
          Text.width (whole ++ places ++ power ++ suffix)) ∧
      ∀ f ∈ (decimal whole places power suffix).faults, ∃ name, f.problem = .floatSuffix name := by
  obtain ⟨n, hread⟩ := h.form.ofText?
  refine ⟨if String.ofList suffix = FloatTy.f32.name then .f32 else .f64, n, ?_, hread, ?_, ?_⟩
  · have hname : String.ofList suffix = FloatTy.f32.name ↔ suffix = "f32".toList :=
      ⟨fun hname => by rw [← String.toList_ofList (l := suffix), hname]; rfl, fun heq => by rw [heq]; rfl⟩
    rw [← hname]
    split <;> simp_all
  · simp only [decimal, floatValue, hread, Lexeme.whole]
  · intro f hf
    simp only [decimal, floatValue, hread, Lexeme.whole, List.map_nil, List.append_nil, List.mem_ite_nil_left,
      List.mem_singleton] at hf
    obtain ⟨-, rfl⟩ := hf
    exact ⟨_, rfl⟩

/-! ## All numbers -/

/-- No number in the lexeme is without a value. -/
def Lexeme.Readable (l : Lexeme) : Prop := ∀ f ∈ l.faults, ∀ text, f.problem ≠ .malformedFloat text

theorem readable_of_nil {l : Lexeme} (h : l.faults = []) : l.Readable := by simp [Lexeme.Readable, h]

theorem integer_readable (base : Nat) (spelled run suffix : List Char) :
    (integer base spelled run suffix).Readable := by
  intro f hf text
  simp only [integer, Lexeme.whole, List.mem_append, List.mem_ite_nil_right, List.mem_singleton,
    Option.mem_toList, Option.map_eq_some_iff] at hf
  rcases hf with ((⟨-, rfl⟩ | ⟨-, rfl⟩) | ⟨s, -, rfl⟩) | ⟨-, rfl⟩ <;> exact Problem.noConfusion

theorem integerWithFraction_readable (base : Nat) (spelled run rest : List Char) :
    (integerWithFraction base spelled run rest).lexeme.Readable := by
  intro f hf
  rcases List.mem_cons.mp hf with rfl | hf
  · exact fun _ => Problem.noConfusion
  · exact integer_readable base spelled run [] f hf

theorem number_readable {cs : List Char} (hdigit : ∃ c ∈ cs.head?, c.isDigit = true) :
    (number cs).lexeme.Readable := by
  by_cases hdecimal : ReadsDecimal cs
  · obtain ⟨places, power, suffix, rest, -, hspelled, hnumber⟩ := hdecimal.spelled
    obtain ⟨-, -, -, -, -, hfaults⟩ := hspelled.lexeme
    intro f hf text
    rw [hnumber] at hf
    obtain ⟨name, hname⟩ := hfaults f hf
    rw [hname]
    exact Problem.noConfusion
  · simp only [number]
    split
    · rename_i hdecided
      rw [Bool.and_eq_true, decide_eq_true_eq, Bool.or_eq_true] at hdecided
      rcases splitBase_inv cs with hbase | ⟨base, head, body, hmem, hsplit, -⟩
      · rw [hbase] at hdecided
        exact absurd ⟨hdigit, by rw [hbase], hdecided.2⟩ hdecimal
      · have hten : base = 10 := by rw [← hdecided.1, hsplit]
        simp [hten] at hmem
    · split
      · exact integerWithFraction_readable _ _ _ _
      · exact integer_readable _ _ _ _

theorem single_readable (c : Char) (rest : List Char) : (single c rest).lexeme.Readable := by
  unfold single
  split
  · exact readable_of_nil rfl
  · simp [Lexeme.Readable, Lexeme.rejected]

theorem mark_readable (c : Char) (rest : List Char) : (mark c rest).lexeme.Readable := by
  unfold mark
  split
  · split
    · exact readable_of_nil rfl
    · exact single_readable _ _
  · exact single_readable _ _

theorem scan_readable (c : Char) (rest : List Char) : (scan c rest).lexeme.Readable := by
  unfold scan
  split
  · exact readable_of_nil rfl
  split
  · exact readable_of_nil rfl
  split
  · exact number_readable ⟨c, rfl, ‹_›⟩
  split
  · unfold string
    split
    · exact readable_of_nil rfl
    · simp [Lexeme.Readable, Lexeme.rejected]
  split
  · split
    · exact readable_of_nil rfl
    · unfold comment
      split
      · exact readable_of_nil rfl
      · simp [Lexeme.Readable, Lexeme.rejected]
    · exact mark_readable _ _
  · exact mark_readable _ _

theorem lexemes_readable (cs : List Char) : ∀ l ∈ lexemes cs, l.Readable := by
  fun_induction lexemes cs with
  | case1 => simp
  | case2 c rest ih =>
    rw [List.forall_mem_cons]
    exact ⟨scan_readable c rest, ih⟩

/-! ## Whole texts -/

/-- Reading the text comes to `cs`, with `front` behind it. -/
def Reaches (text : String) (front cs : List Char) : Prop :=
  ∃ ls, lexemes text.toList = ls ++ lexemes cs ∧ textOf ls = front

/-- Reading goes on behind the lexeme, and finds its token at its place. -/
theorem Reaches.next {text : String} {front : List Char} {c : Char} {r : List Char}
    (h : Reaches text front (c :: r)) :
    Reaches text (front ++ (scan c r).lexeme.text) (scan c r).rest ∧
      ∀ file terminal width, (scan c r).lexeme.token? = some (terminal, width) →
        ⟨terminal, ⟨file, Text.width front, Text.width front + width⟩⟩ ∈ (read file text).tokens := by
  obtain ⟨ls, hls, rfl⟩ := h
  rw [lexemes] at hls
  constructor
  · exact ⟨ls ++ [(scan c r).lexeme], by rw [hls, List.append_assoc]; rfl, by simp⟩
  · intro file terminal width htoken
    rw [read, tokensAt_eq, hls, spelled_append, Nat.zero_add, spelled, htoken]
    simp

end Ferrite.Lexer
