import Ferrite.Decimal.Layout
import Ferrite.Decimal.Numeral
import Ferrite.Numeric
import Ferrite.Proofs.Decimal.Shortest
import Ferrite.Proofs.Lexer.Number

/-!
What is laid out for a code is read as a number in the interval of the code, and so as that code
again.
-/

namespace Ferrite.Decimal

/-! ## Digits -/

theorem natOfDigits_eq (cs : List Char) : natOfDigits cs = Nat.ofDigitChars 10 cs 0 := by
  rw [Nat.ofDigitChars_eq_foldl]
  rfl

theorem natOfDigits_append (cs ds : List Char) :
    natOfDigits (cs ++ ds) = 10 ^ ds.length * natOfDigits cs + natOfDigits ds := by
  rw [natOfDigits_eq, natOfDigits_eq, natOfDigits_eq, Nat.ofDigitChars_append,
    Nat.ofDigitChars_eq_ofDigitChars_zero]

theorem natOfDigits_zeros (n : Nat) : natOfDigits (List.replicate n '0') = 0 := by
  rw [natOfDigits_eq, Nat.ofDigitChars_replicate_zero, Nat.mul_zero]

theorem natOfDigits_toDigits (n : Nat) : natOfDigits (Nat.toDigits 10 n) = n := by
  rw [natOfDigits_eq, Nat.ofDigitChars_ten_toDigits]

theorem isDigit_of_mem_toDigits {n : Nat} : ∀ c ∈ Nat.toDigits 10 n, c.isDigit = true :=
  fun _ hc => Nat.isDigit_of_mem_toDigits (by decide) (Nat.le_refl _) hc

theorem digitValue_lt {c : Char} (h : c.isDigit = true) : digitValue c < 10 := by
  have hbounds : decide (c.val ≥ 48) && decide (c.val ≤ 57) := h
  have hle : c.val.toNat ≤ 57 := by
    have := (Bool.and_eq_true_iff.mp hbounds).2
    exact UInt32.le_iff_toNat_le.mp (of_decide_eq_true this)
  change c.val.toNat - 48 < 10
  omega

theorem natOfDigits_lt {cs : List Char} (h : ∀ c ∈ cs, c.isDigit = true) : natOfDigits cs < 10 ^ cs.length := by
  induction cs with
  | nil => decide
  | cons c cs ih =>
    rw [List.forall_mem_cons] at h
    have hrest := ih h.2
    have hfirst : natOfDigits [c] ≤ 9 := by
      have hvalue : natOfDigits [c] = digitValue c := by simp [natOfDigits]
      have := digitValue_lt h.1
      omega
    have hmul := Nat.mul_le_mul_left (10 ^ cs.length) hfirst
    rw [← List.singleton_append, natOfDigits_append, List.singleton_append, List.length_cons, Nat.pow_succ]
    omega

/-! ## Numerals -/

/-- The point and the places behind it, if there are any. -/
def pointed (places : List Char) : List Char := if places = [] then [] else '.' :: places

/-- The letter and the power of ten behind it, if there is one. -/
def powered (power : Option Int) : List Char := power.elim [] fun k => 'e' :: (toString k).toList

/-- The characters write the number down, in the way in which a number with a point is written. -/
inductive Writes (cs : List Char) (x : Rat) : Prop
  | mk {whole places : List Char} {power : Option Int} (hwhole : whole ≠ [])
      (hdigits : ∀ c ∈ whole ++ places, c.isDigit = true) (hsome : places ≠ [] ∨ power ≠ none)
      (htext : cs = whole ++ (pointed places ++ powered power))
      (hvalue : x = natOfDigits (whole ++ places) * 10 ^ (power.getD 0 - places.length))

def Numeral.value (n : Numeral) : Rat := n.digits * 10 ^ n.exponent

theorem not_sign_of_isDigit {c : Char} (h : c.isDigit = true) : c ≠ '+' ∧ c ≠ '-' ∧ c ≠ '.' ∧ c ≠ 'e' := by
  refine ⟨?_, ?_, ?_, ?_⟩ <;> (rintro rfl; revert h; decide)

theorem exponentOf?_digits {ds : List Char} (hne : ds ≠ []) (hdigits : ∀ c ∈ ds, c.isDigit = true) :
    Numeral.exponentOf? ds = some (natOfDigits ds : Int) ∧
      Numeral.exponentOf? ('+' :: ds) = some (natOfDigits ds : Int) ∧
      Numeral.exponentOf? ('-' :: ds) = some (-(natOfDigits ds : Int)) := by
  have hall : (decide (ds ≠ []) && ds.all Char.isDigit) = true := by
    rw [Bool.and_eq_true, decide_eq_true_eq, List.all_eq_true]
    exact ⟨hne, hdigits⟩
  refine ⟨?_, ?_, ?_⟩
  · obtain ⟨d, ds, rfl⟩ := List.exists_cons_of_ne_nil hne
    obtain ⟨hplus, hminus, -⟩ := not_sign_of_isDigit (hdigits d List.mem_cons_self)
    unfold Numeral.exponentOf?
    split
    · exact absurd (List.cons.inj ‹_›).1 hplus
    · exact absurd (List.cons.inj ‹_›).1 hminus
    · simp only [hall, if_true]
      rfl
  · simp only [Numeral.exponentOf?, hall, if_true]
    rfl
  · simp only [Numeral.exponentOf?, hall, if_true]
    rfl

theorem toString_ofNat (n : Nat) : (toString (n : Int)).toList = Nat.toDigits 10 n := by
  change (toString n).toList = _
  rw [Nat.toString_eq_ofList_toDigits, String.toList_ofList]

theorem toString_negSucc (n : Nat) : (toString (Int.negSucc n)).toList = '-' :: Nat.toDigits 10 (n + 1) := by
  change ("-" ++ toString (n + 1)).toList = _
  rw [Nat.toString_eq_ofList_toDigits, String.toList_append, String.toList_ofList, String.toList_ofList]
  rfl

theorem exponentOf?_toString (k : Int) : Numeral.exponentOf? (toString k).toList = some k := by
  cases k with
  | ofNat n =>
    have hread := (exponentOf?_digits (Nat.toDigits_ne_nil (n := n) (b := 10)) isDigit_of_mem_toDigits).1
    rwa [natOfDigits_toDigits, ← toString_ofNat] at hread
  | negSucc n =>
    have hread := (exponentOf?_digits (Nat.toDigits_ne_nil (n := n + 1) (b := 10)) isDigit_of_mem_toDigits).2.2
    rwa [natOfDigits_toDigits, ← toString_negSucc] at hread

/-- Digits, a point with digits or none behind it, and an exponent are read as a numeral. -/
theorem Numeral.ofText?_parts {whole fraction places exponent : List Char} {power : Int} (hne : whole ≠ [])
    (hwhole : ∀ c ∈ whole, c.isDigit = true) (hplaces : ∀ c ∈ places, c.isDigit = true)
    (hfraction : fraction = [] ∧ places = [] ∨ fraction = '.' :: places)
    (hexponent : exponent = [] ∧ power = 0 ∨ ∃ r, exponent = 'e' :: r ∧ exponentOf? r = some power) :
    ofText? (whole ++ (fraction ++ exponent)) =
      some ⟨natOfDigits (whole ++ places), (whole ++ places).length, power - places.length⟩ := by
  have hpower : ∀ d ∈ exponent.head?, d.isDigit = false := by
    rcases hexponent with ⟨rfl, -⟩ | ⟨r, rfl, -⟩
    · simp
    · rintro _ ⟨rfl⟩
      rfl
  have hpoint : ∀ d ∈ (fraction ++ exponent).head?, d.isDigit = false := by
    rcases hfraction with ⟨rfl, -⟩ | rfl
    · exact hpower
    · rintro _ ⟨rfl⟩
      rfl
  obtain ⟨htake, hdrop⟩ := Lexer.takeWhile_append_stop hwhole hpoint
  obtain ⟨htake', hdrop'⟩ := Lexer.takeWhile_append_stop hplaces hpower
  unfold ofText?
  simp only [htake, hdrop]
  rcases hfraction with ⟨rfl, rfl⟩ | rfl
  · rcases hexponent with ⟨rfl, rfl⟩ | ⟨r, rfl, hread⟩
    · simp [hne]
    · simp [hne, hread]
  · simp only [List.cons_append, htake', hdrop']
    rcases hexponent with ⟨rfl, rfl⟩ | ⟨r, rfl, hread⟩
    · simp [hne]
    · simp [hne, hread]

/-- A number that is written down is read. -/
theorem Writes.ofText? {cs : List Char} {x : Rat} (h : Writes cs x) :
    ∃ n, Numeral.ofText? cs = some n ∧ n.value = x ∧ n.digits < 10 ^ n.count := by
  obtain @⟨whole, places, power, hwhole, hdigits, -, rfl, rfl⟩ := h
  have hfraction : pointed places = [] ∧ places = [] ∨ pointed places = '.' :: places := by
    unfold pointed
    split
    · exact .inl ⟨rfl, ‹_›⟩
    · exact .inr rfl
  have hexponent : powered power = [] ∧ power.getD 0 = 0 ∨
      ∃ r, powered power = 'e' :: r ∧ Numeral.exponentOf? r = some (power.getD 0) := by
    cases power with
    | none => exact .inl ⟨rfl, rfl⟩
    | some k => exact .inr ⟨_, rfl, exponentOf?_toString k⟩
  have hread := Numeral.ofText?_parts hwhole (fun c hc => hdigits c (List.mem_append_left _ hc))
    (fun c hc => hdigits c (List.mem_append_right _ hc)) hfraction hexponent
  exact ⟨_, hread, rfl, natOfDigits_lt hdigits⟩

/-! ## Formats -/

/-- What the search and the bounds on powers of ten rely on. -/
structure Format.Moderate (f : Format) : Prop where
  row : 4 * f.row ≤ 10 ^ 19
  smallest : (10 : Rat) ^ (-Numeral.reach) ≤ 1 / 2 * 2 ^ f.lowest
  greatest : 2 * f.row * (2 : Rat) ^ (f.lowest + (2 : Int) ^ f.exponent) ≤ 10 ^ Numeral.reach

/-- A number in the interval of a finite code is within reach. -/
theorem Interval.Holds.reach {f : Format} (hf : f.Moderate) {code : Nat} {x : Rat} (hcode : 0 < code)
    (hfinite : code < f.infinity) (h : (Interval.ofCode f code).Holds x) :
    (10 : Rat) ^ (-Numeral.reach) ≤ x ∧ x ≤ 10 ^ Numeral.reach := by
  obtain ⟨hlowest, hpos, hlt, -, hsum⟩ := splits f hcode
  obtain ⟨hlow, hhigh, -⟩ := h.bounds hcode
  have hpos' : (1 : Rat) ≤ f.significand code := by exact_mod_cast hpos
  have hlt' : (f.significand code : Rat) + 1 ≤ 2 * f.row := by exact_mod_cast hlt
  have hreach := reachBelow_le f code
  constructor
  · calc (10 : Rat) ^ (-Numeral.reach) ≤ 1 / 2 * 2 ^ f.lowest := hf.smallest
      _ ≤ (f.significand code - f.reachBelow code) * 2 ^ f.scale code :=
          mul_le_mul (by linarith) (zpow_le_zpow_right₀ (by norm_num) hlowest) (two_zpow_pos _).le (by linarith)
      _ ≤ x := hlow
  · have hscale : f.scale code ≤ f.lowest + (2 : Int) ^ f.exponent := by
      have hrow := row_pos f
      have hinfinity : (f.scale code - f.lowest).toNat * f.row < (Nat.pow 2 f.exponent - 1) * f.row :=
        lt_of_le_of_lt (by omega) hfinite
      have := Nat.lt_of_mul_lt_mul_right hinfinity
      have hcast : ((Nat.pow 2 f.exponent : Nat) : Int) = 2 ^ f.exponent := by
        rw [Nat.pow_eq]
        push_cast
        rfl
      omega
    calc x ≤ (f.significand code + 1 / 2) * 2 ^ f.scale code := hhigh
      _ ≤ 2 * f.row * (2 : Rat) ^ (f.lowest + (2 : Int) ^ f.exponent) :=
          mul_le_mul (by linarith) (zpow_le_zpow_right₀ (by norm_num) hscale) (two_zpow_pos _).le (by positivity)
      _ ≤ 10 ^ Numeral.reach := hf.greatest

/-- A numeral in the interval of a code is read as the code. -/
theorem Numeral.code_of_holds {f : Format} (hf : f.Moderate) {code : Nat} {n : Numeral} (hcode : 0 < code)
    (hfinite : code < f.infinity) (hcount : n.digits < 10 ^ n.count)
    (h : (Interval.ofCode f code).Holds n.value) : n.code f = code := by
  obtain ⟨hlow, hhigh⟩ := h.reach hf hcode hfinite
  have hdigits : 0 < n.digits := by
    by_contra hzero
    obtain hzero : n.digits = 0 := by omega
    have hpos := ten_zpow_pos (-reach)
    rw [value, hzero, Nat.cast_zero, zero_mul] at hlow
    exact absurd hlow (not_le.mpr hpos)
  have hdigits' : (1 : Rat) ≤ n.digits := by exact_mod_cast hdigits
  have hcount' : (n.digits : Rat) < 10 ^ (n.count : Int) := by
    rw [zpow_natCast]
    exact_mod_cast hcount
  have hunit := ten_zpow_pos n.exponent
  have hten : ∀ {j k : Int}, (10 : Rat) ^ j < 10 ^ k → j < k := (zpow_lt_zpow_iff_right₀ (by norm_num)).mp
  have hbelow : ¬(n.count + n.exponent < -reach) := by
    refine not_lt.mpr (hten (hlow.trans_lt ?_)).le
    rw [zpow_add₀ (by norm_num), value]
    gcongr
  have habove : ¬(reach < n.exponent) := by
    intro hlt
    have hpow : (10 : Rat) ^ reach < 10 ^ n.exponent := zpow_lt_zpow_right₀ (by norm_num) hlt
    have hle : (10 : Rat) ^ n.exponent ≤ n.value := by
      rw [value]
      exact le_mul_of_one_le_left hunit.le hdigits'
    exact absurd (hle.trans hhigh) (not_le.mpr hpow)
  have hnone : (decide (n.digits = 0) || decide (n.count + n.exponent < -reach)) = false := by
    simp [hdigits.ne', hbelow]
  rw [Numeral.code, hnone, if_neg Bool.false_ne_true, if_neg habove]
  split
  · rename_i hexp
    obtain ⟨j, hj⟩ := Int.eq_ofNat_of_zero_le hexp
    refine nearest_of_holds Nat.one_pos hcode ?_ hfinite
    have hvalue : ((n.digits * Nat.pow 10 n.exponent.toNat : Nat) : Rat) / (1 : Nat) = n.value := by
      simp [value, hj, Nat.pow_eq]
    rwa [hvalue]
  · obtain ⟨j, hj⟩ : ∃ j : Nat, n.exponent = -(j : Int) := ⟨(-n.exponent).toNat, by omega⟩
    refine nearest_of_holds (Nat.pow_pos (by decide)) hcode ?_ hfinite
    have hvalue : (n.digits : Rat) / (Nat.pow 10 (-n.exponent).toNat : Nat) = n.value := by
      simp [value, hj, Nat.pow_eq, div_eq_mul_inv]
    rwa [hvalue]

/-! ## Layouts -/

theorem zeros_toList (n : Nat) : (zeros n).toList = List.replicate n '0' := String.toList_ofList

theorem isDigit_of_mem_replicate {n : Nat} : ∀ c ∈ List.replicate n '0', c.isDigit = true := by
  intro c hc
  rw [List.eq_of_mem_replicate hc]
  rfl

theorem plain_writes {ds : List Char} (hds : ∀ c ∈ ds, c.isDigit = true) (hne : ds ≠ []) (k : Int) :
    Writes (plain ds k).toList (natOfDigits ds * 10 ^ k) := by
  unfold plain
  split
  · rename_i hk
    obtain ⟨j, rfl⟩ := Int.eq_ofNat_of_zero_le hk
    have hvalue : natOfDigits (ds ++ List.replicate j '0' ++ ['0']) = natOfDigits ds * 10 ^ j * 10 := by
      rw [natOfDigits_append, natOfDigits_append, natOfDigits_zeros, List.length_replicate]
      simp [natOfDigits, digitValue]
      ring
    refine @Writes.mk _ _ (ds ++ List.replicate j '0') ['0'] none (by simp [hne]) ?_
      (.inl (by simp)) ?_ ?_
    · simp only [List.forall_mem_append, List.forall_mem_singleton]
      exact ⟨⟨hds, isDigit_of_mem_replicate⟩, rfl⟩
    · simp [String.toList_append, zeros_toList, pointed, powered]
    · rw [hvalue]
      push_cast
      simp
  · rename_i hk
    obtain ⟨j, rfl⟩ : ∃ j : Nat, k = -(j : Int) := ⟨(-k).toNat, by omega⟩
    simp only [neg_neg, Int.toNat_natCast]
    split
    · rename_i hj
      have hplaces : ds.drop (ds.length - j) ≠ [] := List.ne_nil_of_length_pos (by rw [List.length_drop]; omega)
      refine @Writes.mk _ _ (ds.take (ds.length - j)) (ds.drop (ds.length - j)) none
        (List.ne_nil_of_length_pos (by rw [List.length_take]; omega)) ?_ (.inl hplaces) ?_ ?_
      · rwa [List.take_append_drop]
      · rw [pointed, if_neg hplaces]
        simp [String.toList_append, powered]
      · rw [List.take_append_drop, List.length_drop]
        congr 2
        simp only [Option.getD_none]
        omega
    · rename_i hj
      refine @Writes.mk _ _ ['0'] (List.replicate (j - ds.length) '0' ++ ds) none (by simp)
        ?_ (.inl (by simp [hne])) ?_ ?_
      · simp only [List.forall_mem_append, List.forall_mem_singleton]
        exact ⟨rfl, isDigit_of_mem_replicate, hds⟩
      · simp [String.toList_append, zeros_toList, pointed, powered, hne]
      · have hvalue : natOfDigits (['0'] ++ (List.replicate (j - ds.length) '0' ++ ds)) = natOfDigits ds := by
          rw [natOfDigits_append, natOfDigits_append, natOfDigits_zeros]
          simp [natOfDigits, digitValue]
        rw [hvalue, List.length_append, List.length_replicate]
        congr 2
        simp only [Option.getD_none]
        omega

theorem scientific_writes {ds : List Char} (hds : ∀ c ∈ ds, c.isDigit = true) (hne : ds ≠ []) (power : Int) :
    Writes (scientific ds power).toList (natOfDigits ds * 10 ^ (power - (ds.length - 1 : Nat))) := by
  obtain ⟨d, ds, rfl⟩ := List.exists_cons_of_ne_nil hne
  refine @Writes.mk _ _ [d] ds (some power) (by simp) hds (.inr (by simp)) ?_ ?_
  · unfold scientific pointed powered
    cases ds with
    | nil => simp [String.toList_append]
    | cons e ds => simp [String.toList_append]
  · simp

/-- What stands for a finite code is read as that code. -/
theorem render_reads (layout : Layout) {f : Format} (hf : f.Moderate) {code : Nat} (hfinite : code < f.infinity) :
    ∃ x, Writes (layout.render f false code).toList x ∧
      ∀ n : Numeral, n.value = x → n.digits < 10 ^ n.count → n.code f = code := by
  have hrender : layout.render f false code = if code = 0 then "0.0" else
      let digits := Nat.toDigits 10 (shortest f code).1
      let power := (shortest f code).2 + digits.length - 1
      if layout.least ≤ power && power ≤ layout.greatest then plain digits (shortest f code).2
      else scientific digits power := by
    unfold Layout.render
    rw [if_neg (Nat.not_lt.mpr hfinite.le), if_neg hfinite.ne]
    split
    · rfl
    · exact String.empty_append
  rw [hrender]
  split
  · subst code
    refine ⟨0, @Writes.mk _ _ ['0'] ['0'] none (by simp) (by simp) (.inl (by simp)) rfl ?_, ?_⟩
    · simp [natOfDigits, digitValue]
    · intro n hvalue _
      have hdigits : n.digits = 0 := by
        have hpos := ten_zpow_pos n.exponent
        rw [Numeral.value, mul_eq_zero] at hvalue
        exact_mod_cast hvalue.resolve_right hpos.ne'
      simp [Numeral.code, hdigits]
  · have hholds := shortest_holds hf.row (Nat.pos_of_ne_zero ‹_›)
    generalize shortest f code = d at *
    obtain ⟨n, k⟩ := d
    have hdigits : ∀ c ∈ Nat.toDigits 10 n, c.isDigit = true := isDigit_of_mem_toDigits
    have hne : Nat.toDigits 10 n ≠ [] := Nat.toDigits_ne_nil
    refine ⟨n * 10 ^ k, ?_, fun m hvalue hcount =>
      m.code_of_holds hf (Nat.pos_of_ne_zero ‹_›) hfinite hcount (hvalue ▸ hholds)⟩
    dsimp only
    split
    · have hwrites := plain_writes hdigits hne k
      rwa [natOfDigits_toDigits] at hwrites
    · have hwrites := scientific_writes hdigits hne (k + (Nat.toDigits 10 n).length - 1)
      have hpos := List.length_pos_of_ne_nil hne
      have hpower : k + (Nat.toDigits 10 n).length - 1 - ((Nat.toDigits 10 n).length - 1 : Nat) = k := by omega
      rwa [natOfDigits_toDigits, hpower] at hwrites

/-! ## The two formats -/

/-- Ten is more than the third power of two. -/
theorem two_zpow_le_reach {k : Int} (h : k ≤ 3 * Numeral.reach) : (2 : Rat) ^ k ≤ 10 ^ Numeral.reach :=
  calc (2 : Rat) ^ k ≤ 2 ^ (3 * Numeral.reach) := zpow_le_zpow_right₀ (by norm_num) h
    _ = 8 ^ Numeral.reach := by rw [zpow_mul]; norm_num
    _ ≤ 10 ^ Numeral.reach := zpow_le_zpow_left₀ (by decide) (by norm_num) (by norm_num)

theorem reach_le_two_zpow {k : Int} (h : -(3 * Numeral.reach) ≤ k) : (10 : Rat) ^ (-Numeral.reach) ≤ 2 ^ k := by
  rw [← neg_neg k, zpow_neg, zpow_neg]
  exact inv_anti₀ (two_zpow_pos _) (two_zpow_le_reach (by omega))

theorem Format.moderate_of_lowest {f : Format} (hrow : 4 * f.row ≤ 10 ^ 19)
    (hsmallest : -(3 * Numeral.reach) ≤ f.lowest - 1)
    (hgreatest : 1 + f.fraction + (f.lowest + (2 : Int) ^ f.exponent) ≤ 3 * Numeral.reach) : f.Moderate where
  row := hrow
  smallest := by
    refine (reach_le_two_zpow hsmallest).trans_eq ?_
    rw [sub_eq_neg_add, two_zpow_add, zpow_neg_one, one_div]
  greatest := by
    refine Eq.trans_le ?_ (two_zpow_le_reach hgreatest)
    rw [two_zpow_add (1 + _), two_zpow_add 1, row_zpow, zpow_one]

end Ferrite.Decimal

theorem Ferrite.FloatTy.format_moderate (t : FloatTy) : t.format.Moderate := by
  cases t <;> exact Decimal.Format.moderate_of_lowest (by decide) (by decide) (by decide)
