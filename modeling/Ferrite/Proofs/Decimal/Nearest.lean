import Mathlib.Algebra.Order.Field.Power
import Mathlib.Data.Rat.Cast.Order
import Mathlib.Tactic.FieldSimp
import Mathlib.Tactic.Linarith
import Mathlib.Tactic.Positivity
import Mathlib.Tactic.Ring
import Ferrite.Decimal.Shortest

/-!
Rounding to the nearest binary number, in terms of rational numbers: every number in the interval of
a code is rounded to that code.
-/

namespace Ferrite.Decimal

theorem two_zpow_pos (k : Int) : (0 : Rat) < 2 ^ k := by positivity

theorem two_zpow_lt {j k : Int} : (2 : Rat) ^ j < 2 ^ k ↔ j < k := zpow_lt_zpow_iff_right₀ (by norm_num)

theorem two_zpow_add (j k : Int) : (2 : Rat) ^ (j + k) = 2 ^ j * 2 ^ k := zpow_add₀ (by norm_num) j k

/-! ## Rounding a fraction -/

theorem roundHalfEven_eq {a b m : Nat} (hb : 0 < b) (hlow : (m : Rat) - 1 / 2 ≤ a / b)
    (hhigh : (a : Rat) / b ≤ m + 1 / 2)
    (htie : (m : Rat) - 1 / 2 = a / b ∨ (a : Rat) / b = m + 1 / 2 → m % 2 = 0) : roundHalfEven a b = m := by
  have hb' : (0 : Rat) < b := by exact_mod_cast hb
  -- the same with whole numbers, where `a` is `b` times the quotient and a remainder
  have hlow' : 2 * (b * m) ≤ 2 * a + b := by
    rw [le_div_iff₀ hb'] at hlow
    have hcast : (2 * (b * m) : Rat) ≤ 2 * a + b := by linarith
    exact_mod_cast hcast
  have hhigh' : 2 * a ≤ 2 * (b * m) + b := by
    rw [div_le_iff₀ hb'] at hhigh
    have hcast : (2 * a : Rat) ≤ 2 * (b * m) + b := by linarith
    exact_mod_cast hcast
  have htie' : 2 * (b * m) = 2 * a + b ∨ 2 * a = 2 * (b * m) + b → m % 2 = 0 := by
    rintro (h | h)
    · refine htie (.inl ?_)
      have hcast : (2 * (b * m) : Rat) = 2 * a + b := by exact_mod_cast h
      rw [eq_div_iff hb'.ne']
      linarith
    · refine htie (.inr ?_)
      have hcast : (2 * a : Rat) = 2 * (b * m) + b := by exact_mod_cast h
      rw [div_eq_iff hb'.ne']
      linarith
  have hdiv := Nat.div_add_mod a b
  have hmod := Nat.mod_lt a hb
  simp only [roundHalfEven, Bool.or_eq_true, Bool.and_eq_true, decide_eq_true_eq]
  generalize a / b = q at *
  generalize a % b = r at *
  have hm : m = q ∨ m = q + 1 := by
    have hle : q ≤ m := by
      by_contra hlt
      have hmul : b * (m + 1) ≤ b * q := Nat.mul_le_mul_left b (by omega)
      rw [Nat.mul_succ] at hmul
      omega
    have hge : m ≤ q + 1 := by
      by_contra hlt
      have hmul : b * (q + 2) ≤ b * m := Nat.mul_le_mul_left b (by omega)
      rw [Nat.mul_add] at hmul
      omega
    omega
  rcases hm with rfl | rfl
  · rw [if_pos]
    rcases Nat.lt_or_ge (2 * r) b with hlt | hge
    · exact .inl hlt
    · exact .inr ⟨by omega, htie' (.inr (by omega))⟩
  · rw [Nat.mul_succ] at hlow' htie'
    rw [if_neg]
    rintro (hlt | ⟨heq, heven⟩)
    · omega
    · have := htie' (.inl (by omega))
      omega

/-- The number of units of `2 ^ scale` that is nearest to the fraction. -/
def unitsOf (scale : Int) (a b : Nat) : Nat :=
  if 0 ≤ scale then roundHalfEven a (b * Nat.pow 2 scale.toNat)
  else roundHalfEven (a * Nat.pow 2 (-scale).toNat) b

theorem unitsOf_eq {scale : Int} {a b m : Nat} (hb : 0 < b) (hlow : ((m : Rat) - 1 / 2) * 2 ^ scale ≤ a / b)
    (hhigh : (a : Rat) / b ≤ (m + 1 / 2) * 2 ^ scale)
    (htie : ((m : Rat) - 1 / 2) * 2 ^ scale = a / b ∨ (a : Rat) / b = (m + 1 / 2) * 2 ^ scale → m % 2 = 0) :
    unitsOf scale a b = m := by
  have hpos := two_zpow_pos scale
  have hb' : (0 : Rat) < b := by exact_mod_cast hb
  -- in either case the fraction that is rounded is the number in units
  have hround : ∀ a' b' : Nat, 0 < b' → (a' : Rat) / b' = a / b / 2 ^ scale → roundHalfEven a' b' = m := by
    intro a' b' hb' heq
    refine roundHalfEven_eq hb' ?_ ?_ ?_
    · rw [heq, le_div_iff₀ hpos]
      exact hlow
    · rw [heq, div_le_iff₀ hpos]
      exact hhigh
    · rw [heq, eq_div_iff hpos.ne', div_eq_iff hpos.ne']
      exact htie
  unfold unitsOf
  split
  · rename_i hscale
    obtain ⟨n, rfl⟩ := Int.eq_ofNat_of_zero_le hscale
    refine hround _ _ (Nat.mul_pos hb (Nat.pow_pos (by decide))) ?_
    simp only [Int.toNat_natCast, Nat.pow_eq, Nat.cast_mul, Nat.cast_pow, Nat.cast_ofNat, zpow_natCast]
    rw [div_div]
  · obtain ⟨n, rfl⟩ : ∃ n : Nat, scale = -(n : Int) := ⟨(-scale).toNat, by omega⟩
    refine hround _ _ hb ?_
    simp only [neg_neg, Int.toNat_natCast, Nat.pow_eq, Nat.cast_mul, Nat.cast_pow, Nat.cast_ofNat, zpow_neg,
      zpow_natCast]
    field_simp

theorem log2_bounds {a : Nat} (ha : 0 < a) :
    (2 : Rat) ^ (a.log2 : Int) ≤ a ∧ (a : Rat) < 2 ^ ((a.log2 : Int) + 1) := by
  constructor
  · rw [zpow_natCast]
    exact_mod_cast Nat.log2_self_le ha.ne'
  · rw [show (a.log2 : Int) + 1 = ((a.log2 + 1 : Nat) : Int) by push_cast; rfl, zpow_natCast]
    exact_mod_cast Nat.lt_log2_self

theorem binaryExponent_bounds {a b : Nat} (ha : 0 < a) (hb : 0 < b) :
    (2 : Rat) ^ binaryExponent a b ≤ a / b ∧ (a : Rat) / b < 2 ^ (binaryExponent a b + 1) := by
  have hb' : (0 : Rat) < b := by exact_mod_cast hb
  have hla := log2_bounds ha
  have hlb := log2_bounds hb
  have hbelow : (2 : Rat) ^ ((a.log2 : Int) - b.log2 - 1) ≤ a / b := by
    rw [le_div_iff₀ hb']
    calc (2 : Rat) ^ ((a.log2 : Int) - b.log2 - 1) * b
        ≤ 2 ^ ((a.log2 : Int) - b.log2 - 1) * 2 ^ ((b.log2 : Int) + 1) := by gcongr; exact hlb.2.le
      _ = 2 ^ (a.log2 : Int) := by rw [← two_zpow_add]; congr 1; ring
      _ ≤ a := hla.1
  have habove : (a : Rat) / b < 2 ^ ((a.log2 : Int) - b.log2 + 1) := by
    rw [div_lt_iff₀ hb']
    calc (a : Rat) < 2 ^ ((a.log2 : Int) + 1) := hla.2
      _ = 2 ^ ((a.log2 : Int) - b.log2 + 1) * 2 ^ (b.log2 : Int) := by rw [← two_zpow_add]; congr 1; ring
      _ ≤ 2 ^ ((a.log2 : Int) - b.log2 + 1) * b := by gcongr; exact hlb.1
  unfold binaryExponent
  generalize hk : (a.log2 : Int) - b.log2 = k at *
  -- whether the greater of the two powers is reached is decided with whole numbers
  have hreached : (if 0 ≤ k then b * Nat.pow 2 k.toNat ≤ a else b ≤ a * Nat.pow 2 (-k).toNat) ↔
      (2 : Rat) ^ k ≤ a / b := by
    rw [le_div_iff₀ hb']
    split
    · rename_i hpos
      obtain ⟨n, rfl⟩ := Int.eq_ofNat_of_zero_le hpos
      rw [zpow_natCast, mul_comm, Int.toNat_natCast, Nat.pow_eq]
      exact_mod_cast Iff.rfl
    · obtain ⟨n, rfl⟩ : ∃ n : Nat, k = -(n : Int) := ⟨(-k).toNat, by omega⟩
      rw [zpow_neg, zpow_natCast, inv_mul_le_iff₀ (by positivity), mul_comm, neg_neg, Int.toNat_natCast,
        Nat.pow_eq]
      exact_mod_cast Iff.rfl
  simp only [hreached]
  split
  · exact ⟨‹_›, habove⟩
  · refine ⟨hbelow, ?_⟩
    rw [sub_add_cancel]
    exact not_le.mp ‹_›

theorem nearest_eq_units {f : Format} {a b : Nat} (ha : 0 < a) : nearest f a b =
    min f.infinity (((max f.lowest (binaryExponent a b - f.fraction)) - f.lowest).toNat * f.row +
      unitsOf (max f.lowest (binaryExponent a b - f.fraction)) a b) := by
  rw [nearest, if_neg ha.ne']
  rfl

/-! ## Codes -/

theorem row_pos (f : Format) : 0 < f.row := Nat.pow_pos (by decide)

theorem row_zpow (f : Format) : (f.row : Rat) = 2 ^ (f.fraction : Int) := by
  rw [Format.row, zpow_natCast, Nat.pow_eq]
  push_cast
  rfl

/-- A code, its significand and its scale. Only at the lowest scale the significand fills no row. -/
structure Splits (f : Format) (code m : Nat) (scale : Int) : Prop where
  lowest : f.lowest ≤ scale
  pos : 0 < m
  lt : m < 2 * f.row
  full : scale = f.lowest ∨ f.row ≤ m
  eq : code = (scale - f.lowest).toNat * f.row + m

theorem splits (f : Format) {code : Nat} (h : 0 < code) : Splits f code (f.significand code) (f.scale code) := by
  have hrow := row_pos f
  have hdiv := Nat.div_add_mod code f.row
  have hmod := Nat.mod_lt code hrow
  by_cases hlt : code < f.row
  · have hzero : code / f.row = 0 := Nat.div_eq_of_lt hlt
    have hm : f.significand code = code := by simp [Format.significand, hlt]
    have hs : f.scale code = f.lowest := by simp [Format.scale, hzero]
    rw [hm, hs]
    exact ⟨le_refl _, h, by omega, .inl rfl, by simp⟩
  · have hm : f.significand code = f.row + code % f.row := by simp [Format.significand, hlt]
    obtain ⟨q, hq⟩ : ∃ q, code / f.row = q + 1 :=
      Nat.exists_eq_succ_of_ne_zero (Nat.div_pos (Nat.le_of_not_lt hlt) hrow).ne'
    have hs : f.scale code = f.lowest + q := by simp [Format.scale, hq]
    have hcode : code = q * f.row + (f.row + code % f.row) := by
      rw [hq, Nat.mul_comm, Nat.succ_mul] at hdiv
      omega
    rw [hm, hs]
    refine ⟨by omega, by omega, by omega, .inr (by omega), ?_⟩
    rw [add_sub_cancel_left, Int.toNat_natCast]
    exact hcode

/-- The number lies in the interval. -/
def Interval.Holds (i : Interval) (x : Rat) : Prop :=
  if i.closed then i.low * (2 : Rat) ^ i.scale ≤ x ∧ x ≤ i.high * (2 : Rat) ^ i.scale
  else i.low * (2 : Rat) ^ i.scale < x ∧ x < i.high * (2 : Rat) ^ i.scale

/-- Whether the numbers below those of a code are twice as dense. -/
def Format.Denser (f : Format) (code : Nat) : Prop :=
  f.significand code = f.row ∧ f.row < code ∧ f.lowest < f.scale code

instance (f : Format) (code : Nat) : Decidable (f.Denser code) := by
  unfold Format.Denser
  infer_instance

/-- How far below a number its interval reaches, in units. -/
def Format.reachBelow (f : Format) (code : Nat) : Rat := if f.Denser code then 1 / 4 else 1 / 2

theorem reachBelow_le (f : Format) (code : Nat) : f.reachBelow code ≤ 1 / 2 := by
  unfold Format.reachBelow
  split <;> norm_num

/-- In units of the code the interval reaches half a unit up, and down half a unit or a quarter. -/
theorem Interval.Holds.bounds {f : Format} {code : Nat} {x : Rat} (hcode : 0 < code)
    (h : (Interval.ofCode f code).Holds x) :
    ((f.significand code : Rat) - f.reachBelow code) * 2 ^ f.scale code ≤ x ∧
      x ≤ ((f.significand code : Rat) + 1 / 2) * 2 ^ f.scale code ∧
      (((f.significand code : Rat) - f.reachBelow code) * 2 ^ f.scale code = x ∨
        x = ((f.significand code : Rat) + 1 / 2) * 2 ^ f.scale code → f.significand code % 2 = 0) := by
  have hpos := (splits f hcode).pos
  have hquarter : (2 : Rat) ^ (f.scale code - 2) = 2 ^ f.scale code / 4 := by
    rw [sub_eq_add_neg, two_zpow_add]
    norm_num
    ring
  have hlow : ((Interval.ofCode f code).low : Rat) * 2 ^ (Interval.ofCode f code).scale =
      ((f.significand code : Rat) - f.reachBelow code) * 2 ^ f.scale code := by
    simp only [Interval.ofCode, hquarter, Format.reachBelow, Bool.and_eq_true, decide_eq_true_eq, and_assoc]
    by_cases hdenser : f.Denser code
    · rw [if_pos hdenser, if_pos (show _ ∧ _ ∧ _ from hdenser), Nat.cast_sub (by omega)]
      push_cast
      ring
    · rw [if_neg hdenser, if_neg (show ¬(_ ∧ _ ∧ _) from hdenser), Nat.cast_sub (by omega)]
      push_cast
      ring
  have hhigh : ((Interval.ofCode f code).high : Rat) * 2 ^ (Interval.ofCode f code).scale =
      ((f.significand code : Rat) + 1 / 2) * 2 ^ f.scale code := by
    simp only [Interval.ofCode, hquarter]
    push_cast
    ring
  have hclosed : (Interval.ofCode f code).closed = decide (f.significand code % 2 = 0) := rfl
  rw [Interval.Holds, hlow, hhigh, hclosed] at h
  split at h
  · rename_i heven
    exact ⟨h.1, h.2, fun _ => of_decide_eq_true heven⟩
  · exact ⟨h.1.le, h.2.le, fun htie => (htie.elim h.1.ne h.2.ne).elim⟩

section

variable {f : Format} {code a b : Nat} (hb : 0 < b) (hcode : 0 < code)
  (h : (Interval.ofCode f code).Holds ((a : Rat) / b))

include hcode h

theorem pos_of_holds : 0 < a := by
  obtain ⟨hlow, -, -⟩ := h.bounds hcode
  have hpos : (1 : Rat) ≤ f.significand code := by exact_mod_cast (splits f hcode).pos
  have hreach := reachBelow_le f code
  by_contra hzero
  obtain rfl : a = 0 := by omega
  have hneg : ((f.significand code : Rat) - f.reachBelow code) * 2 ^ f.scale code > 0 := by
    have : (0 : Rat) < f.significand code - f.reachBelow code := by linarith
    positivity
  rw [Nat.cast_zero, zero_div] at hlow
  linarith

include hb

/-- A number in the interval does not reach the next power of two. -/
theorem binaryExponent_le_of_holds : binaryExponent a b - f.fraction ≤ f.scale code := by
  obtain ⟨-, hhigh, -⟩ := h.bounds hcode
  obtain ⟨hE, -⟩ := binaryExponent_bounds (pos_of_holds hcode h) hb
  have hunit := two_zpow_pos (f.scale code)
  have hlt : (f.significand code : Rat) + 1 ≤ 2 * f.row := by exact_mod_cast (splits f hcode).lt
  have hnext : (2 : Rat) ^ binaryExponent a b < 2 ^ (f.fraction + 1 + f.scale code) := by
    calc (2 : Rat) ^ binaryExponent a b ≤ (f.significand code + 1 / 2) * 2 ^ f.scale code := hE.trans hhigh
      _ < 2 * f.row * 2 ^ f.scale code := by
          have : (f.significand code : Rat) + 1 / 2 < 2 * f.row := by linarith
          gcongr
      _ = 2 ^ (f.fraction + 1 + f.scale code) := by
          rw [row_zpow, two_zpow_add, two_zpow_add, zpow_one]
          ring
  have := two_zpow_lt.mp hnext
  omega

/-- A number that reaches the power of two of the code is counted in units of the code. -/
theorem nearest_of_reaches (hfinite : code < f.infinity)
    (hsame : f.scale code = f.lowest ∨ (f.row : Rat) * 2 ^ f.scale code ≤ a / b) :
    nearest f a b = code := by
  obtain ⟨hlow, hhigh, htie⟩ := h.bounds hcode
  have ha := pos_of_holds hcode h
  have habove := binaryExponent_le_of_holds hb hcode h
  have hreach := reachBelow_le f code
  have hunit := two_zpow_pos (f.scale code)
  have hscale : max f.lowest (binaryExponent a b - f.fraction) = f.scale code := by
    rcases hsame with hlowest | hreached
    · rw [hlowest] at habove ⊢
      exact max_eq_left habove
    · have hle : (2 : Rat) ^ (f.fraction + f.scale code) < 2 ^ (binaryExponent a b + 1) := by
        rw [two_zpow_add, ← row_zpow]
        exact hreached.trans_lt (binaryExponent_bounds ha hb).2
      have := two_zpow_lt.mp hle
      have := (splits f hcode).lowest
      omega
  have hhalf : ((f.significand code : Rat) - 1 / 2) * 2 ^ f.scale code ≤
      (f.significand code - f.reachBelow code) * 2 ^ f.scale code := by gcongr
  have hunits : unitsOf (f.scale code) a b = f.significand code := by
    refine unitsOf_eq hb (hhalf.trans hlow) hhigh fun hties => htie ?_
    rcases hties with heq | heq
    · exact .inl (hlow.antisymm (heq ▸ hhalf))
    · exact .inr heq
  rw [nearest_eq_units ha, hscale, hunits, ← (splits f hcode).eq]
  exact min_eq_right hfinite.le

omit hb

/-- Only below a power of two the interval reaches numbers that are twice as dense. -/
theorem denser_of_below (hscale : f.scale code ≠ f.lowest)
    (hbelow : (a : Rat) / b < f.row * 2 ^ f.scale code) : f.Denser code := by
  obtain ⟨hlowest, -, -, hfull, hsum⟩ := splits f hcode
  obtain ⟨hlow, -, -⟩ := h.bounds hcode
  have hreach := reachBelow_le f code
  have hunit := two_zpow_pos (f.scale code)
  have hsmall : ((f.significand code : Rat) - 1 / 2) * 2 ^ f.scale code < f.row * 2 ^ f.scale code := by
    refine lt_of_le_of_lt (le_trans ?_ hlow) hbelow
    gcongr
  have hle : (f.significand code : Rat) < f.row + 1 := by
    have := lt_of_mul_lt_mul_right hsmall hunit.le
    linarith
  have hlt : f.significand code < f.row + 1 := by exact_mod_cast hle
  have hrow := hfull.resolve_left hscale
  have hstep : (f.scale code - f.lowest).toNat = (f.scale code - 1 - f.lowest).toNat + 1 := by omega
  have hpos := row_pos f
  refine ⟨by omega, ?_, by omega⟩
  rw [hsum, hstep, Nat.succ_mul]
  omega

include hb

/-- Below the power of two of the code the units are half as wide. -/
theorem nearest_of_denser (hfinite : code < f.infinity) (hd : f.Denser code)
    (hbelow : (a : Rat) / b < f.row * 2 ^ f.scale code) : nearest f a b = code := by
  obtain ⟨hlow, -, -⟩ := h.bounds hcode
  have ha := pos_of_holds hcode h
  obtain ⟨hE, hE'⟩ := binaryExponent_bounds ha hb
  have hquarter : f.reachBelow code = 1 / 4 := if_pos hd
  obtain ⟨hm, -, hlowest⟩ := hd
  have hsum := (splits f hcode).eq
  rw [hm] at hlow hsum
  generalize f.scale code = s at *
  have hstep : (s - f.lowest).toNat = (s - 1 - f.lowest).toNat + 1 := by omega
  have hhalf : (2 : Rat) ^ s = 2 * 2 ^ (s - 1) := by
    rw [← zpow_one_add₀ (by norm_num)]
    congr 1
    ring
  have hunit := two_zpow_pos (s - 1)
  rw [hquarter, hhalf] at hlow
  rw [hhalf] at hbelow
  have hE₁ : binaryExponent a b < f.fraction + s := by
    rw [← two_zpow_lt, two_zpow_add, ← row_zpow, hhalf]
    exact hE.trans_lt hbelow
  have hE₂ : f.fraction + (s - 1) < binaryExponent a b + 1 := by
    rw [← two_zpow_lt, two_zpow_add, ← row_zpow]
    refine lt_of_le_of_lt (le_trans ?_ hlow) hE'
    have hrow : (1 : Rat) ≤ f.row := by exact_mod_cast row_pos f
    nlinarith
  have hscale : max f.lowest (binaryExponent a b - f.fraction) = s - 1 := by omega
  have hunits : unitsOf (s - 1) a b = 2 * f.row := by
    refine unitsOf_eq hb ?_ ?_ fun _ => Nat.mul_mod_right 2 _
    · push_cast
      linarith
    · push_cast
      linarith
  have hcode' : (s - 1 - f.lowest).toNat * f.row + 2 * f.row = code := by
    rw [hsum, hstep]
    ring
  rw [nearest_eq_units ha, hscale, hunits, hcode']
  exact min_eq_right hfinite.le

/-- Every number in the interval of a code is nearest to that code. -/
theorem nearest_of_holds (hfinite : code < f.infinity) : nearest f a b = code := by
  by_cases hsame : f.scale code = f.lowest ∨ (f.row : Rat) * 2 ^ f.scale code ≤ a / b
  · exact nearest_of_reaches hb hcode h hfinite hsame
  · rw [not_or, not_le] at hsame
    have hdenser := denser_of_below hcode h hsame.1 hsame.2
    exact nearest_of_denser hb hcode h hfinite hdenser hsame.2

end

end Ferrite.Decimal
