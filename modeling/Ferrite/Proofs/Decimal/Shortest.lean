import Ferrite.Proofs.Decimal.Nearest

/-!
The search for the shortest decimal finds one, and the one that it finds lies in the interval of the
code.
-/

namespace Ferrite.Decimal

theorem ten_zpow_pos (k : Int) : (0 : Rat) < 10 ^ k := by positivity

/-! ## Fractions -/

namespace Ratio

def value (r : Ratio) : Rat := r.num / r.den

theorem scaled_den_pos {base : Nat} (hbase : 0 < base) (n : Nat) (k : Int) : 0 < (scaled base n k).den := by
  unfold scaled
  split
  · exact Nat.one_pos
  · exact Nat.pow_pos hbase

theorem scaled_value (base n : Nat) (k : Int) : (scaled base n k).value = n * (base : Rat) ^ k := by
  unfold scaled value
  split
  · rename_i hk
    obtain ⟨j, rfl⟩ := Int.eq_ofNat_of_zero_le hk
    simp [Nat.pow_eq]
  · obtain ⟨j, rfl⟩ : ∃ j : Nat, k = -(j : Int) := ⟨(-k).toNat, by omega⟩
    simp [Nat.pow_eq, div_eq_mul_inv]

theorem le_iff {a b : Ratio} (ha : 0 < a.den) (hb : 0 < b.den) : a.le b = true ↔ a.value ≤ b.value := by
  have ha' : (0 : Rat) < a.den := by exact_mod_cast ha
  have hb' : (0 : Rat) < b.den := by exact_mod_cast hb
  rw [le, value, value, div_le_div_iff₀ ha' hb', decide_eq_true_eq]
  exact_mod_cast Iff.rfl

theorem lt_iff {a b : Ratio} (ha : 0 < a.den) (hb : 0 < b.den) : a.lt b = true ↔ a.value < b.value := by
  have ha' : (0 : Rat) < a.den := by exact_mod_cast ha
  have hb' : (0 : Rat) < b.den := by exact_mod_cast hb
  rw [lt, value, value, div_lt_div_iff₀ ha' hb', decide_eq_true_eq]
  exact_mod_cast Iff.rfl

end Ratio

theorem lt_pow_digitCount (n : Nat) : n < 10 ^ digitCount n :=
  (Nat.length_toDigits_le_iff (by decide) Nat.length_toDigits_pos).mp (Nat.le_refl _)

theorem pow_digitCount_le {n : Nat} (h : 0 < n) : 10 ^ (digitCount n - 1) ≤ n := by
  have hpos : 0 < digitCount n := Nat.length_toDigits_pos
  by_contra hlt
  by_cases hone : digitCount n = 1
  · rw [hone] at hlt
    omega
  · have hle := (Nat.length_toDigits_le_iff (by decide) (by omega)).mpr (Nat.lt_of_not_le hlt)
    change digitCount n ≤ digitCount n - 1 at hle
    omega

/-- The power of ten below the magnitude is reached. -/
theorem Ratio.magnitude_le {r : Ratio} (hnum : 0 < r.num) (hden : 0 < r.den) :
    (10 : Rat) ^ (r.magnitude - 1) ≤ r.value := by
  have hden' : (0 : Rat) < r.den := by exact_mod_cast hden
  rw [value, le_div_iff₀ hden']
  unfold magnitude
  split
  · rename_i hle
    have hpow : 10 ^ (digitCount (r.num / r.den) - 1) * r.den ≤ r.num :=
      (Nat.mul_le_mul_right _ (pow_digitCount_le (Nat.div_pos hle hden))).trans (Nat.div_mul_le_self _ _)
    have hpos : 0 < digitCount (r.num / r.den) := Nat.length_toDigits_pos
    rw [← Nat.cast_pred hpos, zpow_natCast]
    exact_mod_cast hpow
  · have hpow : r.den ≤ r.num * 10 ^ digitCount ((r.den - 1) / r.num) := by
      have hlt := (Nat.div_lt_iff_lt_mul hnum).mp (lt_pow_digitCount ((r.den - 1) / r.num))
      rw [Nat.mul_comm] at hlt
      omega
    rw [sub_sub_cancel_left, zpow_neg, zpow_natCast, inv_mul_le_iff₀ (by positivity), mul_comm]
    exact_mod_cast hpow

/-! ## Intervals -/

namespace Interval

theorem contains_iff {i : Interval} {r : Ratio} (hr : 0 < r.den) : i.contains r = true ↔ i.Holds r.value := by
  have hpoint : ∀ q, (i.point q).value = q * (2 : Rat) ^ i.scale := fun q => by
    rw [point, Ratio.scaled_value]
    rfl
  have hden : ∀ q, 0 < (i.point q).den := fun q => Ratio.scaled_den_pos (by decide) q i.scale
  unfold contains Holds
  split
  · rw [Bool.and_eq_true, Ratio.le_iff (hden _) hr, Ratio.le_iff hr (hden _), hpoint, hpoint]
  · rw [Bool.and_eq_true, Ratio.lt_iff (hden _) hr, Ratio.lt_iff hr (hden _), hpoint, hpoint]

theorem holds_of_lt {i : Interval} {x : Rat} (hlow : i.low * (2 : Rat) ^ i.scale < x)
    (hhigh : x < i.high * (2 : Rat) ^ i.scale) : i.Holds x := by
  unfold Holds
  split
  · exact ⟨hlow.le, hhigh.le⟩
  · exact ⟨hlow, hhigh⟩

theorem holds_of_mem_candidates {i : Interval} {n : Nat} {k : Int} (h : n ∈ i.candidates k) :
    i.Holds (n * (10 : Rat) ^ k) := by
  have hcontains : i.contains (.scaled 10 n k) = true := (List.mem_filter.mp h).2
  rw [contains_iff (Ratio.scaled_den_pos (by decide) n k), Ratio.scaled_value] at hcontains
  exact hcontains

/-- The powers of ten that are small enough have a multiple in the interval. -/
theorem candidates_ne_nil {i : Interval} {k : Int} (hlow : i.low < i.value)
    (hk : i.value * (2 : Rat) ^ i.scale + 10 ^ k < i.high * 2 ^ i.scale) : i.candidates k ≠ [] := by
  have hten := ten_zpow_pos k
  have hunit : 0 < (Ratio.scaled 10 1 k).num := by
    unfold Ratio.scaled
    split
    · rw [Nat.one_mul]
      exact Nat.pow_pos (by decide)
    · exact Nat.one_pos
  have hvden : 0 < (i.point i.value).den := Ratio.scaled_den_pos (by decide) _ _
  have hden := Nat.mul_pos hvden hunit
  -- the number counted in the power of ten, rounded down
  obtain ⟨below, hbelow⟩ : ∃ below, (i.point i.value).num * (Ratio.scaled 10 1 k).den /
      ((i.point i.value).den * (Ratio.scaled 10 1 k).num) = below := ⟨_, rfl⟩
  have hcount : (((i.point i.value).num * (Ratio.scaled 10 1 k).den : Nat) : Rat) /
      ((i.point i.value).den * (Ratio.scaled 10 1 k).num : Nat) = i.value * 2 ^ i.scale / 10 ^ k := by
    have hv : (i.point i.value).value = i.value * (2 : Rat) ^ i.scale := Ratio.scaled_value _ _ _
    have hu : (Ratio.scaled 10 1 k).value = (10 : Rat) ^ k := by
      rw [Ratio.scaled_value, Nat.cast_one, one_mul]
      rfl
    rw [← hv, ← hu, Ratio.value, Ratio.value, div_div_div_eq]
    push_cast
    rfl
  have hden' : (0 : Rat) < ((i.point i.value).den * (Ratio.scaled 10 1 k).num : Nat) := by exact_mod_cast hden
  have hle : (below : Rat) * 10 ^ k ≤ i.value * 2 ^ i.scale := by
    rw [← le_div_iff₀ hten, ← hcount, le_div_iff₀ hden']
    exact_mod_cast hbelow ▸ Nat.div_mul_le_self _ _
  have hlt : i.value * (2 : Rat) ^ i.scale < (below + 1) * 10 ^ k := by
    rw [← div_lt_iff₀ hten, ← hcount, div_lt_iff₀ hden']
    exact_mod_cast (Nat.div_lt_iff_lt_mul hden).mp (by omega)
  have hholds : i.Holds ((below + 1 : Nat) * (10 : Rat) ^ k) := by
    push_cast
    refine holds_of_lt (lt_trans ?_ hlt) ?_
    · have hlow' : (i.low : Rat) < i.value := by exact_mod_cast hlow
      have := two_zpow_pos i.scale
      gcongr
    · linarith
  refine List.ne_nil_of_mem (a := below + 1) (List.mem_filter.mpr ⟨?_, ?_⟩)
  · rw [hbelow]
    split <;> simp
  · rw [contains_iff (Ratio.scaled_den_pos (by decide) _ k), Ratio.scaled_value]
    exact hholds

theorem search_holds {i : Interval} {tries : Nat} {k : Int}
    (h : ∃ j : Nat, j < tries ∧ i.candidates (k - j) ≠ []) :
    i.Holds ((i.search tries k).1 * (10 : Rat) ^ (i.search tries k).2) := by
  induction tries generalizing k with
  | zero =>
    obtain ⟨j, hj, -⟩ := h
    exact absurd hj (Nat.not_lt_zero j)
  | succ tries ih =>
    rw [search]
    split
    · rename_i n rest heq
      exact holds_of_mem_candidates (by rw [heq]; exact List.mem_cons_self)
    · rename_i heq
      obtain ⟨j, hj, hne⟩ := h
      cases j with
      | zero => exact absurd heq (by simpa using hne)
      | succ j =>
        refine ih ⟨j, Nat.lt_of_succ_lt_succ hj, ?_⟩
        rwa [sub_sub, add_comm, ← Nat.cast_succ]

end Interval

theorem dropZeros_value (tries : Nat) (d : Nat × Int) :
    ((dropZeros tries d).1 : Rat) * 10 ^ (dropZeros tries d).2 = d.1 * 10 ^ d.2 := by
  induction tries generalizing d with
  | zero => rfl
  | succ tries ih =>
    obtain ⟨n, k⟩ := d
    rw [dropZeros]
    split
    · rename_i hzero
      rw [ih]
      simp only [ne_eq, Bool.and_eq_true, decide_eq_true_eq] at hzero
      have hn : n = n / 10 * 10 := by omega
      have hn' : (n : Rat) = (n / 10 : Nat) * 10 := by exact_mod_cast hn
      rw [zpow_add_one₀ (by norm_num), hn']
      ring
    · rfl

/-- The shortest decimal of a code lies in the interval of the code. -/
theorem shortest_holds {f : Format} {code : Nat} (hrow : 4 * f.row ≤ 10 ^ 19) (hcode : 0 < code) :
    (Interval.ofCode f code).Holds ((shortest f code).1 * (10 : Rat) ^ (shortest f code).2) := by
  obtain ⟨-, hpos, hlt, -⟩ := splits f hcode
  have hunit := two_zpow_pos (f.scale code)
  have hlt' : (f.significand code : Rat) < 2 * f.row := by exact_mod_cast hlt
  have hrow' : 4 * (f.row : Rat) ≤ 10 ^ (19 : Int) := by exact_mod_cast hrow
  have hhalf : (2 : Rat) ^ f.scale code = 4 * 2 ^ (f.scale code - 2) := by
    rw [sub_eq_add_neg, two_zpow_add]
    norm_num
    ring
  have hscale : (Interval.ofCode f code).scale = f.scale code - 2 := rfl
  have hmiddle : (Interval.ofCode f code).value = 4 * f.significand code := rfl
  have hhigh : (Interval.ofCode f code).high = 4 * f.significand code + 2 := rfl
  have hlow : (Interval.ofCode f code).low < (Interval.ofCode f code).value := by
    simp only [Interval.ofCode]
    split <;> omega
  rw [shortest, dropZeros_value]
  generalize Interval.ofCode f code = i at *
  have hvalue : (i.point i.value).value = f.significand code * 2 ^ f.scale code := by
    rw [Interval.point, Ratio.scaled_value, hhalf, hmiddle, hscale]
    push_cast
    ring
  have hnum : 0 < (i.point i.value).num := by
    rw [Interval.point, Ratio.scaled, hmiddle]
    split
    · exact Nat.mul_pos (Nat.mul_pos (by decide) hpos) (Nat.pow_pos (by decide))
    · exact Nat.mul_pos (by decide) hpos
  have hreached := Ratio.magnitude_le hnum (Ratio.scaled_den_pos (by decide) _ _)
  rw [hvalue] at hreached
  generalize (i.point i.value).magnitude - 1 = top at *
  -- nineteen places further down a unit of the decimal is less than half a unit of the code
  refine Interval.search_holds ⟨19, by decide, Interval.candidates_ne_nil hlow ?_⟩
  have hten : (10 : Rat) ^ (top - 19) < 2 * 2 ^ (f.scale code - 2) := by
    rw [zpow_sub₀ (by norm_num), div_lt_iff₀ (by positivity)]
    calc (10 : Rat) ^ top ≤ f.significand code * 2 ^ f.scale code := hreached
      _ < 2 * f.row * 2 ^ f.scale code := by gcongr
      _ = 2 * 2 ^ (f.scale code - 2) * (4 * f.row) := by rw [hhalf]; ring
      _ ≤ 2 * 2 ^ (f.scale code - 2) * 10 ^ (19 : Int) := by gcongr
  rw [hmiddle, hhigh, hscale]
  push_cast
  linarith

end Ferrite.Decimal
