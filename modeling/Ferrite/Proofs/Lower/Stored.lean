import Ferrite.Lower.Value
import Ferrite.Proofs.Check.Worth
import Ferrite.Proofs.Wasm.Execution
import Mathlib.Logic.Basic

/-!
Integers as WebAssembly keeps them, and what its operations make of them.
-/

namespace Ferrite
open Wasm (Size Value Instr IntOp IntTest Machine Halt execute)

theorem ite_eq_map {p q : Prop} [Decidable p] [Decidable q] {α β : Type} {g : α → β} {a : α} {b : β}
    (hpq : p ↔ q) (h : g a = b) :
    (if p then none else some b) = (if q then none else some a : Option α).map g := by
  rw [apply_ite (Option.map g), Option.map_none, Option.map_some, h]
  exact if_congr hpq rfl rfl

theorem ofInt_sub (N : Nat) (a b : Int) : BitVec.ofInt N (a - b) = BitVec.ofInt N a - BitVec.ofInt N b := by
  rw [Int.sub_eq_add_neg, BitVec.ofInt_add, BitVec.ofInt_neg, BitVec.sub_eq_add_neg]

theorem ofInt_not (N : Nat) (n : Int) : BitVec.ofInt N (-n - 1) = ~~~BitVec.ofInt N n := by
  rw [ofInt_sub, BitVec.ofInt_neg, BitVec.not_eq_neg_add]
  rfl

theorem ofInt_neg_one (N : Nat) : BitVec.ofInt N (-1) = .allOnes N := by
  rw [BitVec.ofInt_neg]
  exact BitVec.neg_one_eq_allOnes

theorem ofInt_shiftLeft (N k : Nat) (n : Int) : BitVec.ofInt N (n * 2 ^ k) = BitVec.ofInt N n <<< k := by
  have hpow : BitVec.ofInt N (2 ^ k) = BitVec.twoPow N k := by
    apply BitVec.eq_of_toNat_eq
    rw [← natCast_two_pow, BitVec.ofInt_natCast, BitVec.toNat_ofNat, BitVec.toNat_twoPow]
  rw [BitVec.ofInt_mul, hpow, BitVec.shiftLeft_eq_mul_twoPow]

theorem setWidth_ofInt {w N : Nat} (h : w ≤ N) (n : Int) : (BitVec.ofInt N n).setWidth w = BitVec.ofInt w n := by
  have hdvd : (2 : Int) ^ w ∣ 2 ^ N := by exact_mod_cast Nat.pow_dvd_pow 2 h
  apply BitVec.eq_of_toNat_eq
  rw [← Int.natCast_inj, BitVec.toNat_setWidth, Int.natCast_emod, natCast_two_pow, natCast_toNat_ofInt,
    natCast_toNat_ofInt, Int.emod_emod_of_dvd n hdvd]

namespace Form

/-- The size of the integers that values are kept in. -/
def size (f : Form) : Size := if f.width ≤ 32 then .small else .large

/-- Bits of a value extended by their sign or by zeros. -/
def extend (f : Form) (N : Nat) (x : BitVec f.width) : BitVec N :=
  if f.signed then x.signExtend N else x.setWidth N

/-- A value as it is kept. -/
def stored (f : Form) (n : Int) : Value := .int f.size (f.extend f.size.width (f.bits n))

variable {f : Form} {N k : Nat} {a b n : Int} {x y : BitVec N}

theorem width_size (f : Form) : f.size.width = f.cycle := by
  unfold size cycle
  split <;> rfl

theorem width_le_size (f : Form) : f.width ≤ f.size.width := by
  have hle := f.le
  rw [width_size, cycle]
  split <;> omega

theorem ofInt_value (f : Form) (x : BitVec N) : BitVec.ofInt N (f.value x) = x := by
  unfold value
  split
  · exact BitVec.ofInt_toInt
  · rw [BitVec.ofInt_natCast, BitVec.ofNat_toNat, BitVec.setWidth_eq]

/-- A value can be read from any bits that are enough for it. -/
theorem value_ofInt (hN : f.width ≤ N) (h : f.Has n) : f.value (BitVec.ofInt N n) = n := by
  obtain ⟨hleast, hgreatest⟩ := h
  unfold least greatest at *
  unfold value
  have hpos := f.pos
  by_cases hs : f.signed = true
  · rw [if_pos hs] at *
    have hpow : (2 : Int) ^ (f.width - 1) ≤ 2 ^ (N - 1) :=
      pow_le_pow_right₀ (by decide) (by omega)
    exact BitVec.toInt_ofInt_eq_self (by omega) (by omega) (by omega)
  · rw [if_neg hs] at *
    have hpow : (2 : Int) ^ f.width ≤ 2 ^ N := pow_le_pow_right₀ (by decide) hN
    rw [natCast_toNat_ofInt, Int.emod_eq_of_lt hleast (by omega)]

theorem extend_eq (f : Form) (N : Nat) (x : BitVec f.width) : f.extend N x = BitVec.ofInt N (f.value x) := by
  unfold extend value
  split
  · rfl
  · rw [BitVec.ofInt_natCast, BitVec.ofNat_toNat]

theorem extend_bits (f : Form) (N : Nat) (n : Int) : f.extend N (f.bits n) = BitVec.ofInt N (f.wrap n) := by
  rw [extend_eq, value_bits]

theorem stored_eq (f : Form) (n : Int) : f.stored n = .int f.size (BitVec.ofInt f.size.width (f.wrap n)) := by
  rw [stored, extend_bits]

theorem bits_wrap (f : Form) (n : Int) : f.bits (f.wrap n) = f.bits n := by
  rw [← value_bits, bits, ofInt_value]

theorem stored_wrap (f : Form) (n : Int) : f.stored (f.wrap n) = f.stored n := by
  rw [stored, bits_wrap, stored]

theorem stored_of_has (h : f.Has n) : f.stored n = .int f.size (BitVec.ofInt f.size.width n) := by
  rw [stored_eq, wrap_of_has h]

theorem ofInt_tdiv (f : Form) (x y : BitVec N) :
    BitVec.ofInt N ((f.value x).tdiv (f.value y)) = if f.signed then x.sdiv y else x / y := by
  unfold value
  split
  · apply BitVec.eq_of_toInt_eq
    rw [BitVec.toInt_sdiv, BitVec.toInt_ofInt]
  · rw [← Int.ofNat_tdiv, BitVec.ofInt_natCast, ← BitVec.toNat_udiv, BitVec.ofNat_toNat, BitVec.setWidth_eq]

theorem ofInt_tmod (f : Form) (x y : BitVec N) :
    BitVec.ofInt N ((f.value x).tmod (f.value y)) = if f.signed then x.srem y else x % y := by
  unfold value
  split
  · rw [← BitVec.toInt_srem, BitVec.ofInt_toInt]
  · rw [← Int.ofNat_tmod, BitVec.ofInt_natCast, ← BitVec.toNat_umod, BitVec.ofNat_toNat, BitVec.setWidth_eq]

theorem ofInt_div_two_pow (f : Form) (x : BitVec N) (k : Nat) :
    BitVec.ofInt N (f.value x / 2 ^ k) = if f.signed then x.sshiftRight k else x >>> k := by
  unfold value
  rw [← natCast_two_pow]
  split
  · rw [← Int.shiftRight_eq_div_pow, ← BitVec.toInt_sshiftRight, BitVec.ofInt_toInt]
  · rw [← Int.natCast_ediv, BitVec.ofInt_natCast, ← Nat.shiftRight_eq_div_pow, ← BitVec.toNat_ushiftRight,
      BitVec.ofNat_toNat, BitVec.setWidth_eq]

theorem value_lt (f : Form) (x y : BitVec N) :
    decide (f.value x < f.value y) = if f.signed then x.slt y else x.ult y := by
  unfold value
  split
  · rw [BitVec.slt_eq_decide]
  · rw [BitVec.ult_eq_decide]
    simp

theorem value_le (f : Form) (x y : BitVec N) :
    decide (f.value x ≤ f.value y) = if f.signed then x.sle y else x.ule y := by
  unfold value
  split
  · rw [BitVec.sle_eq_decide]
  · rw [BitVec.ule_eq_decide]
    simp

theorem extend_and (f : Form) (x y : BitVec f.width) : f.extend N (x &&& y) = f.extend N x &&& f.extend N y := by
  unfold extend
  split
  · exact BitVec.signExtend_and
  · exact BitVec.setWidth_and

theorem extend_or (f : Form) (x y : BitVec f.width) : f.extend N (x ||| y) = f.extend N x ||| f.extend N y := by
  unfold extend
  split
  · exact BitVec.signExtend_or
  · exact BitVec.setWidth_or

theorem extend_xor (f : Form) (x y : BitVec f.width) : f.extend N (x ^^^ y) = f.extend N x ^^^ f.extend N y := by
  unfold extend
  split
  · exact BitVec.signExtend_xor
  · exact BitVec.setWidth_xor

theorem value_inj : f.value x = f.value y ↔ x = y := by
  constructor
  · intro h
    rw [← f.ofInt_value x, h, f.ofInt_value]
  · rintro rfl
    rfl

/-- Bits of a value give those of the value back. -/
theorem extend_bits_value (h : f.Has (f.value x)) : f.extend N (f.bits (f.value x)) = x := by
  rw [extend_bits, wrap_of_has h, ofInt_value]

theorem count_value (x : BitVec f.size.width) : f.count (f.value x) = x.toNat % f.size.width := by
  have hdvd : (f.size.width : Int) ∣ 2 ^ f.size.width := by
    cases f.size <;> decide
  have hnat : (x.toNat : Int) = f.value x % 2 ^ f.size.width := by
    rw [← natCast_toNat_ofInt, ofInt_value]
  rw [count, ← width_size, ← Int.emod_emod_of_dvd _ hdvd, ← hnat, ← Int.natCast_emod, Int.toNat_natCast]

theorem value_eq_zero : f.value x = 0 ↔ x = 0 := by
  have hzero : f.value (0 : BitVec N) = 0 := by simp [value]
  rw [← hzero, value_inj]

theorem width_eq_size : f.width = f.size.width ↔ f.width = 32 ∨ f.width = 64 := by
  have hle := f.le
  rw [width_size, cycle]
  split <;> omega

/-- The least integer of a size is a value only of a form of that size. -/
theorem value_intMin {x : BitVec f.size.width} (hs : f.signed = true) (hx : f.Has (f.value x)) :
    x = .intMin f.size.width ↔ (f.width = 32 ∨ f.width = 64) ∧ f.value x = f.least := by
  have hle := f.width_le_size
  have hpos := f.pos
  have hmin : f.value (BitVec.intMin f.size.width) = -2 ^ (f.size.width - 1) := by
    rw [value, if_pos hs, BitVec.toInt_intMin_of_pos (by omega)]
  have hleast : f.least = -2 ^ (f.width - 1) := if_pos hs
  rw [← value_inj (f := f), hmin, ← width_eq_size, hleast]
  constructor
  · intro h
    have hlow := hx.1
    rw [hleast, h] at hlow
    rcases Nat.lt_or_eq_of_le hle with hlt | hwidth
    · -- The values of a narrower form are all greater.
      have hpow : 2 ^ (f.width - 1) < 2 ^ (f.size.width - 1) :=
        Nat.pow_lt_pow_right (by decide) (by omega)
      have hcast : (2 : Int) ^ (f.width - 1) < 2 ^ (f.size.width - 1) := by exact_mod_cast hpow
      omega
    · exact ⟨hwidth, by rw [h, hwidth]⟩
  · rintro ⟨hwidth, h⟩
    rw [h, ← hwidth]

theorem value_neg_one (hs : f.signed = true) (hN : 0 < N) {y : BitVec N} : f.value y = -1 ↔ y = -1 := by
  have hone : f.value (-1 : BitVec N) = -1 := by
    have hones : (-1 : BitVec N) = .allOnes N := BitVec.neg_one_eq_allOnes
    rw [value, if_pos hs, hones, BitVec.toInt_allOnes, if_pos hN]
  rw [← value_inj (f := f), hone]

/-- The one division of signed integers that overflows. -/
theorem overflows_iff {x y : BitVec f.size.width} (hs : f.signed = true) (hx : f.Has (f.value x)) :
    (x = .intMin f.size.width ∧ y = -1) ↔
      (f.width = 32 ∨ f.width = 64) ∧ f.value x = f.least ∧ f.value y = -1 := by
  rw [value_intMin hs hx, value_neg_one hs (Nat.lt_of_lt_of_le f.pos f.width_le_size), and_assoc]

variable {op : BinaryOp}

/-- Only signed integers have a division that overflows. -/
theorem not_overflows (hs : f.signed = false) {x y : BitVec f.size.width} (hy : f.Has (f.value y)) :
    ¬ ((f.width = 32 ∨ f.width = 64) ∧ f.value x = f.least ∧ f.value y = -1) := by
  rintro ⟨-, -, h⟩
  have hleast : f.least = 0 := by simp [least, hs]
  have hlow := hy.1
  omega

theorem apply_div {i : IntOp} {x y : BitVec f.size.width} (hi : Lower.intOp? f.signed .div = some i)
    (hx : f.Has (f.value x)) (hy : f.Has (f.value y)) :
    i.apply x y = (BinaryOp.exact f (f.value x) (f.value y) .div).map (BitVec.ofInt f.size.width) := by
  have hquotient := f.ofInt_tdiv x y
  cases hs : f.signed with
  | true =>
    rw [hs] at hi hquotient
    cases hi
    exact ite_eq_map (or_congr value_eq_zero.symm (overflows_iff hs hx)) hquotient
  | false =>
    rw [hs] at hi hquotient
    cases hi
    exact ite_eq_map (value_eq_zero.symm.trans (or_iff_left (not_overflows hs hy)).symm) hquotient

theorem apply_rem {i : IntOp} {x y : BitVec f.size.width} (hi : Lower.intOp? f.signed .rem = some i) :
    i.apply x y = (BinaryOp.exact f (f.value x) (f.value y) .rem).map (BitVec.ofInt f.size.width) := by
  have hremainder := f.ofInt_tmod x y
  cases hs : f.signed <;> rw [hs] at hi hremainder <;> cases hi <;>
    exact ite_eq_map value_eq_zero.symm hremainder

/-- Operations on integers of a size are those on the values, as far as the bits go. -/
theorem apply_intOp {i : IntOp} {x y : BitVec f.size.width} (hi : Lower.intOp? f.signed op = some i)
    (hx : f.Has (f.value x)) (hy : f.Has (f.value y)) :
    i.apply x y = (op.exact f (f.value x) (f.value y)).map (BitVec.ofInt f.size.width) := by
  cases op with
  | add =>
    cases hi
    rw [IntOp.apply, BinaryOp.exact, Option.map_some, BitVec.ofInt_add, ofInt_value, ofInt_value]
  | sub =>
    cases hi
    rw [IntOp.apply, BinaryOp.exact, Option.map_some, ofInt_sub, ofInt_value, ofInt_value]
  | mul =>
    cases hi
    rw [IntOp.apply, BinaryOp.exact, Option.map_some, BitVec.ofInt_mul, ofInt_value, ofInt_value]
  | div => exact apply_div hi hx hy
  | rem => exact apply_rem hi
  | bitAnd =>
    cases hi
    rw [IntOp.apply, BinaryOp.exact, Option.map_some, ← extend_eq, extend_and, extend_bits_value hx,
      extend_bits_value hy]
  | bitOr =>
    cases hi
    rw [IntOp.apply, BinaryOp.exact, Option.map_some, ← extend_eq, extend_or, extend_bits_value hx,
      extend_bits_value hy]
  | bitXor =>
    cases hi
    rw [IntOp.apply, BinaryOp.exact, Option.map_some, ← extend_eq, extend_xor, extend_bits_value hx,
      extend_bits_value hy]
  | shl =>
    cases hi
    rw [IntOp.apply, BinaryOp.exact, Option.map_some, ofInt_shiftLeft, ofInt_value, count_value]
  | shr =>
    rw [BinaryOp.exact, Option.map_some, ofInt_div_two_pow, count_value]
    cases hs : f.signed <;> rw [hs] at hi <;> cases hi <;> rfl
  | _ => cases hi

theorem apply_intTest {test : IntTest} {x y : BitVec N} (hi : Lower.intTest? f.signed op = some test) :
    op.exact f (f.value x) (f.value y) = some (test.apply x y).toInt := by
  have hlt := f.value_lt x y
  have hgt := f.value_lt y x
  have hle := f.value_le x y
  have hge := f.value_le y x
  have heq : decide (f.value x = f.value y) = (x == y) := by
    rw [decide_eq_decide.mpr value_inj]
    rfl
  cases op with
  | eq =>
    cases hi
    rw [BinaryOp.exact, heq, IntTest.apply]
  | ne =>
    cases hi
    rw [BinaryOp.exact, decide_not, heq, IntTest.apply]
    rfl
  | lt =>
    rw [BinaryOp.exact, hlt]
    cases hs : f.signed <;> rw [hs] at hi <;> cases hi <;> rfl
  | gt =>
    show some (decide (f.value y < f.value x)).toInt = _
    rw [hgt]
    cases hs : f.signed <;> rw [hs] at hi <;> cases hi <;> rfl
  | le =>
    rw [BinaryOp.exact, hle]
    cases hs : f.signed <;> rw [hs] at hi <;> cases hi <;> rfl
  | ge =>
    show some (decide (f.value y ≤ f.value x)).toInt = _
    rw [hge]
    cases hs : f.signed <;> rw [hs] at hi <;> cases hi <;> rfl
  | _ => cases hi

end Form
end Ferrite
