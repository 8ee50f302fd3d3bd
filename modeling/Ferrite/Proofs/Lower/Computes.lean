import Ferrite.Proofs.Lower.Stored
import Ferrite.Proofs.Lower.Resolve

/-!
Code that computes values: it leaves one as it is kept, or traps where there is none.
-/

namespace Ferrite.Lower
open Wasm (Value Instr Machine Halt execute execute_append execute_singleton)

/-- A machine with a value of a form on top, or a trap. -/
def outcome (m : Machine) (f : Form) : Option Int → Except Halt Machine
  | some n => .ok (m.push (f.stored n))
  | none => .error .trap

/-- Code that leaves a value of a form, on any operands. -/
structure Computes (locals : List Value) (is : List Instr) (f : Form) (v : Option Int) : Prop where
  has : ∀ n, v = some n → f.Has n
  runs : ∀ stack, execute is ⟨locals, stack⟩ = outcome ⟨locals, stack⟩ f v

section

variable {t : Ty} {f : Form} {m : Machine} {a b n : Int}

theorem size_form (t : IntTy) : t.form.size = t.size := by cases t <;> rfl

theorem arithmetic?_of_form (hf : t.form? = some f) : arithmetic? t = some (.int f.size f.signed) := by
  cases t with
  | bool =>
    cases hf
    rfl
  | int t =>
    cases hf
    rw [arithmetic?, size_form]
    rfl
  | _ => cases hf

theorem exists_constant {l : Literal} (h : l.worth = some n) : ∃ i, constant l = .ok i := by
  cases l with
  | bool | int => exact ⟨_, rfl⟩
  | _ => cases h

theorem step_intConst (size : Wasm.Size) (n : Int) (m : Machine) :
    (intConst size n).step m = .ok (m.push (.int size (BitVec.ofInt size.width n))) := by
  cases size <;> rfl

theorem stored_truth (b : Bool) : Form.truth.stored b.toInt = .truth b := by cases b <;> decide

theorem and_mask {w N : Nat} (h : w ≤ N) (x : BitVec N) :
    x &&& BitVec.ofNat N (2 ^ w - 1) = (x.setWidth w).setWidth N := by
  have hpow : 2 ^ w ≤ 2 ^ N := Nat.pow_le_pow_right (by decide) h
  have hpos := Nat.two_pow_pos w
  apply BitVec.eq_of_toNat_eq
  rw [BitVec.toNat_and, BitVec.toNat_ofNat, Nat.mod_eq_of_lt (by omega), Nat.and_two_pow_sub_one_eq_mod,
    BitVec.toNat_setWidth, BitVec.toNat_setWidth, Nat.mod_eq_of_lt (Nat.lt_of_lt_of_le (Nat.mod_lt _ hpos) hpow)]

/-- Whatever the higher bits are, the value of the lowest ones is kept. -/
theorem execute_normalize (t : IntTy) (n : Int) (m : Machine) :
    execute (normalize (.int t)) (m.push (.int t.form.size (BitVec.ofInt t.form.size.width n))) =
      .ok (m.push (t.form.stored n)) := by
  have hsigned : ∀ w ≤ 32, m.push (.i32 (((BitVec.ofInt 32 n).setWidth w).signExtend 32)) =
      m.push (.i32 ((BitVec.ofInt w n).signExtend 32)) :=
    fun w hw => by rw [setWidth_ofInt hw]
  have hunsigned : ∀ w ≤ 32, m.push (.i32 (BitVec.ofInt 32 n &&& BitVec.ofNat 32 (2 ^ w - 1))) =
      m.push (.i32 ((BitVec.ofInt w n).setWidth 32)) :=
    fun w hw => by rw [and_mask hw, setWidth_ofInt hw]
  cases t with
  | i8 => exact congrArg Except.ok (hsigned 8 (by decide))
  | i16 => exact congrArg Except.ok (hsigned 16 (by decide))
  | u8 => exact congrArg Except.ok (hunsigned 8 (by decide))
  | u16 => exact congrArg Except.ok (hunsigned 16 (by decide))
  | i32 | i64 => exact congrArg (Except.ok ∘ m.push ∘ Value.int _) (BitVec.signExtend_eq _).symm
  | u32 | u64 => exact congrArg (Except.ok ∘ m.push ∘ Value.int _) (BitVec.setWidth_eq _).symm

theorem intOp?_isSome {op : BinaryOp} (hc : op.isComparison = false) (ho : op ≠ .assign) (signed : Bool) :
    ∃ i, intOp? signed op = some i := by
  cases op with
  | assign => exact absurd rfl ho
  | eq | ne | lt | gt | le | ge => cases hc
  | _ => exact ⟨_, rfl⟩

theorem intTest?_isSome {op : BinaryOp} (hc : op.isComparison = true) (signed : Bool) :
    ∃ i, intTest? signed op = some i ∧ intOp? signed op = none := by
  cases op with
  | eq | ne | lt | gt | le | ge => exact ⟨_, rfl, rfl⟩
  | _ => cases hc

/-- Operators that can leave the form are only there for integers. -/
theorem int_of_accepts {op : BinaryOp} (hop : op.accepts t = true) (hf : t.form? = some f)
    (hn : (op.isArithmetic || op.isShift) = true) : ∃ u, t = .int u ∧ f = u.form := by
  cases t with
  | int u => exact ⟨u, rfl, (Option.some_inj.mp hf).symm⟩
  | bool =>
    cases op with
    | add | sub | mul | div | rem | shl | shr => cases hop
    | _ => cases hn
  | _ => cases hf

/-- The other operators have their results in the form. -/
theorem has_exact {op : BinaryOp} (hc : op.isComparison = false)
    (hn : (op.isArithmetic || op.isShift) = false) (h : op.exact f a b = some n) : f.Has n := by
  cases op with
  | bitAnd | bitOr | bitXor =>
    cases h
    exact f.has_value _
  | add | sub | mul | div | rem | shl | shr => cases hn
  | assign => cases h
  | _ => cases hc

/-- The code of an operator behind two values of a form. -/
theorem execute_operator {op : BinaryOp} {i : Instr} (hf : t.form? = some f) (ho : op ≠ .assign)
    (hop : op.accepts t = true) (hi : (arithmetic? t).bind (binaryInstr? op) = some i) (ha : f.Has a)
    (hb : f.Has b) (m : Machine) :
    execute (i :: if op.isArithmetic || op.isShift then normalize t else [])
        ((m.push (f.stored a)).push (f.stored b)) = outcome m (op.form f) (op.worth f a b) := by
  have hva := Form.value_ofInt f.width_le_size ha
  have hvb := Form.value_ofInt f.width_le_size hb
  rw [arithmetic?_of_form hf, Option.bind_some, binaryInstr?] at hi
  rw [Form.stored_of_has ha, Form.stored_of_has hb]
  cases hc : op.isComparison with
  | true =>
    -- A truth value, which needs no normalizing.
    obtain ⟨test, htest, hnone⟩ := intTest?_isSome hc f.signed
    have hexact := Form.apply_intTest (x := BitVec.ofInt f.size.width a) (y := BitVec.ofInt f.size.width b) htest
    have hform : op.form f = .truth := if_pos hc
    have hn : (op.isArithmetic || op.isShift) = false := by
      cases op <;> first | rfl | cases hc
    rw [hva, hvb] at hexact
    rw [hnone, htest] at hi
    cases hi
    rw [hn, if_neg Bool.false_ne_true, execute_singleton, Wasm.step_intTest, BinaryOp.worth, hexact,
      hform, Option.map_some, outcome, Form.stored_wrap, stored_truth]
  | false =>
    obtain ⟨operation, hoperation⟩ := intOp?_isSome hc ho f.signed
    have happly := Form.apply_intOp hoperation (hva.symm ▸ ha) (hvb.symm ▸ hb)
    rw [hva, hvb] at happly
    rw [hoperation] at hi
    cases hi
    have hform : op.form f = f := if_neg (Bool.eq_false_iff.mp hc)
    rw [execute, Wasm.step_int, happly, BinaryOp.worth, hform]
    cases hexact : op.exact f a b with
    | none => rfl
    | some n =>
      show execute _ (m.push (.int f.size (BitVec.ofInt f.size.width n))) = .ok (m.push (f.stored (f.wrap n)))
      rw [Form.stored_wrap]
      cases hn : op.isArithmetic || op.isShift with
      | true =>
        obtain ⟨u, rfl, rfl⟩ := int_of_accepts hop hf hn
        exact execute_normalize u n m
      | false =>
        -- An operation on the bits, which keeps to the form without normalizing.
        rw [Form.stored_of_has (has_exact hc hn hexact)]
        rfl

theorem execute_neg (u : IntTy) (ha : u.form.Has a) (m : Machine) :
    execute ([.int u.form.size .sub] ++ normalize (.int u))
        ((m.push (.int u.form.size (BitVec.ofInt u.form.size.width 0))).push (u.form.stored a)) =
      .ok (m.push (u.form.stored (UnaryOp.neg.worth u.form a))) := by
  rw [Form.stored_of_has ha, execute_append, execute_singleton, Wasm.step_int, UnaryOp.worth, Form.stored_wrap,
    ← execute_normalize, Wasm.IntOp.apply, ← ofInt_sub, Int.zero_sub]
  rfl

theorem execute_not (u : IntTy) (ha : u.form.Has a) (m : Machine) :
    execute ([intConst u.form.size (-1), .int u.form.size .xor] ++ normalize (.int u))
        (m.push (u.form.stored a)) = .ok (m.push (u.form.stored (UnaryOp.not.worth u.form a))) := by
  have hworth : UnaryOp.not.worth u.form a = u.form.wrap (-a - 1) := by
    rw [UnaryOp.worth, Form.bits, ← ofInt_not, ← Form.bits, Form.value_bits]
  rw [hworth, Form.stored_wrap, ← execute_normalize, Form.stored_of_has ha, execute_append, execute,
    step_intConst]
  dsimp only [bind, Except.bind]
  rw [execute_singleton, Wasm.step_int, Wasm.IntOp.apply, ofInt_not, ofInt_neg_one, BitVec.xor_allOnes]

theorem execute_not_truth (ha : Form.truth.Has a) (m : Machine) :
    execute [.i32Eqz] (m.push (Form.truth.stored a)) =
      .ok (m.push (Form.truth.stored (UnaryOp.not.worth .truth a))) := by
  have hcases : a = 0 ∨ a = 1 := by
    obtain ⟨hleast, hgreatest⟩ := ha
    have hone : a ≤ 1 := hgreatest
    have hzero : 0 ≤ a := hleast
    omega
  rcases hcases with rfl | rfl <;> rfl

/-- What the code of an operator puts below its operand is there for the code behind it. -/
theorem execute_unary {op : UnaryOp} {before behind : List Instr} (hf : t.form? = some f)
    (hop : op.accepts t = true) (hu : unaryCode? op t = some (before, behind)) :
    ∃ below, ∀ locals stack, execute before ⟨locals, stack⟩ = .ok ⟨locals, below ++ stack⟩ ∧
      ∀ a, f.Has a → execute (behind ++ normalize t) ⟨locals, f.stored a :: (below ++ stack)⟩ =
        .ok ⟨locals, f.stored (op.worth f a) :: stack⟩ := by
  cases t with
  | int u =>
    cases hf
    cases op with
    | neg =>
      have hcode : unaryCode? .neg (.int u) = some ([intConst u.form.size 0], [.int u.form.size .sub]) := by
        rw [size_form]
        rfl
      cases hcode.symm.trans hu
      refine ⟨[.int u.form.size (BitVec.ofInt u.form.size.width 0)], fun locals stack => ⟨?_, ?_⟩⟩
      · rw [execute_singleton, step_intConst]
        rfl
      · exact fun a ha => execute_neg u ha ⟨locals, stack⟩
    | not =>
      have hcode : unaryCode? .not (.int u) =
          some ([], [intConst u.form.size (-1), .int u.form.size .xor]) := by
        rw [size_form]
        rfl
      cases hcode.symm.trans hu
      exact ⟨[], fun locals stack => ⟨rfl, fun a ha => execute_not u ha ⟨locals, stack⟩⟩⟩
  | bool =>
    cases hf
    cases op with
    | neg => cases hop
    | not =>
      cases hu
      exact ⟨[], fun locals stack => ⟨rfl, fun a ha => execute_not_truth ha ⟨locals, stack⟩⟩⟩
  | _ => cases hf

end

namespace Computes

variable {locals : List Value} {is js : List Instr} {t : Ty} {f : Form} {v w : Option Int} {n : Int}

theorem constant {l : Literal} {i : Instr} (hi : constant l = .ok i) (hn : l.worth = some n)
    (hf : l.type.form? = some f) : Computes locals [i] f (some n) := by
  obtain ⟨f', hf', hhas⟩ := l.has_worth hn
  cases hf.symm.trans hf'
  refine ⟨fun _ h => Option.some_inj.mp h ▸ hhas, fun stack => ?_⟩
  cases l with
  | bool b =>
    cases hi
    cases hf
    cases hn
    rw [execute_singleton, outcome, stored_truth]
    rfl
  | int t bits =>
    cases hi
    cases hf
    cases hn
    rw [execute_singleton, ← size_form, step_intConst, outcome, Form.stored_of_has hhas]
  | _ => cases hn

theorem localGet {index : Nat} (h : locals[index]? = some (f.stored n)) (hn : f.Has n) :
    Computes locals [.localGet index] f (some n) where
  has := by
    rintro _ ⟨⟩
    exact hn
  runs stack := by
    rw [execute_singleton, Wasm.Instr.step, h]
    rfl

theorem unary {op : UnaryOp} {before behind : List Instr} (h : Computes locals is f v)
    (hf : t.form? = some f) (hop : op.accepts t = true) (hu : unaryCode? op t = some (before, behind)) :
    Computes locals (before ++ is ++ behind ++ normalize t) f (do return op.worth f (← v)) where
  has n hn := by
    obtain ⟨a, -, hn⟩ := Option.bind_eq_some_iff.mp hn
    cases hn
    exact op.has_worth f a
  runs stack := by
    obtain ⟨below, hcode⟩ := execute_unary hf hop hu
    obtain ⟨hbefore, hbehind⟩ := hcode locals stack
    rw [List.append_assoc, List.append_assoc, execute_append, hbefore]
    show execute (is ++ _) _ = _
    rw [execute_append, h.runs]
    cases hv : v with
    | none => rfl
    | some a => exact hbehind a (h.has a hv)

theorem binary {op : BinaryOp} {i : Instr} (h : Computes locals is f v) (h' : Computes locals js f w)
    (hf : t.form? = some f) (ho : op ≠ .assign) (hop : op.accepts t = true)
    (hi : (arithmetic? t).bind (binaryInstr? op) = some i) :
    Computes locals (is ++ js ++ (i :: if op.isArithmetic || op.isShift then normalize t else []))
      (op.form f) (do op.worth f (← v) (← w)) where
  has n hn := by
    obtain ⟨a, -, hn⟩ := Option.bind_eq_some_iff.mp hn
    obtain ⟨b, -, hn⟩ := Option.bind_eq_some_iff.mp hn
    exact BinaryOp.has_worth hn
  runs stack := by
    rw [List.append_assoc, execute_append, h.runs]
    cases hv : v with
    | none => rfl
    | some a =>
      show execute (js ++ _) _ = _
      rw [execute_append, Machine.push, h'.runs]
      cases hw : w with
      | none => rfl
      | some b => exact execute_operator hf ho hop hi (h.has a hv) (h'.has b hw) ⟨locals, stack⟩

end Computes
end Ferrite.Lower
