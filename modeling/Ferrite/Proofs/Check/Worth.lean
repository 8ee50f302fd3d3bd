import Ferrite.Check.Rule
import Mathlib.Algebra.Order.Ring.Int

/-!
What expressions over integers and truth values are worth. Each operation is exact, and its result
is then wrapped to the width of its type. Truth values are the integers of one bit.
-/

namespace Ferrite

/-- How the values of a type are written in bits. -/
structure Form where
  width : Nat
  signed : Bool
  pos : 0 < width
  le : width ≤ 64
  deriving DecidableEq

namespace Form

def truth : Form := ⟨1, false, by decide, by decide⟩

def least (f : Form) : Int := if f.signed then -2 ^ (f.width - 1) else 0

def greatest (f : Form) : Int := if f.signed then 2 ^ (f.width - 1) - 1 else 2 ^ f.width - 1

/-- Whether an integer is a value of the form. -/
def Has (f : Form) (n : Int) : Prop := f.least ≤ n ∧ n ≤ f.greatest

instance (f : Form) (n : Int) : Decidable (f.Has n) :=
  inferInstanceAs (Decidable (f.least ≤ n ∧ n ≤ f.greatest))

/-- The value of the form that an integer is equal to, modulo the number of values. -/
def wrap (f : Form) (n : Int) : Int := if f.signed then n.bmod (2 ^ f.width) else n % 2 ^ f.width

/-- The lowest bits of an integer. -/
def bits (f : Form) (n : Int) : BitVec f.width := BitVec.ofInt f.width n

/-- The integer that bits stand for, of which the first one may be a sign. -/
def value (f : Form) {w : Nat} (x : BitVec w) : Int := if f.signed then x.toInt else x.toNat

/-- What counts are taken modulo when a value is shifted. -/
def cycle (f : Form) : Nat := if f.width ≤ 32 then 32 else 64

def count (f : Form) (n : Int) : Nat := (n % f.cycle).toNat

end Form

def IntTy.form (t : IntTy) : Form := ⟨t.width, t.isSigned, by cases t <;> decide, by cases t <;> decide⟩

/-- The form of the values of an integer type, or of truth values. -/
def Ty.form? : Ty → Option Form
  | .bool => some .truth
  | .int t => some t.form
  | _ => none

def TypeTable.form? (types : TypeTable) (id : NodeId) : Option Form := (types.get? id).bind Ty.form?

theorem TypeTable.form?_eq {types : TypeTable} {id : NodeId} {t : Ty} (h : types.get? id = some t) :
    types.form? id = t.form? := by
  rw [TypeTable.form?, h, Option.bind_some]

/-- The value of an integer or a truth value. -/
def Literal.worth : Literal → Option Int
  | .bool b => some b.toInt
  | .int t bits => some (intValue t bits)
  | _ => none

def UnaryOp.worth (f : Form) (a : Int) : UnaryOp → Int
  | .neg => f.wrap (-a)
  | .not => f.value (~~~f.bits a)

namespace BinaryOp

/-- The exact result on two values of a form, unless there is none. A quotient is rounded towards
zero. That of the least value and -1 is beyond the form: it wraps as any other result does, but in
the forms that are as wide as what their values are kept in, there is none. -/
def exact (f : Form) (a b : Int) : BinaryOp → Option Int
  | .add => some (a + b)
  | .sub => some (a - b)
  | .mul => some (a * b)
  | .div =>
      if b = 0 ∨ (f.width = 32 ∨ f.width = 64) ∧ a = f.least ∧ b = -1 then none else some (a.tdiv b)
  | .rem => if b = 0 then none else some (a.tmod b)
  | .bitAnd => some (f.value (f.bits a &&& f.bits b))
  | .bitOr => some (f.value (f.bits a ||| f.bits b))
  | .bitXor => some (f.value (f.bits a ^^^ f.bits b))
  | .shl => some (a * 2 ^ f.count b)
  | .shr => some (a / 2 ^ f.count b)
  | .eq => some (decide (a = b)).toInt
  | .ne => some (decide (a ≠ b)).toInt
  | .lt => some (decide (a < b)).toInt
  | .gt => some (decide (a > b)).toInt
  | .le => some (decide (a ≤ b)).toInt
  | .ge => some (decide (a ≥ b)).toInt
  | .assign => none

/-- The form of the result, given that of the operands. -/
def form (op : BinaryOp) (f : Form) : Form := if op.isComparison then .truth else f

def worth (op : BinaryOp) (f : Form) (a b : Int) : Option Int := (op.exact f a b).map (op.form f).wrap

end BinaryOp

namespace Expr

/-- Whether an expression is made of integers, truth values and names of such, by grouping and by
operators other than assignment. -/
def isWhole (types : TypeTable) : Expr → Bool
  | .literal _ _ value => value.worth.isSome
  | .path id _ _ => (types.form? id).isSome
  | .grouped _ _ inner => inner.isWhole types
  | .unary _ _ _ operand => operand.isWhole types
  | .binary _ _ op lhs rhs => op ≠ .assign && lhs.isWhole types && rhs.isWhole types
  | _ => false

/-- The value of an expression, from left to right, given those of the names; none if it traps. -/
def worth (types : TypeTable) (values : String → Int) : Expr → Option Int
  | .literal _ _ value => value.worth
  | .path _ _ name => some (values name.text)
  | .grouped _ _ inner => inner.worth types values
  | .unary _ _ op operand => do
      let f ← types.form? operand.id
      return op.worth f (← operand.worth types values)
  | .binary _ _ op lhs rhs => do
      let f ← types.form? lhs.id
      op.worth f (← lhs.worth types values) (← rhs.worth types values)
  | _ => none

end Expr

theorem natCast_two_pow (k : Nat) : ((2 ^ k : Nat) : Int) = 2 ^ k := by
  push_cast
  rfl

theorem natCast_toNat_ofInt (N : Nat) (n : Int) : ((BitVec.ofInt N n).toNat : Int) = n % 2 ^ N := by
  have hpos : (0 : Int) < 2 ^ N := Int.pow_pos (by decide)
  rw [BitVec.toNat_ofInt, natCast_two_pow, Int.toNat_of_nonneg (Int.emod_nonneg n (Int.ne_of_gt hpos))]

namespace Form

variable {f : Form} {n : Int}

theorem value_bits (f : Form) (n : Int) : f.value (f.bits n) = f.wrap n := by
  unfold value bits wrap
  split
  · rw [BitVec.toInt_ofInt]
  · rw [natCast_toNat_ofInt]

theorem has_value (f : Form) (x : BitVec f.width) : f.Has (f.value x) := by
  unfold Has value least greatest
  split
  · exact ⟨BitVec.le_toInt x, Int.le_sub_one_of_lt BitVec.toInt_lt⟩
  · have hlt : (x.toNat : Int) < 2 ^ f.width := by exact_mod_cast x.isLt
    exact ⟨Int.natCast_nonneg _, Int.le_sub_one_of_lt hlt⟩

theorem has_wrap (f : Form) (n : Int) : f.Has (f.wrap n) := f.value_bits n ▸ f.has_value _

theorem wrap_of_has (h : f.Has n) : f.wrap n = n := by
  obtain ⟨hleast, hgreatest⟩ := h
  unfold least greatest at *
  unfold wrap
  by_cases hs : f.signed = true
  · rw [if_pos hs] at *
    rw [← BitVec.toInt_ofInt, BitVec.toInt_ofInt_eq_self f.pos hleast (Int.lt_of_le_sub_one hgreatest)]
  · rw [if_neg hs] at *
    exact Int.emod_eq_of_lt hleast (Int.lt_of_le_sub_one hgreatest)

end Form

theorem BinaryOp.has_worth {op : BinaryOp} {f : Form} {a b n : Int} (h : op.worth f a b = some n) :
    (op.form f).Has n := by
  obtain ⟨m, -, rfl⟩ := Option.map_eq_some_iff.mp h
  exact (op.form f).has_wrap m

theorem UnaryOp.has_worth (op : UnaryOp) (f : Form) (a : Int) : f.Has (op.worth f a) := by
  cases op with
  | neg => exact f.has_wrap (-a)
  | not => exact f.has_value _

theorem Literal.has_worth {l : Literal} {n : Int} (h : l.worth = some n) :
    ∃ f, l.type.form? = some f ∧ f.Has n := by
  cases l with
  | bool b =>
    cases h
    exact ⟨.truth, rfl, by cases b <;> decide⟩
  | int t bits =>
    cases h
    exact ⟨t.form, rfl, t.form.has_value bits⟩
  | _ => cases h

end Ferrite
