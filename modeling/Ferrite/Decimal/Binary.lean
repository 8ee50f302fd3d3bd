/-!
Binary floating point: formats, the number each code stands for, and the code nearest to a
fraction. Codes without the sign are ordered as the numbers they stand for.
-/

namespace Ferrite.Decimal

/-- The widths of the fraction and exponent fields. -/
structure Format where
  fraction : Nat
  exponent : Nat
  deriving DecidableEq, Repr

namespace Format

def single : Format := ⟨23, 8⟩
def double : Format := ⟨52, 11⟩

/-- The number of codes that share one exponent field. -/
def row (f : Format) : Nat := Nat.pow 2 f.fraction

/-- The power of two that one unit of the lowest two rows stands for. -/
def lowest (f : Format) : Int := 2 - Nat.pow 2 (f.exponent - 1) - f.fraction

/-- The code of infinity; smaller codes are finite and larger ones are not numbers. -/
def infinity (f : Format) : Nat := (Nat.pow 2 f.exponent - 1) * f.row

def signPlace (f : Format) : Nat := Nat.pow 2 (f.fraction + f.exponent)

/-- The whole number in front of the power of two. -/
def significand (f : Format) (code : Nat) : Nat :=
  if code < f.row then code else f.row + code % f.row

/-- The power of two that `significand` counts. -/
def scale (f : Format) (code : Nat) : Int :=
  f.lowest + (code / f.row - 1 : Nat)

end Format

/-- `a / b` to the nearest whole number, a half going to the even neighbour. -/
def roundHalfEven (a b : Nat) : Nat :=
  let quotient := a / b
  let twice := 2 * (a % b)
  if twice < b || (twice = b && quotient % 2 = 0) then quotient else quotient + 1

/-- The largest `k` with `2 ^ k ≤ a / b`, for positive `a` and `b`. -/
def binaryExponent (a b : Nat) : Int :=
  let k : Int := (a.log2 : Int) - b.log2
  let reached := if 0 ≤ k then b * Nat.pow 2 k.toNat ≤ a else b ≤ a * Nat.pow 2 (-k).toNat
  if reached then k else k - 1

/-- The code of the number nearest to `a / b`, halves going to the even code; infinity from
half a unit above the largest finite number on. -/
def nearest (f : Format) (a b : Nat) : Nat :=
  if a = 0 then 0
  else
    let scale := max f.lowest (binaryExponent a b - f.fraction)
    let units :=
      if 0 ≤ scale then roundHalfEven a (b * Nat.pow 2 scale.toNat)
      else roundHalfEven (a * Nat.pow 2 (-scale).toNat) b
    min f.infinity ((scale - f.lowest).toNat * f.row + units)

end Ferrite.Decimal
