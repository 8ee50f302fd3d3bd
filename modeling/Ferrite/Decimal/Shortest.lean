import Ferrite.Decimal.Binary

/-!
The shortest decimal that reads back as a given binary number. The numbers that read back form
an interval; the coarsest power of ten with a multiple in it decides the number of digits, and of
its multiples the one nearest to the number is taken, the larger of two equally near ones.
-/

namespace Ferrite.Decimal

/-- A fraction of natural numbers. -/
structure Ratio where
  num : Nat
  den : Nat
  deriving DecidableEq, Repr

/-- `n * base ^ k`. -/
def Ratio.scaled (base n : Nat) (k : Int) : Ratio :=
  if 0 ≤ k then ⟨n * Nat.pow base k.toNat, 1⟩ else ⟨n, Nat.pow base (-k).toNat⟩

def Ratio.le (a b : Ratio) : Bool := a.num * b.den ≤ b.num * a.den

def Ratio.lt (a b : Ratio) : Bool := a.num * b.den < b.num * a.den

def digitCount (n : Nat) : Nat := (Nat.toDigits 10 n).length

/-- The least `k` with `r < 10 ^ k`, for a positive fraction. -/
def Ratio.magnitude (r : Ratio) : Int :=
  if r.den ≤ r.num then digitCount (r.num / r.den)
  else 1 - (digitCount ((r.den - 1) / r.num) : Int)

/-- A positive number in quarters of its unit, with the quarters below and above it up to which
decimals read back, ends included or not. -/
structure Interval where
  scale : Int
  low : Nat
  value : Nat
  high : Nat
  closed : Bool
  deriving DecidableEq, Repr

namespace Interval

/-- Below a power of two the spacing is half as wide. -/
def ofCode (f : Format) (code : Nat) : Interval :=
  let m := f.significand code
  let below := if m = f.row && f.row < code && f.lowest < f.scale code then 1 else 2
  { scale := f.scale code - 2
    low := 4 * m - below
    value := 4 * m
    high := 4 * m + 2
    closed := m % 2 = 0 }

def point (i : Interval) (quarters : Nat) : Ratio := .scaled 2 quarters i.scale

def contains (i : Interval) (r : Ratio) : Bool :=
  if i.closed then (i.point i.low).le r && r.le (i.point i.high)
  else (i.point i.low).lt r && r.lt (i.point i.high)

/-- The two multiples of `10 ^ k` around the number that lie in the interval, nearer one first. -/
def candidates (i : Interval) (k : Int) : List Nat :=
  let v := i.point i.value
  let unit := Ratio.scaled 10 1 k
  let num := v.num * unit.den
  let den := v.den * unit.num
  let below := num / den
  let ordered := if 2 * (num % den) < den then [below, below + 1] else [below + 1, below]
  ordered.filter fun n => i.contains (.scaled 10 n k)

/-- Tries `k`, `k - 1`, and so on. -/
def search (i : Interval) : Nat → Int → Nat × Int
  | 0, k => (0, k)
  | tries + 1, k =>
      match i.candidates k with
      | n :: _ => (n, k)
      | [] => i.search tries (k - 1)

end Interval

/-- Moves zeros at the end into the exponent. -/
def dropZeros : Nat → Nat × Int → Nat × Int
  | 0, d => d
  | tries + 1, (n, k) =>
      if n ≠ 0 && n % 10 = 0 then dropZeros tries (n / 10, k + 1) else (n, k)

/-- Digits and power of ten of the shortest decimal for a finite code other than zero. -/
def shortest (f : Format) (code : Nat) : Nat × Int :=
  let i := Interval.ofCode f code
  let top := (i.point i.value).magnitude - 1
  dropZeros 20 (i.search 20 top)

end Ferrite.Decimal
