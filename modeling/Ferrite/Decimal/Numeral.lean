import Ferrite.Decimal.Binary

/-! Decimal numerals as written, and the binary number nearest to one. -/

namespace Ferrite.Decimal

/-- The number `digits * 10 ^ exponent`, written with `count` digits. -/
structure Numeral where
  digits : Nat
  count : Nat
  exponent : Int
  deriving DecidableEq, Repr

def digitValue (c : Char) : Nat := c.toNat - '0'.toNat

def natOfDigits (cs : List Char) : Nat := cs.foldl (fun n c => 10 * n + digitValue c) 0

namespace Numeral

/-- The part behind an `e`: digits with an optional sign. -/
def exponentOf? (cs : List Char) : Option Int :=
  let unsigned (ds : List Char) : Option Nat :=
    if ds ≠ [] && ds.all Char.isDigit then some (natOfDigits ds) else none
  match cs with
  | '+' :: ds => (unsigned ds).map Int.ofNat
  | '-' :: ds => (unsigned ds).map fun n => -(n : Int)
  | ds => (unsigned ds).map Int.ofNat

/-- Digits with at most one point among or around them, then an optional exponent. -/
def ofText? (cs : List Char) : Option Numeral := do
  let whole := cs.takeWhile Char.isDigit
  let rest := cs.dropWhile Char.isDigit
  let (places, rest) := match rest with
    | '.' :: r => (r.takeWhile Char.isDigit, r.dropWhile Char.isDigit)
    | r => ([], r)
  if whole = [] && places = [] then none
  let exponent ← match rest with
    | [] => some 0
    | 'e' :: r => exponentOf? r
    | 'E' :: r => exponentOf? r
    | _ => none
  let digits := whole ++ places
  return ⟨natOfDigits digits, digits.length, exponent - places.length⟩

/-- Beyond ten to this power, in either direction, every format is at its limit. -/
def reach : Int := 400

/-- The code nearest to the numeral. Numbers out of reach are not multiplied out. -/
def code (f : Format) (n : Numeral) : Nat :=
  if n.digits = 0 || n.count + n.exponent < -reach then 0
  else if reach < n.exponent then f.infinity
  else if 0 ≤ n.exponent then nearest f (n.digits * Nat.pow 10 n.exponent.toNat) 1
  else nearest f n.digits (Nat.pow 10 (-n.exponent).toNat)

end Numeral
end Ferrite.Decimal
