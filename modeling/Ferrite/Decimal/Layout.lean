import Ferrite.Decimal.Shortest

/-! How the shortest decimal is laid out: plainly or with an exponent. -/

namespace Ferrite.Decimal

/-- Which powers of ten of the first digit are written plainly, and the words for the codes that
are not finite. -/
structure Layout where
  least : Int
  greatest : Int
  infinity : String
  notANumber : String

/-- Plain from `0.0001` up to sixteen digits before the point. -/
def Layout.literal : Layout := ⟨-4, 15, "inf", "NaN"⟩

def zeros (n : Nat) : String := String.ofList (List.replicate n '0')

/-- All digits, with a point and at least one digit on each side of it. -/
def plain (digits : List Char) (exponent : Int) : String :=
  if 0 ≤ exponent then String.ofList digits ++ zeros exponent.toNat ++ ".0"
  else
    let places := (-exponent).toNat
    if places < digits.length then
      let whole := digits.length - places
      String.ofList (digits.take whole) ++ "." ++ String.ofList (digits.drop whole)
    else "0." ++ zeros (places - digits.length) ++ String.ofList digits

/-- One digit before the point, and a point only before further digits. -/
def scientific (digits : List Char) (power : Int) : String :=
  let mantissa := match digits with
    | d :: [] => String.singleton d
    | d :: ds => String.singleton d ++ "." ++ String.ofList ds
    | [] => ""
  mantissa ++ "e" ++ toString power

/-- The text of the number with the given code and sign. -/
def Layout.render (layout : Layout) (f : Format) (negative : Bool) (code : Nat) : String :=
  let sign := if negative then "-" else ""
  if f.infinity < code then layout.notANumber
  else if code = f.infinity then sign ++ layout.infinity
  else if code = 0 then sign ++ "0.0"
  else
    let (n, exponent) := shortest f code
    let digits := Nat.toDigits 10 n
    let power := exponent + digits.length - 1
    sign ++
      if layout.least ≤ power && power ≤ layout.greatest then plain digits exponent
      else scientific digits power

end Ferrite.Decimal
