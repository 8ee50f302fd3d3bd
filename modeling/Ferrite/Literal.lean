import Ferrite.Numeric
import Ferrite.Decimal.Layout

/-! Values that a source text can spell out. Numbers are kept as the bits of their type. -/

namespace Ferrite

inductive Literal
  | bool (value : Bool)
  | int (type : IntTy) (bits : BitVec type.width)
  | float (type : FloatTy) (bits : BitVec type.width)
  | text (value : String)
  deriving DecidableEq, Repr

namespace Literal

/-- The low bits of a number, as many as the type has. -/
def ofNat (t : IntTy) (n : Nat) : Literal := .int t (BitVec.ofNat t.width n)

/-- The number that the bits of an integer stand for. -/
def intValue (t : IntTy) (bits : BitVec t.width) : Int :=
  if t.isSigned then bits.toInt else bits.toNat

def floatDisplay (t : FloatTy) (bits : BitVec t.width) : String :=
  let sign := t.format.signPlace
  Decimal.Layout.literal.render t.format (sign ≤ bits.toNat) (bits.toNat % sign)

/-- Numbers carry their type behind them, apart from the two default types. -/
def display : Literal → String
  | .bool b => if b then "true" else "false"
  | .int .i32 bits => toString (intValue .i32 bits)
  | .int t bits => toString (intValue t bits) ++ t.name
  | .float .f64 bits => floatDisplay .f64 bits
  | .float .f32 bits => floatDisplay .f32 bits ++ FloatTy.f32.name
  | .text s => s

end Literal
end Ferrite
