import Ferrite.Decimal.Binary

/-! The number types of the language. -/

namespace Ferrite

inductive IntTy | i8 | i16 | i32 | i64 | u8 | u16 | u32 | u64
  deriving DecidableEq, Repr

namespace IntTy

def all : List IntTy := [.i8, .i16, .i32, .i64, .u8, .u16, .u32, .u64]

def name : IntTy → String
  | .i8 => "i8" | .i16 => "i16" | .i32 => "i32" | .i64 => "i64"
  | .u8 => "u8" | .u16 => "u16" | .u32 => "u32" | .u64 => "u64"

/-- The number of bits. -/
def width : IntTy → Nat
  | .i8 | .u8 => 8
  | .i16 | .u16 => 16
  | .i32 | .u32 => 32
  | .i64 | .u64 => 64

def isSigned : IntTy → Bool
  | .i8 | .i16 | .i32 | .i64 => true
  | .u8 | .u16 | .u32 | .u64 => false

def greatest (t : IntTy) : Nat := Nat.pow 2 (if t.isSigned then t.width - 1 else t.width) - 1

def ofName? (name : String) : Option IntTy := all.find? (·.name = name)

theorem mem_all (t : IntTy) : t ∈ all := by cases t <;> decide

theorem ofName?_name (t : IntTy) : ofName? t.name = some t := by cases t <;> decide

end IntTy

inductive FloatTy | f32 | f64
  deriving DecidableEq, Repr

namespace FloatTy

def name : FloatTy → String
  | .f32 => "f32"
  | .f64 => "f64"

def width : FloatTy → Nat
  | .f32 => 32
  | .f64 => 64

def format : FloatTy → Decimal.Format
  | .f32 => .single
  | .f64 => .double

end FloatTy
end Ferrite
