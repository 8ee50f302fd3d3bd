import Ferrite.Literal
import Ferrite.Lower.Fault
import Ferrite.Wasm.Instr

/-!
Values of the language as values of WebAssembly. Integers of 8 and 16 bits are kept in 32 bits,
extended by their sign or by zeros; every operation that can leave that form is followed by code
that restores it.
-/

namespace Ferrite
open Wasm (ValType Size Instr IntOp IntTest FloatOp FloatTest)

/-- The size of the WebAssembly integers that hold the type's values. -/
def IntTy.size : IntTy → Size
  | .i64 | .u64 => .large
  | _ => .small

def FloatTy.size : FloatTy → Size
  | .f32 => .small
  | .f64 => .large

namespace Lower

/-- The type of the values that stand for the type's own; none where it has no values. -/
def valType : Ty → Except Fault (Option ValType)
  | .bool => .ok (some .i32)
  | .int t => .ok (some t.size.int)
  | .float t => .ok (some t.size.float)
  | .never | .tuple [] => .ok none
  | t => .error (.value t)

/-- How the type's values are computed with. -/
inductive Arithmetic
  | int (size : Size) (signed : Bool)
  | float (size : Size)
  deriving DecidableEq, Repr

def arithmetic? : Ty → Option Arithmetic
  | .bool => some (.int .small false)
  | .int t => some (.int t.size t.isSigned)
  | .float t => some (.float t.size)
  | _ => none

def intOp? (signed : Bool) : BinaryOp → Option IntOp
  | .add => some .add
  | .sub => some .sub
  | .mul => some .mul
  | .div => some (if signed then .divS else .divU)
  | .rem => some (if signed then .remS else .remU)
  | .bitAnd => some .and
  | .bitOr => some .or
  | .bitXor => some .xor
  | .shl => some .shl
  | .shr => some (if signed then .shrS else .shrU)
  | _ => none

def intTest? (signed : Bool) : BinaryOp → Option IntTest
  | .eq => some .eq
  | .ne => some .ne
  | .lt => some (if signed then .ltS else .ltU)
  | .gt => some (if signed then .gtS else .gtU)
  | .le => some (if signed then .leS else .leU)
  | .ge => some (if signed then .geS else .geU)
  | _ => none

def floatOp? : BinaryOp → Option FloatOp
  | .add => some .add
  | .sub => some .sub
  | .mul => some .mul
  | .div => some .div
  | _ => none

def floatTest? : BinaryOp → Option FloatTest
  | .eq => some .eq
  | .ne => some .ne
  | .lt => some .lt
  | .gt => some .gt
  | .le => some .le
  | .ge => some .ge
  | _ => none

/-- The one instruction for an operator, where there is one. -/
def binaryInstr? (op : BinaryOp) : Arithmetic → Option Instr
  | .int size signed =>
      ((intOp? signed op).map (.int size)).or ((intTest? signed op).map (.intTest size))
  | .float size => ((floatOp? op).map (.float size)).or ((floatTest? op).map (.floatTest size))

def intConst : Size → Int → Instr
  | .small, n => .i32Const (BitVec.ofInt 32 n)
  | .large, n => .i64Const (BitVec.ofInt 64 n)

/-- Restores the form of integers that are narrower than what holds them. -/
def normalize : Ty → List Instr
  | .int .i8 => [.i32Extend8]
  | .int .i16 => [.i32Extend16]
  | .int .u8 => [.i32Const 0xff, .int .small .and]
  | .int .u16 => [.i32Const 0xffff, .int .small .and]
  | _ => []

/-- The code before and behind an operand. -/
def unaryCode? (op : UnaryOp) (t : Ty) : Option (List Instr × List Instr) :=
  match op, arithmetic? t with
  | .neg, some (.int size _) => some ([intConst size 0], [.int size .sub])
  | .neg, some (.float size) => some ([], [.floatNeg size])
  | .not, some (.int size _) =>
      if t = .bool then some ([], [.i32Eqz])
      else some ([], [intConst size (-1), .int size .xor])
  | _, _ => none

/-- `a - trunc(a / b) * b`, by way of two locals. -/
def floatRemainder (size : Size) (lhs rhs : Nat) : List Instr :=
  [.localSet rhs, .localTee lhs, .localGet lhs, .localGet rhs, .float size .div,
   .floatTrunc size, .localGet rhs, .float size .mul, .float size .sub]

def constant : Literal → Except Fault Instr
  | .bool b => .ok (.i32Const (if b then 1 else 0))
  | .int t bits => .ok (intConst t.size (Literal.intValue t bits))
  | .float .f32 bits => .ok (.f32Const bits)
  | .float .f64 bits => .ok (.f64Const bits)
  | .text _ => .error .stringLiteral

end Lower
end Ferrite
