/-!
WebAssembly instructions, as far as they are needed. Blocks hold their bodies, so branches of a
body can only lead to what surrounds it.
-/

namespace Ferrite.Wasm

inductive ValType | i32 | i64 | f32 | f64
  deriving DecidableEq, Repr

/-- The two sizes of integers and floating point numbers. -/
inductive Size | small | large
  deriving DecidableEq, Repr

def Size.int : Size → ValType
  | small => .i32
  | large => .i64

def Size.float : Size → ValType
  | small => .f32
  | large => .f64

/-- Operations from two integers to one. -/
inductive IntOp
  | add | sub | mul | divS | divU | remS | remU | and | or | xor | shl | shrS | shrU
  deriving DecidableEq, Repr

inductive IntTest | eq | ne | ltS | ltU | gtS | gtU | leS | leU | geS | geU
  deriving DecidableEq, Repr

inductive FloatOp | add | sub | mul | div
  deriving DecidableEq, Repr

inductive FloatTest | eq | ne | lt | gt | le | ge
  deriving DecidableEq, Repr

inductive Instr
  | unreachable
  | block (body : List Instr)
  | loop (body : List Instr)
  | ifThen (yes : List Instr)
  | ifElse (result : Option ValType) (yes no : List Instr)
  | br (label : Nat)
  | brIf (label : Nat)
  | ret
  | call (function : Nat)
  | drop
  | localGet (index : Nat)
  | localSet (index : Nat)
  | localTee (index : Nat)
  | i32Const (value : BitVec 32)
  | i64Const (value : BitVec 64)
  | f32Const (bits : BitVec 32)
  | f64Const (bits : BitVec 64)
  | i32Eqz
  | i32Extend8
  | i32Extend16
  | int (size : Size) (op : IntOp)
  | intTest (size : Size) (test : IntTest)
  | float (size : Size) (op : FloatOp)
  | floatTest (size : Size) (test : FloatTest)
  | floatNeg (size : Size)
  | floatTrunc (size : Size)
  deriving Repr, Inhabited

end Ferrite.Wasm
