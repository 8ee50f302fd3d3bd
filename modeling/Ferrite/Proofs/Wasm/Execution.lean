import Ferrite.Wasm.Instr

/-!
Execution of WebAssembly code on integers, as far as it neither branches nor calls. Instructions
take values from a stack, leave others there, and read and write locals.
-/

namespace Ferrite.Wasm

/-- The number of bits of an integer. -/
def Size.width : Size → Nat
  | small => 32
  | large => 64

inductive Value
  | i32 (bits : BitVec 32)
  | i64 (bits : BitVec 64)
  | f32 (bits : BitVec 32)
  | f64 (bits : BitVec 64)
  deriving DecidableEq, Repr

namespace Value

def int : (size : Size) → BitVec size.width → Value
  | .small, bits => .i32 bits
  | .large, bits => .i64 bits

/-- The bits of an integer of the size. -/
def int? : (size : Size) → Value → Option (BitVec size.width)
  | .small, .i32 bits | .large, .i64 bits => some bits
  | _, _ => none

/-- The outcome of a test. -/
def truth (b : Bool) : Value := .i32 (if b then 1 else 0)

@[simp] theorem int?_int (size : Size) (bits : BitVec size.width) : int? size (int size bits) = some bits := by
  cases size <;> rfl

end Value

/-- Why code ends early: it traps, or it goes on with what is not executed here. -/
inductive Halt | trap | stuck
  deriving DecidableEq, Repr

/-- The locals of a function, and its operands, newest first. -/
structure Machine where
  locals : List Value
  stack : List Value
  deriving DecidableEq, Repr

namespace Machine

def push (v : Value) (m : Machine) : Machine := { m with stack := v :: m.stack }

def pop (m : Machine) : Except Halt (Value × Machine) :=
  match m.stack with
  | [] => .error .stuck
  | v :: vs => .ok (v, { m with stack := vs })

def popInt (size : Size) (m : Machine) : Except Halt (BitVec size.width × Machine) := do
  let (v, m) ← m.pop
  match v.int? size with
  | some bits => return (bits, m)
  | none => .error .stuck

def setLocal (index : Nat) (v : Value) (m : Machine) : Except Halt Machine :=
  if index < m.locals.length then .ok { m with locals := m.locals.set index v } else .error .stuck

@[simp] theorem popInt_push (size : Size) (bits : BitVec size.width) (m : Machine) :
    (m.push (.int size bits)).popInt size = .ok (bits, m) := by
  simp [popInt, push, pop, bind, Except.bind, pure, Except.pure]

end Machine

/-- The result of an operation, unless it traps. What is shifted by is taken modulo the width. -/
def IntOp.apply {w : Nat} (x y : BitVec w) : IntOp → Option (BitVec w)
  | .add => some (x + y)
  | .sub => some (x - y)
  | .mul => some (x * y)
  | .divS => if y = 0 ∨ x = .intMin w ∧ y = -1 then none else some (x.sdiv y)
  | .divU => if y = 0 then none else some (x / y)
  | .remS => if y = 0 then none else some (x.srem y)
  | .remU => if y = 0 then none else some (x % y)
  | .and => some (x &&& y)
  | .or => some (x ||| y)
  | .xor => some (x ^^^ y)
  | .shl => some (x <<< (y.toNat % w))
  | .shrS => some (x.sshiftRight (y.toNat % w))
  | .shrU => some (x >>> (y.toNat % w))

def IntTest.apply {w : Nat} (x y : BitVec w) : IntTest → Bool
  | .eq => x == y
  | .ne => x != y
  | .ltS => x.slt y
  | .ltU => x.ult y
  | .gtS => y.slt x
  | .gtU => y.ult x
  | .leS => x.sle y
  | .leU => x.ule y
  | .geS => y.sle x
  | .geU => y.ule x

/-- What an instruction does. The newest operand is the second one of an operation. -/
def Instr.step : Instr → Machine → Except Halt Machine
  | .unreachable, _ => .error .trap
  | .drop, m => do
      let (_, m) ← m.pop
      return m
  | .localGet index, m =>
      match m.locals[index]? with
      | some v => .ok (m.push v)
      | none => .error .stuck
  | .localSet index, m => do
      let (v, m) ← m.pop
      m.setLocal index v
  | .localTee index, m => do
      let (v, _) ← m.pop
      m.setLocal index v
  | .i32Const value, m => .ok (m.push (.i32 value))
  | .i64Const value, m => .ok (m.push (.i64 value))
  | .i32Eqz, m => do
      let (x, m) ← m.popInt .small
      return m.push (.truth (x == 0))
  | .i32Extend8, m => do
      let (x, m) ← m.popInt .small
      return m.push (.int .small ((x.setWidth 8).signExtend 32))
  | .i32Extend16, m => do
      let (x, m) ← m.popInt .small
      return m.push (.int .small ((x.setWidth 16).signExtend 32))
  | .int size op, m => do
      let (y, m) ← m.popInt size
      let (x, m) ← m.popInt size
      match op.apply x y with
      | some z => return m.push (.int size z)
      | none => .error .trap
  | .intTest size test, m => do
      let (y, m) ← m.popInt size
      let (x, m) ← m.popInt size
      return m.push (.truth (test.apply x y))
  | _, _ => .error .stuck

def execute : List Instr → Machine → Except Halt Machine
  | [], m => .ok m
  | i :: is, m => do execute is (← i.step m)

section

variable {size : Size} {x y : BitVec size.width} {m : Machine}

theorem execute_append (is js : List Instr) (m : Machine) :
    execute (is ++ js) m = execute is m >>= execute js := by
  induction is generalizing m with
  | nil => rfl
  | cons i is ih =>
    rw [List.cons_append, execute, execute, bind_assoc]
    exact bind_congr fun m' => ih m'

theorem execute_singleton (i : Instr) (m : Machine) : execute [i] m = i.step m := bind_pure (i.step m)

theorem step_int (op : IntOp) :
    (Instr.int size op).step ((m.push (.int size x)).push (.int size y)) =
      match op.apply x y with
      | some z => .ok (m.push (.int size z))
      | none => .error .trap := by
  rw [Instr.step, Machine.popInt_push]
  dsimp only [bind, Except.bind]
  rw [Machine.popInt_push]
  rfl

theorem step_intTest (test : IntTest) :
    (Instr.intTest size test).step ((m.push (.int size x)).push (.int size y)) =
      .ok (m.push (.truth (test.apply x y))) := by
  rw [Instr.step, Machine.popInt_push]
  dsimp only [bind, Except.bind]
  rw [Machine.popInt_push]
  rfl

end
end Ferrite.Wasm
