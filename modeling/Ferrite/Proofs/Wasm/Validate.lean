import Ferrite.Wasm.Module

/-!
Validation of WebAssembly code. Instructions take operands from a stack of types and leave others
there. Behind a branch, a `return` or an `unreachable` nothing is reached, and the stack holds as
many operands of any type as are asked for.
-/

namespace Ferrite.Wasm

/-- What the instructions of a function may refer to. -/
structure Context where
  function? : Nat → Option FuncType
  locals : List ValType
  results : List ValType
  /-- The types of what a branch takes to each label, innermost label first. -/
  labels : List (List ValType) := []

/-- The context inside a block with a label. -/
def Context.inside (C : Context) (label : List ValType) : Context :=
  { C with labels := label :: C.labels }

/-- The operands of the innermost block, newest first. -/
structure Operands where
  known : List ValType := []
  unreachable : Bool := false
  deriving DecidableEq, Repr

namespace Operands

/-- Where nothing is reached. -/
def nowhere : Operands := ⟨[], true⟩

def push (ts : List ValType) (s : Operands) : Operands := { s with known := ts.reverse ++ s.known }

/-- Takes an operand of any type. -/
def drop (s : Operands) : Option Operands :=
  match s.known with
  | [] => if s.unreachable then some s else none
  | _ :: us => some { s with known := us }

def pop (t : ValType) (s : Operands) : Option Operands :=
  match s.known with
  | [] => if s.unreachable then some s else none
  | u :: us => if u = t then some { s with known := us } else none

/-- Takes operands, the newest of which has the first type. -/
def popAll : List ValType → Operands → Option Operands
  | [], s => some s
  | t :: ts, s => (s.pop t).bind (popAll ts)

/-- Takes the operands of a type of functions, and leaves its results. -/
def apply (t : FuncType) (s : Operands) : Option Operands :=
  (s.popAll t.params.reverse).map (push t.results)

/-- Whether a block may end with the results: they are there, and nothing else is. -/
def ends (results : List ValType) (s : Operands) : Bool :=
  (s.popAll results.reverse).any (·.known.isEmpty)

end Operands

/-- What an instruction takes and leaves that neither branches nor holds other instructions. -/
def Instr.type? (C : Context) : Instr → Option FuncType
  | .call f => C.function? f
  | .localGet i => C.locals[i]?.map fun t => ⟨[], [t]⟩
  | .localSet i => C.locals[i]?.map fun t => ⟨[t], []⟩
  | .localTee i => C.locals[i]?.map fun t => ⟨[t], [t]⟩
  | .i32Const _ => some ⟨[], [.i32]⟩
  | .i64Const _ => some ⟨[], [.i64]⟩
  | .f32Const _ => some ⟨[], [.f32]⟩
  | .f64Const _ => some ⟨[], [.f64]⟩
  | .i32Eqz | .i32Extend8 | .i32Extend16 => some ⟨[.i32], [.i32]⟩
  | .int size _ => some ⟨[size.int, size.int], [size.int]⟩
  | .intTest size _ => some ⟨[size.int, size.int], [.i32]⟩
  | .float size _ => some ⟨[size.float, size.float], [size.float]⟩
  | .floatTest size _ => some ⟨[size.float, size.float], [.i32]⟩
  | .floatNeg size | .floatTrunc size => some ⟨[size.float], [size.float]⟩
  | _ => none

mutual
/-- The operands behind an instruction, if it may stand there. -/
def Instr.check (C : Context) : Instr → Operands → Option Operands
  | .unreachable, _ => some .nowhere
  | .block body, s => if (check (C.inside []) body {}).any (·.ends []) then some s else none
  | .loop body, s => if (check (C.inside []) body {}).any (·.ends []) then some s else none
  | .ifThen yes, s => if (check (C.inside []) yes {}).any (·.ends []) then s.pop .i32 else none
  | .ifElse result yes no, s =>
      if (check (C.inside result.toList) yes {}).any (·.ends result.toList) &&
          (check (C.inside result.toList) no {}).any (·.ends result.toList) then
        s.apply ⟨[.i32], result.toList⟩
      else none
  | .br label, s => C.labels[label]?.bind fun ts => (s.popAll ts.reverse).map fun _ => .nowhere
  | .brIf label, s => C.labels[label]?.bind fun ts => (s.pop .i32).bind (·.apply ⟨ts, ts⟩)
  | .ret, s => (s.popAll C.results.reverse).map fun _ => .nowhere
  | .drop, s => s.drop
  | i, s => (i.type? C).bind s.apply

/-- The operands behind a sequence of instructions, if it may stand there. -/
def check (C : Context) : List Instr → Operands → Option Operands
  | [], s => some s
  | i :: is, s => (i.check C s).bind (check C is)
end

attribute [simp] Instr.check check

/-- A block has to end without operands, also where its end is not reached. -/
example : check { function? := fun _ => none, locals := [], results := [] }
    [.block [.ret, .i32Const 1]] {} = none := by rfl

/-- The type of a function by its index: imported functions come first. -/
def Module.functionType? (m : Module) (function : Nat) : Option FuncType :=
  (m.imports.map Import.type ++ m.functions)[function]?.bind (m.types[·]?)

/-- What the code of a function of the given type may refer to. A branch out of it is a `return`. -/
def Module.context (m : Module) (t : FuncType) (c : Code) : Context where
  function? := m.functionType?
  locals := t.params ++ c.locals
  results := t.results
  labels := [t.results]

/-- Whether the code gives the results of the type from its parameters. -/
def Module.validCode (m : Module) (t : FuncType) (c : Code) : Bool :=
  (check (m.context t c) c.body {}).any (·.ends t.results)

/-- Whether the module has code for each of its functions, which is valid for the function's type. -/
def Module.valid (m : Module) : Bool :=
  m.functions.length = m.codes.length &&
    (m.functions.zip m.codes).all fun (type, code) => m.types[type]?.any (m.validCode · code)

end Ferrite.Wasm
