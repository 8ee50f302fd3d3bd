import Ferrite.Lower.Code
import Ferrite.Tree.Walk

/-!
The module of a program. Functions that are defined elsewhere come first in the order of
functions, then those of the program, each before the functions inside it. Functions at the top
of the program are exported under their names.
-/

namespace Ferrite.Lower
open Wasm (ValType FuncType Import Export Module)

/-- A function of another module, by the convention that names the module. -/
structure Foreign where
  abi : String
  header : Header

def foreignOf : Item → List Foreign
  | .foreign _ abi functions => functions.map (⟨abi, ·⟩)
  | .function .. => []

def definedOf : Item → Option Header
  | .function h _ => some h
  | .foreign .. => none

/-- The functions of other modules that a program declares. -/
def foreigns (p : Program) : List Foreign := p.allItems.flatMap foreignOf

/-- The functions that a program defines. -/
def definitions (p : Program) : List Header := p.allItems.filterMap definedOf

/-- The functions of a program in the order of their indices. -/
def headers (p : Program) : List Header := (foreigns p).map Foreign.header ++ definitions p

def paramType (function : String) (t : Ty) : Except Fault ValType := do
  match ← valType t with
  | some v => return v
  | none => throw (.param t function)

def funcType (h : Header) : Except Fault FuncType := do
  let params ← h.signature.params.mapM (paramType h.name.text)
  return ⟨params, (← valType h.signature.result).toList⟩

def env (p : Program) (types : TypeTable) : Env :=
  { types
    functions := (headers p).map Header.id
    defined := (definitions p).map Header.id }

/-- The bodies of all functions, made while the whole record is replayed. -/
def bodies (p : Program) (checked : Check.Checked) :
    Except Fault (List (NodeId × Wasm.Code)) :=
  let start : State := { replay := { record := checked.record } }
  match inScope (items (env p checked.types) p.items) start with
  | .error f _ => .error f
  | .ok _ s => if s.replay.isFinished then .ok s.bodies else .error (.diverged .unfinished)

def codeOf (bodies : List (NodeId × Wasm.Code)) (h : Header) : Except Fault Wasm.Code :=
  match bodies.lookup h.id with
  | some code => .ok code
  | none => .error (.noBody h.name.text)

def imports (p : Program) : List Import :=
  (foreigns p).zipIdx.map fun (f, i) => ⟨f.abi, f.header.name.text, i⟩

def exports (p : Program) : List Export :=
  let ids := (headers p).map Header.id
  let top := (p.items.filterMap definedOf).map Header.id
  ((definitions p).filter (·.id ∈ top)).map fun h =>
    ⟨h.name.text, (ids.idxOf? h.id).getD 0⟩

/-- The module of a program, given what checking it found out. -/
def generate (p : Program) (checked : Check.Checked) : Except Fault Module := do
  let bodies ← bodies p checked
  let types ← (headers p).mapM funcType
  let codes ← (definitions p).mapM (codeOf bodies)
  return {
    types
    imports := imports p
    functions := (definitions p).zipIdx (foreigns p).length |>.map (·.2)
    exports := exports p
    codes }

end Ferrite.Lower
