import Ferrite.Check.Walk
import Ferrite.Lower.Value
import Ferrite.Wasm.Module

/-!
The state of lowering: how far the recorded scopes are replayed, which bodies are done, and the
locals of the function at hand.
-/

namespace Ferrite.Lower
open Wasm (ValType Instr)

/-- What does not change while a program is lowered. -/
structure Env where
  types : TypeTable
  /-- Functions by their index: those defined elsewhere, then the program's own. -/
  functions : List NodeId
  /-- The program's own functions. -/
  defined : List NodeId

/-- The locals of a function. -/
structure Locals where
  params : Nat
  /-- The types of the locals behind the parameters. -/
  types : List ValType := []
  /-- The index of each name in the blocks around, innermost block and newest name first; none
  for a name whose type has no values. -/
  frames : List (List (String × Option Nat)) := []
  deriving DecidableEq, Repr

namespace Locals

/-- A new local, and its index. -/
def add (l : Locals) (t : ValType) : Nat × Locals :=
  (l.params + l.types.length, { l with types := l.types ++ [t] })

def declare (l : Locals) (name : String) (index : Option Nat) : Locals :=
  match l.frames with
  | [] => l
  | f :: fs => { l with frames := ((name, index) :: f) :: fs }

def lookup (l : Locals) (name : String) : Option (Option Nat) :=
  l.frames.findSome? (·.lookup name)

end Locals

structure State where
  replay : Scope.Replay
  bodies : List (NodeId × Wasm.Code) := []
  locals : Locals := ⟨0, [], []⟩

abbrev Lowering := EStateM Fault State

def orFail {α : Type} : Except Fault α → Lowering α
  | .ok a => return a
  | .error f => throw f

def Env.typeOf (env : Env) (id : NodeId) : Lowering Ty :=
  match env.types.get? id with
  | some t => return t
  | none => throw (.untyped id)

/-- The type of the values that a node leaves. -/
def Env.valueOf (env : Env) (id : NodeId) : Lowering (Option ValType) := do
  orFail (valType (← env.typeOf id))

def replayed (step : Scope.Replay → Except Scope.Divergence Scope.Replay) : Lowering Unit := do
  match step (← get).replay with
  | .ok replay => modify fun s => { s with replay }
  | .error d => throw (.diverged d)

/-- Goes through the next recorded scope. -/
def inScope {α : Type} (act : Lowering α) : Lowering α := do
  replayed Scope.Replay.enter
  let a ← act
  replayed Scope.Replay.leave
  return a

def modifyLocals (f : Locals → Locals) : Lowering Unit :=
  modify fun s => { s with locals := f s.locals }

def addLocal (t : ValType) : Lowering Nat :=
  modifyGet fun s =>
    let (index, locals) := s.locals.add t
    (index, { s with locals })

/-- Names of a block of their own while the code of the block is made. -/
def inFrame {α : Type} (act : Lowering α) : Lowering α := do
  modifyLocals fun l => { l with frames := [] :: l.frames }
  let a ← act
  modifyLocals fun l => { l with frames := l.frames.tail }
  return a

/-- Makes code with locals of its own, and gives those locals too. -/
def withLocals {α : Type} (locals : Locals) (act : Lowering α) : Lowering (α × Locals) := do
  let outer := (← get).locals
  modifyLocals fun _ => locals
  let a ← act
  let inner := (← get).locals
  modifyLocals fun _ => outer
  return (a, inner)

def finishBody (id : NodeId) (code : Wasm.Code) : Lowering Unit :=
  modify fun s => { s with bodies := (id, code) :: s.bodies }

end Ferrite.Lower
