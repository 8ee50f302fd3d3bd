import Ferrite.Lower.Module
import Ferrite.Parse.Text
import Ferrite.Tree.Printer

/-! Source texts to modules. Each pass runs only if the passes before it reported no error. -/

namespace Ferrite

/-- What a source text is compiled for. -/
inductive Goal
  /-- Its errors alone. -/
  | check
  /-- A WebAssembly module. -/
  | wasm
  /-- The text of its tree. -/
  | tree
  deriving DecidableEq, Repr

/-- What compiling a text gave. -/
structure Compiled where
  source : Source
  program : Program
  checked : Check.Checked := {}
  log : Log
  /-- The module, where one was asked for and no error was reported. -/
  wasm : Option (List UInt8) := none

namespace Compiled

/-- The errors among the messages, counted again. -/
def errors (c : Compiled) : Nat := c.log.toList.countP (·.isError)

def ensureSuccess (c : Compiled) : Except Failure Unit :=
  if c.errors = 0 then .ok () else .error (.compilationFailed c.errors)

end Compiled

def moduleBytes (p : Program) (checked : Check.Checked) : Except Failure (List UInt8) :=
  match Lower.generate p checked with
  | .ok m => .ok m.bytes
  | .error f => .error f.failure

/-- Compiles a named text. What stops the text outright is a failure; all else is in the log. -/
def compile (file : FileId) (name text : String) (goal : Goal) : Except Failure Compiled := do
  let source := Source.ofText name text
  let parsed := Parse.ofText Parse.program file text
  let program ← parsed.result
  if goal = .tree || parsed.log.hasErrors then
    return { source, program, log := parsed.log }
  else
    let (checked, problems) := Check.run program
    let log := parsed.log.append (problems.map Check.Problem.diagnostic)
    if goal = .wasm && !log.hasErrors then
      let bytes ← moduleBytes program checked
      return { source, program, checked, log, wasm := some bytes }
    else return { source, program, checked, log }

end Ferrite
