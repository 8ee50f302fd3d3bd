import Ferrite.CommandLine.Options
import Ferrite.CommandLine.Output
import Ferrite.Files.Collect

/-! Runs of the command line over all its inputs. -/

namespace Ferrite.CommandLine

/-- Why one input failed. -/
inductive Trouble
  | collect (failure : Failure)
  | read (input : Path) (fault : FileFault)
  | compile (input : Path) (failure : Failure)
  | noModule (input : Path)
  | write (error : WriteError)
  deriving DecidableEq, Repr

/-- A failure with the cause behind it, where it has one. -/
def causeChain (f : Failure) : String :=
  match f with
  | .unreadable _ cause => f.message ++ ": " ++ cause
  | f => f.message

def Trouble.message : Trouble → String
  | collect f => "failed to collect source files: " ++ causeChain f
  | read input fault => "failed to read input file " ++ input.display ++ ": " ++ fault.message
  | compile input f => "failed to compile " ++ input.display ++ ": " ++ causeChain f
  | noModule input =>
      Failure.message (.lowering ("no wasm module was produced for " ++ input.display))
  | write e => e.message

/-- What the work on one input printed, line by line, and how it ended. -/
structure Outcome where
  out : List String := []
  err : List String := []
  trouble : Option Trouble := none
  deriving DecidableEq, Repr

namespace Outcome

def failed (o : Outcome) : Bool := o.trouble.isSome

/-- The lines for the error stream, with the trouble last. -/
def complaints (o : Outcome) : List String :=
  o.err ++ (o.trouble.map fun t => "error: " ++ t.message).toList

end Outcome

/-- The line that shows where a failure lies in a text. -/
def failureLine? (source : Source) (f : Failure) : Option String :=
  f.span?.map fun span =>
    source.name ++ ":" ++ (source.position span.start).display ++ ": error: " ++ f.message

variable {m : Type → Type} [Monad m]

/-- Gives what a text without errors was compiled for. -/
def deliver (disk : Disk m) (options : Options) (input : Path) (compiled : Compiled) :
    m (List String × Option Trouble) := do
  match options.goal.getD .check, compiled.wasm with
  | .check, _ => return ([], none)
  | .tree, _ => return ([compiled.program.print], none)
  | .wasm, none => return ([], some (.noModule input))
  | .wasm, some bytes =>
      match ← writeModule disk (outputPath options.outDir input) bytes with
      | .ok () => return ([], none)
      | .error e => return ([], some (.write e))

def processText (disk : Disk m) (options : Options) (file : FileId) (input : Path)
    (text : String) : m Outcome := do
  let name := input.display
  match compile file name text (options.goal.getD .check) with
  | .error f =>
      let err := (failureLine? (.ofText name text) f).toList
      return { err, trouble := some (.compile input f) }
  | .ok compiled =>
      let err := compiled.log.toList.map (·.render compiled.source)
      match compiled.ensureSuccess with
      | .error f => return { err, trouble := some (.compile input f) }
      | .ok () =>
          let (out, trouble) ← deliver disk options input compiled
          return { out, err, trouble }

def process (disk : Disk m) (options : Options) (file : FileId) :
    Except Failure Path → m Outcome
  | .error f => return { trouble := some (.collect f) }
  | .ok input => do
      match ← disk.readText input with
      | .error fault => return { trouble := some (.read input fault) }
      | .ok text => processText disk options file input text

/-- All that a run prints on its two streams, and the code it ends with. -/
structure Report where
  code : Nat
  out : String
  err : String
  deriving DecidableEq, Repr

def banner : String := "RustyC v0.1.0"

def lines (ls : List String) : String := String.join (ls.map (· ++ "\n"))

def summary? (outcomes : List Outcome) : Option String :=
  let failed := outcomes.countP (·.failed)
  if failed = 0 then none
  else some (s!"Error: {failed} of {outcomes.length} file(s) failed to compile")

def Report.ofOutcomes (outcomes : List Outcome) : Report where
  code := if outcomes.any (·.failed) then 1 else 0
  out := lines (banner :: outcomes.flatMap (·.out))
  err := lines (outcomes.flatMap (·.complaints) ++ (summary? outcomes).toList)

/-- Collects the inputs, then works on them in turn. Each is numbered by its place. -/
def outcomes (disk : Disk m) (options : Options) : m (List Outcome) := do
  (← collect disk options.paths).zipIdx.mapM fun (input, file) =>
    process disk options file input

def run (disk : Disk m) (options : Options) : m Report := do
  return .ofOutcomes (← outcomes disk options)

/-- The report on arguments that cannot be read. -/
def Report.ofUsage (e : UsageError) : Report where
  code := 2
  out := ""
  err := lines ["error: " ++ e.message]

/-- Reads the arguments and does what they ask for. -/
def runArgs (disk : Disk m) (args : List String) : m Report :=
  match Options.read args with
  | .ok options => run disk options
  | .error e => return .ofUsage e

end Ferrite.CommandLine
