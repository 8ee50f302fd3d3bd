import Ferrite.Files.Disk

/-! Where modules are written. -/

namespace Ferrite.CommandLine

/-- The extension of modules. -/
def moduleExtension : Path := ['w', 'a', 's', 'm']

/-- The path of the module for a source file: beside it, or in the output folder. -/
def outputPath (outDir : Option Path) (input : Path) : Path :=
  match outDir with
  | none => input.withExtension moduleExtension
  | some folder => (folder.join (input.stem?.getD input)).withExtension moduleExtension

inductive WriteError
  | noFolder (folder : Path) (fault : FileFault)
  | noFile (path : Path) (fault : FileFault)
  deriving DecidableEq, Repr

def WriteError.message : WriteError → String
  | noFolder folder fault =>
      "failed to create directory " ++ folder.display ++ ": " ++ fault.message
  | noFile path fault => "failed to write output file " ++ path.display ++ ": " ++ fault.message

variable {m : Type → Type} [Monad m]

/-- Makes the folder that a path leads into, unless it is the one that paths start from. -/
def makeParent (disk : Disk m) (p : Path) : m (Except WriteError Unit) := do
  let folder := p.parent
  if folder = [] then return .ok ()
  else
    match ← disk.makeFolder folder with
    | .ok () => return .ok ()
    | .error fault => return .error (.noFolder folder fault)

def writeModule (disk : Disk m) (p : Path) (bytes : List UInt8) : m (Except WriteError Unit) := do
  match ← makeParent disk p with
  | .error e => return .error e
  | .ok () =>
      match ← disk.write p bytes with
      | .ok () => return .ok ()
      | .error fault => return .error (.noFile p fault)

end Ferrite.CommandLine
