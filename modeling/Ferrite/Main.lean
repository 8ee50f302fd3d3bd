import Ferrite.CommandLine.Run

/-! The program. -/

namespace Ferrite.Main

/-- A path as the system takes it. -/
def systemPath (p : Path) := (IO.FS.DirEntry.mk p.display "").root

def faultOf : IO.Error → FileFault
  | .noFileOrDirectory .. => .missing
  | .alreadyExists .. => .exists
  | .inappropriateType _ 20 _ => .notFolder
  | .inappropriateType _ 21 _ => .isFolder
  | .invalidArgument _ 36 _ => .nameTooLong
  | e => .other (toString e)

/-- Turns an error of the system into an answer. -/
def attempt {α : Type} (act : IO α) : IO (Except FileFault α) := do
  try
    return .ok (← act)
  catch e => return .error (faultOf e)

def kind? (p : Path) : IO (Option FileKind) := do
  match ← attempt (systemPath p).metadata with
  | .ok found =>
      match found.type with
      | .dir => return some .folder
      | .file => return some .file
      | _ => return none
  | .error _ => return none

/-- Links inside a folder are not followed. -/
partial def filesUnder (folder : Path) : IO (List Route) := do
  let entries ← (systemPath folder).readDir
  let routes ← entries.toList.mapM fun entry => do
    let name := entry.fileName.toList
    match (← entry.path.symlinkMetadata).type with
    | .dir => return (← filesUnder (folder.join name)).map (name :: ·)
    | .file => return [[name]]
    | _ => return []
  return routes.flatten

def disk : Disk IO where
  kind? := kind?
  filesUnder p := attempt (filesUnder p)
  read p := attempt do return (← IO.FS.readBinFile (systemPath p)).toList
  makeFolder p := attempt (IO.FS.createDirAll (systemPath p))
  write p bytes := attempt (IO.FS.writeBinFile (systemPath p) ⟨bytes.toArray⟩)

end Ferrite.Main

def main (args : List String) : IO UInt32 := do
  let report ← Ferrite.CommandLine.runArgs Ferrite.Main.disk args
  IO.print report.out
  IO.eprint report.err
  return report.code.toUInt32
