import Ferrite.Compile
import Ferrite.Files.Disk

/-! Source files by their paths. -/

namespace Ferrite

/-- The extension of source files. -/
def sourceExtension : Path := ['r', 's']

def isSource (r : Route) : Bool :=
  match r.getLast? with
  | some name => (Path.splitDot name).2 = some sourceExtension
  | none => false

/-- The source files among the files of a folder, sorted name by name. -/
def sourcesUnder (folder : Path) (routes : List Route) : List Path :=
  ((routes.filter isSource).mergeSort fun a b => !Path.routeBefore b a).map folder.joinRoute

def unreadable (p : Path) (cause : String) : Failure := .unreadable p.display cause

variable {m : Type → Type} [Monad m]

/-- The source files that a path stands for: a file for itself, whatever its extension, and a
folder for all source files in it. -/
def collectPath (disk : Disk m) (p : Path) : m (List (Except Failure Path)) := do
  match ← disk.kind? p with
  | some .folder =>
      match ← disk.filesUnder p with
      | .ok routes => return (sourcesUnder p routes).map .ok
      | .error fault => return [.error (unreadable p fault.message)]
  | some .file => return [.ok p]
  | none => return [.error (unreadable p "no such file or directory")]

/-- The source files that paths stand for. A path that leads nowhere does not stop the others. -/
def collect (disk : Disk m) (paths : List Path) : m (List (Except Failure Path)) := do
  return (← paths.mapM (collectPath disk)).flatten

/-- Compiles a file under the name that its path shows. -/
def compileFile (disk : Disk m) (file : FileId) (p : Path) (goal : Goal) :
    m (Except Failure Compiled) := do
  match ← disk.readText p with
  | .ok text => return compile file p.display text goal
  | .error fault => return .error (unreadable p fault.message)

end Ferrite
