import Ferrite.Files.Path

/-! What is asked of a file system. -/

namespace Ferrite

inductive FileKind | file | folder
  deriving DecidableEq, Repr

/-- Why a file could not be read or written. -/
inductive FileFault
  | missing
  | notText
  | isFolder
  | notFolder
  | exists
  | nameTooLong
  | nulCharacter
  | other (cause : String)
  deriving DecidableEq, Repr

def FileFault.message : FileFault → String
  | missing => "No such file or directory (os error 2)"
  | notText => "stream did not contain valid UTF-8"
  | isFolder => "Is a directory (os error 21)"
  | notFolder => "Not a directory (os error 20)"
  | «exists» => "File exists (os error 17)"
  | nameTooLong => "File name too long (os error 36)"
  | nulCharacter => "file name contained an unexpected NUL byte"
  | other cause => cause

structure Disk (m : Type → Type) where
  kind? : Path → m (Option FileKind)
  /-- The files in a folder at every depth. -/
  filesUnder : Path → m (Except FileFault (List Route))
  read : Path → m (Except FileFault (List UInt8))
  /-- Makes a folder, and those around it where they are missing. -/
  makeFolder : Path → m (Except FileFault Unit)
  write : Path → List UInt8 → m (Except FileFault Unit)

/-- The text that bytes spell in UTF-8. -/
def textOfBytes (bytes : List UInt8) : Except FileFault String :=
  match String.fromUTF8? ⟨bytes.toArray⟩ with
  | some s => .ok s
  | none => .error .notText

def Disk.readText {m : Type → Type} [Monad m] (disk : Disk m) (p : Path) :
    m (Except FileFault String) := do
  return (← disk.read p).bind textOfBytes

end Ferrite
