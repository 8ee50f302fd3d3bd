import Ferrite.Files.Disk
import Ferrite.Text.Bytes

/-! A folder in memory, with all that is in it. Nothing is known of what is around it. -/

namespace Ferrite

structure Folder where
  files : List (Route × List UInt8) := []
  /-- Folders beside those that hold a file. -/
  folders : List Route := []
  deriving DecidableEq, Repr

namespace Folder

def file? (f : Folder) (r : Route) : Option (List UInt8) := f.files.lookup r

/-- Whether the route leads to this folder or to one in it. -/
def isFolder (f : Folder) (r : Route) : Bool :=
  r = [] || f.folders.any (r.isPrefixOf ·) ||
    f.files.any fun (q, _) => r.isPrefixOf q && r ≠ q

def kind? (f : Folder) (r : Route) : Option FileKind :=
  if f.isFolder r then some .folder
  else if (f.file? r).isSome then some .file
  else none

/-- The most bytes that a name may have. -/
def longestName : Nat := 255

/-- The most bytes that a whole path may have. -/
def longestPath : Nat := 4095

/-- Where one more part of a path leads. Nothing leads on from a file; and what leads out of this folder leads
to a folder, with nothing known of what is in it. -/
def follow (f : Folder) (here : Route) (part : Path) : Except FileFault Route :=
  if !f.isFolder here then .error (if (f.file? here).isSome then .notFolder else .missing)
  else if part = [] || part = ['.'] then .ok here
  else if part = ['.', '.'] then if here = [] then .error .isFolder else .ok here.dropLast
  else if longestName < Text.width part then .error .nameTooLong
  else .ok (here ++ [part])

/-- Why no file system takes the path, wherever it leads. -/
def refusal? (p : Path) : Option FileFault :=
  if p.contains '\x00' then some .nulCharacter
  else if longestPath < Text.width p then some .nameTooLong
  else if p = [] then some .missing
  else none

/-- Where the parts of a path lead from this folder; the last one need not be there. -/
def walk (f : Folder) (p : Path) (parts : Route) : Except FileFault Route :=
  match refusal? p with
  | some fault => .error fault
  | none => if p.head? = some '/' then .error .missing else parts.foldlM f.follow []

/-- Where a path leads from this folder. With a slash at its end it leads to a folder only. -/
def resolve (f : Folder) (p : Path) : Except FileFault Route := f.walk p p.names

def kindAt? (f : Folder) (p : Path) : Option FileKind :=
  match f.resolve p with
  | .ok r => f.kind? r
  | .error _ => none

/-- The files further down from a path, each by the names on the way to it. -/
def filesUnder (f : Folder) (p : Path) : Except FileFault (List Route) := do
  let r ← f.resolve p
  let routes := f.files.filterMap fun (q, _) =>
    if r.isPrefixOf q then some (q.drop r.length) else none
  return routes.filter fun route => f.kindAt? (p.joinRoute route) = some .file

def read (f : Folder) (p : Path) : Except FileFault (List UInt8) := do
  let r ← f.resolve p
  if f.isFolder r then .error .isFolder
  else match f.file? r with
    | some bytes => .ok bytes
    | none => .error .missing

def put (f : Folder) (r : Route) (bytes : List UInt8) : Folder :=
  { f with files := (r, bytes) :: f.files.filter (·.1 ≠ r) }

theorem lookup_filter_ne {files : List (Route × List UInt8)} {q r : Route} (h : q ≠ r) :
    (files.filter (·.1 ≠ r)).lookup q = files.lookup q := by
  induction files with
  | nil => rfl
  | cons entry rest ih =>
      obtain ⟨name, bytes⟩ := entry
      by_cases hr : name = r
      · subst hr
        simpa [List.lookup_cons, beq_false_of_ne h] using ih
      · by_cases hq : q = name
        · subst hq
          simp [hr]
        · simpa [List.lookup_cons, hr, beq_false_of_ne hq] using ih

theorem file?_put (f : Folder) (r q : Route) (bytes : List UInt8) :
    (f.put r bytes).file? q = if q = r then some bytes else f.file? q := by
  by_cases h : q = r
  · subst h
    simp [put, file?]
  · have rest := @lookup_filter_ne f.files q r h
    simp only [put, file?, List.lookup_cons, beq_false_of_ne h, h, if_false]
    exact rest

def write (f : Folder) (p : Path) (bytes : List UInt8) : Except FileFault Folder := do
  let r ← f.resolve p
  if f.isFolder r then .error .isFolder else .ok (f.put r bytes)

/-- Makes one folder where there is nothing. Slashes at the end of its path do not count. -/
def makeOne (f : Folder) (p : Path) : Except FileFault Folder := do
  let r ← f.walk p (p.names.filter (· ≠ []))
  if (f.kind? r).isSome then .error .exists else .ok { f with folders := r :: f.folders }

/-- Makes one folder, unless it is there. -/
def makeOrFind (f : Folder) (p : Path) : Except FileFault Unit × Folder :=
  match f.makeOne p with
  | .ok g => (.ok (), g)
  | .error fault => (if f.kindAt? p = some .folder then .ok () else .error fault, f)

/-- Makes a folder, after those around it where they are missing. What was made stays, also where
a later part of the path is at fault. -/
def makeFolder (f : Folder) (p : Path) : Except FileFault Unit × Folder :=
  if p = [] then (.ok (), f)
  else match f.makeOne p with
    | .error .missing =>
        match f.makeFolder p.parent with
        | (.ok (), g) => g.makeOrFind p
        | failed => failed
    | _ => f.makeOrFind p
termination_by p.length
decreasing_by exact Path.parent_length_lt (by assumption)

/-- Changes the folder in the state, unless the change fails. -/
def change (act : Folder → Except FileFault Folder) :
    StateM Folder (Except FileFault Unit) := fun f =>
  match act f with
  | .ok g => (.ok (), g)
  | .error e => (.error e, f)

/-- The folder in the state as a file system. -/
def disk : Disk (StateM Folder) where
  kind? p := return (← get).kindAt? p
  filesUnder p := return (← get).filesUnder p
  read p := return (← get).read p
  makeFolder p := fun f => f.makeFolder p
  write p bytes := change (·.write p bytes)

end Folder
end Ferrite
