import Ferrite.Tree.Basic

/-! Frames of names, and how a stack of them answers. -/

namespace Ferrite

/-- A function that can be called by its name. -/
structure Decl where
  id : NodeId
  name : String
  signature : Signature
  deriving DecidableEq, Repr

namespace Scope

/-- The locals and functions that one scope declares by itself. -/
structure Frame where
  /-- Whether locals of the scopes around are out of sight. -/
  boundary : Bool
  locals : List (String × Ty) := []
  decls : List Decl := []
  deriving DecidableEq, Repr

namespace Frame

def local? (f : Frame) (name : String) : Option Ty := f.locals.lookup name

def decl? (f : Frame) (name : String) : Option Decl := f.decls.find? (·.name = name)

/-- A name that is already there keeps its type. -/
def addLocal (f : Frame) (name : String) (t : Ty) : Frame :=
  if (f.local? name).isSome then f else { f with locals := (name, t) :: f.locals }

def addDecl (f : Frame) (d : Decl) : Frame :=
  if (f.decl? d.name).isSome then f else { f with decls := d :: f.decls }

theorem local?_addLocal (f : Frame) (name other : String) (t : Ty) :
    (f.addLocal name t).local? other =
      if other = name then some ((f.local? name).getD t) else f.local? other := by
  unfold addLocal local?
  cases h : f.locals.lookup name <;> by_cases ho : other = name <;>
    simp_all [List.lookup_cons, beq_false_of_ne]

theorem decl?_addDecl (f : Frame) (d : Decl) (other : String) :
    (f.addDecl d).decl? other =
      if other = d.name then some ((f.decl? d.name).getD d) else f.decl? other := by
  unfold addDecl decl?
  by_cases ho : d.name = other
  · cases h : f.decls.find? (·.name = d.name) <;> simp_all
  · have hs : other ≠ d.name := fun h => ho h.symm
    cases h : f.decls.find? (·.name = d.name) <;> simp [ho, hs]

end Frame

/-- The local a name stands for, innermost frame first and not beyond a boundary. -/
def findLocal? (name : String) : List Frame → Option Ty
  | [] => none
  | f :: fs =>
      match f.local? name with
      | some t => some t
      | none => if f.boundary then none else findLocal? name fs

/-- The function a name stands for, innermost frame first. -/
def findDecl? (name : String) (frames : List Frame) : Option Decl :=
  frames.findSome? (·.decl? name)

end Scope
end Ferrite
