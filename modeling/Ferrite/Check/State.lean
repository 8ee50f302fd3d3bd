import Ferrite.Check.Problem
import Ferrite.Scope.Stack

/-! What checking a program gathers: types of its nodes, scopes, and problems. -/

namespace Ferrite

/-- The types of nodes, the newest entry first. -/
structure TypeTable where
  entries : List (NodeId × Ty) := []
  deriving DecidableEq, Repr, Inhabited

namespace TypeTable

def get? (t : TypeTable) (id : NodeId) : Option Ty := t.entries.lookup id

def insert (t : TypeTable) (id : NodeId) (type : Ty) : TypeTable := ⟨(id, type) :: t.entries⟩

/-- The entries by the numbers of their nodes. -/
def sorted (t : TypeTable) : List (NodeId × Ty) := t.entries.mergeSort fun a b => a.1 ≤ b.1

theorem get?_insert (t : TypeTable) (id other : NodeId) (type : Ty) :
    (t.insert id type).get? other = if other = id then some type else t.get? other := by
  by_cases h : other = id <;> simp [insert, get?, List.lookup_cons, h, beq_false_of_ne]

end TypeTable

namespace Check

/-- A function whose body is checked, as a `return` in it needs it. -/
structure Owner where
  name : String
  result : Ty
  deriving DecidableEq, Repr

def Owner.of (h : Header) : Owner := ⟨h.name.text, h.signature.result⟩

structure State where
  scopes : Scope.Stack := {}
  /-- The functions around, the innermost one first. -/
  owners : List Owner := []
  types : TypeTable := {}
  /-- The newest one first. -/
  problems : List (Located Problem) := []
  deriving DecidableEq, Repr

def State.into (s : State) (owner : Owner) : State := { s with owners := owner :: s.owners }

def State.out (s : State) : State := { s with owners := s.owners.tail }

abbrev Checker := StateM State

def report (problem : Problem) (span : Span) : Checker Unit :=
  modify fun s => { s with problems := ⟨problem, span⟩ :: s.problems }

def reportIf (condition : Bool) (problem : Problem) (span : Span) : Checker Unit :=
  if condition then report problem span else return

/-- Notes the type of a node. -/
def record (id : NodeId) (t : Ty) : Checker Unit :=
  modify fun s => { s with types := s.types.insert id t }

/-- Finds out a type and notes it for a node. -/
def recorded (id : NodeId) (find : Checker Ty) : Checker Ty := do
  let t ← find
  record id t
  return t

def inScope {α : Type} (act : Checker α) : Checker α := do
  modify fun s => { s with scopes := s.scopes.enter }
  let a ← act
  modify fun s => { s with scopes := s.scopes.leave }
  return a

def inFunctionScope {α : Type} (act : Checker α) : Checker α := do
  modify fun s => { s with scopes := s.scopes.enterFunction }
  let a ← act
  modify fun s => { s with scopes := s.scopes.leave }
  return a

/-- Acts with one more function around. -/
def within {α : Type} (owner : Owner) (act : Checker α) : Checker α := do
  modify (·.into owner)
  let a ← act
  modify State.out
  return a

def owner? : Checker (Option Owner) := return (← get).owners.head?

def local? (name : String) : Checker (Option Ty) := return (← get).scopes.local? name

def decl? (name : String) : Checker (Option Decl) := return (← get).scopes.decl? name

/-- Declares a local, or reports why its name is taken. -/
def bind (name : Ident) (t : Ty) (taken : Problem) : Checker Unit := do
  let free ← modifyGet fun s =>
    let (free, scopes) := s.scopes.insertLocal name.text t
    (free, { s with scopes })
  reportIf (!free) taken name.span

def declare (h : Header) : Checker Unit := do
  let free ← modifyGet fun s =>
    let (free, scopes) := s.scopes.insertDecl ⟨h.id, h.name.text, h.signature⟩
    (free, { s with scopes })
  reportIf (!free) (.repeatedItem h.name.text) h.name.span

end Check
end Ferrite
