import Ferrite.Scope.Frame

/-!
A stack of scopes that keeps every frame it ever opened, together with the order in which frames
were opened and closed.
-/

namespace Ferrite.Scope

inductive Event | push | pop
  deriving DecidableEq, Repr

def Event.display : Event → String
  | push => "Push"
  | pop => "Pop"

/-- What happened to a stack: its frames in the order they were opened, and the events. -/
structure Record where
  events : Array Event := #[]
  frames : Array Frame := #[]
  deriving DecidableEq, Repr, Inhabited

/-- The frames at the given numbers. -/
def Record.framesAt (r : Record) (numbers : List Nat) : List Frame :=
  numbers.filterMap (r.frames[·]?)

/-- Open scopes by the numbers of their frames, the innermost one first. -/
structure Stack where
  record : Record := {}
  opened : List Nat := []
  deriving DecidableEq, Repr, Inhabited

namespace Stack

def push (s : Stack) (boundary : Bool) : Stack :=
  { record :=
      { events := s.record.events.push .push
        frames := s.record.frames.push { boundary } }
    opened := s.record.frames.size :: s.opened }

def enter (s : Stack) : Stack := s.push false

def enterFunction (s : Stack) : Stack := s.push true

/-- Closes the innermost scope, if there is one. -/
def leave (s : Stack) : Stack :=
  match s.opened with
  | [] => s
  | _ :: rest =>
      { record := { s.record with events := s.record.events.push .pop }, opened := rest }

def depth (s : Stack) : Nat := s.opened.length

/-- The open frames, the innermost one first. -/
def frames (s : Stack) : List Frame := s.record.framesAt s.opened

def modifyTop (s : Stack) (f : Frame → Frame) : Stack :=
  match s.opened with
  | [] => s
  | top :: _ => { s with record := { s.record with frames := s.record.frames.modify top f } }

def local? (s : Stack) (name : String) : Option Ty := findLocal? name s.frames

def decl? (s : Stack) (name : String) : Option Decl := findDecl? name s.frames

def localHere? (s : Stack) (name : String) : Option Ty := s.frames.head?.bind (·.local? name)

def declHere? (s : Stack) (name : String) : Option Decl := s.frames.head?.bind (·.decl? name)

/-- Declares a local in the innermost scope. Tells whether the name was free there. -/
def insertLocal (s : Stack) (name : String) (t : Ty) : Bool × Stack :=
  (!s.opened.isEmpty && (s.localHere? name).isNone, s.modifyTop (·.addLocal name t))

/-- Declares a function in the innermost scope. Tells whether the name was free there. -/
def insertDecl (s : Stack) (d : Decl) : Bool × Stack :=
  (!s.opened.isEmpty && (s.declHere? d.name).isNone, s.modifyTop (·.addDecl d))

/-- The record, after all scopes that are still open are closed. -/
def finish (s : Stack) : Record :=
  { s.record with events := s.record.events ++ Array.replicate s.depth .pop }

end Stack
end Ferrite.Scope
