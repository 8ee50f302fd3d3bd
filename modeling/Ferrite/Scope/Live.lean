import Ferrite.Scope.Stack

/-!
A stack of scopes that holds its open frames itself. The record has a place for each frame from the start, but
gets the frame only when its scope closes.
-/

namespace Ferrite.Scope

/-- The record behind a scope whose frame has this number. -/
def Record.close (r : Record) (number : Nat) (f : Frame) : Record where
  events := r.events.push .pop
  frames := r.frames.setIfInBounds number f

structure Live where
  /-- The open frames with their numbers, the innermost one first. -/
  stack : List (Nat × Frame) := []
  record : Record := {}
  deriving DecidableEq, Repr

namespace Live

def push (l : Live) (boundary : Bool) : Live where
  stack := (l.record.frames.size, { boundary }) :: l.stack
  record :=
    { events := l.record.events.push .push
      frames := l.record.frames.push { boundary := false } }

def enter (l : Live) : Live := l.push false

def enterFunction (l : Live) : Live := l.push true

/-- Closes the innermost scope, if there is one. -/
def leave (l : Live) : Live :=
  match l.stack with
  | [] => l
  | (number, f) :: rest => { stack := rest, record := l.record.close number f }

def depth (l : Live) : Nat := l.stack.length

/-- The open frames, the innermost one first. -/
def frames (l : Live) : List Frame := l.stack.map (·.2)

def local? (l : Live) (name : String) : Option Ty := findLocal? name l.frames

def decl? (l : Live) (name : String) : Option Decl := findDecl? name l.frames

def localHere? (l : Live) (name : String) : Option Ty := l.frames.head?.bind (·.local? name)

def declHere? (l : Live) (name : String) : Option Decl := l.frames.head?.bind (·.decl? name)

/-- Declares a local in the innermost scope, if there is one and the name is free there. -/
def insertLocal (l : Live) (name : String) (t : Ty) : Bool × Live :=
  match l.stack with
  | [] => (false, l)
  | (number, f) :: rest =>
      if (f.local? name).isSome then (false, l)
      else (true, { l with stack := (number, { f with locals := (name, t) :: f.locals }) :: rest })

/-- Declares a function in the innermost scope, if there is one and the name is free there. -/
def insertDecl (l : Live) (d : Decl) : Bool × Live :=
  match l.stack with
  | [] => (false, l)
  | (number, f) :: rest =>
      if (f.decl? d.name).isSome then (false, l)
      else (true, { l with stack := (number, { f with decls := d :: f.decls }) :: rest })

/-- The record, after all scopes that are still open are closed. -/
def finish (l : Live) : Record :=
  l.stack.foldl (fun record (number, f) => record.close number f) l.record

end Live
end Ferrite.Scope
