import Ferrite.Scope.Stack

/-! Goes through a record again, scope by scope in the recorded order. -/

namespace Ferrite.Scope

/-- How a replay left the record. -/
inductive Divergence
  | event (expected : Event) (place : Nat) (recorded : Option Event)
  | noFrame
  | notEntered
  | unfinished
  deriving DecidableEq, Repr

def Divergence.message : Divergence → String
  | event expected place recorded =>
      let found := match recorded with
        | some e => s!"Some({e.display})"
        | none => "None"
      s!"expected {expected.display} at event {place}, recorded {found}"
  | noFrame => "more scopes entered than were recorded"
  | notEntered => "left a scope that was never entered"
  | unfinished => "not every recorded scope was replayed"

structure Replay where
  record : Record
  nextEvent : Nat := 0
  nextFrame : Nat := 0
  opened : List Nat := []
  deriving DecidableEq, Repr

namespace Replay

/-- A call on a replay, made in place. What it did before it failed stays done. -/
abbrev Call := EStateM Divergence Replay Unit

/-- Goes past the next event, if it is the expected one. -/
def expect (e : Event) : Call := do
  let r ← get
  let found := r.record.events[r.nextEvent]?
  if found = some e then set { r with nextEvent := r.nextEvent + 1 }
  else throw (.event e r.nextEvent found)

/-- Opens the next recorded frame. -/
def entering : Call := do
  expect .push
  let r ← get
  if r.nextFrame < r.record.frames.size then
    set { r with opened := r.nextFrame :: r.opened, nextFrame := r.nextFrame + 1 }
  else throw .noFrame

def leaving : Call := do
  expect .pop
  let r ← get
  match r.opened with
  | _ :: rest => set { r with opened := rest }
  | [] => throw .notEntered

/-- The call that goes with an event. -/
def call : Event → Call
  | .push => entering
  | .pop => leaving

/-- What a call makes of a replay, unless it fails. -/
def moved (c : Call) (r : Replay) : Except Divergence Replay :=
  match c r with
  | .ok _ r => .ok r
  | .error d _ => .error d

def enter (r : Replay) : Except Divergence Replay := moved entering r

def leave (r : Replay) : Except Divergence Replay := moved leaving r

/-- The open frames, the innermost one first. -/
def frames (r : Replay) : List Frame := r.record.framesAt r.opened

def local? (r : Replay) (name : String) : Option Ty := findLocal? name r.frames

def decl? (r : Replay) (name : String) : Option Decl := findDecl? name r.frames

def isFinished (r : Replay) : Bool := r.nextEvent = r.record.events.size

section

variable {r : Replay} {e : Event}

theorem expect_next (h : r.record.events[r.nextEvent]? = some e) :
    expect e r = .ok () { r with nextEvent := r.nextEvent + 1 } := by
  show (if r.record.events[r.nextEvent]? = some e then _ else _ : Call) r = _
  rw [if_pos h]
  rfl

theorem expect_other (h : r.record.events[r.nextEvent]? ≠ some e) :
    expect e r = .error (.event e r.nextEvent r.record.events[r.nextEvent]?) r := by
  show (if r.record.events[r.nextEvent]? = some e then _ else _ : Call) r = _
  rw [if_neg h]
  rfl

/-- A call that does not go with the next event changes nothing. -/
theorem call_other (h : r.record.events[r.nextEvent]? ≠ some e) :
    call e r = .error (.event e r.nextEvent r.record.events[r.nextEvent]?) r := by
  cases e with
  | push => simp only [call, entering, bind, EStateM.bind, expect_other h]
  | pop => simp only [call, leaving, bind, EStateM.bind, expect_other h]

theorem entering_next (h : r.record.events[r.nextEvent]? = some .push)
    (hf : r.nextFrame < r.record.frames.size) :
    entering r = .ok ()
      { r with
        nextEvent := r.nextEvent + 1
        nextFrame := r.nextFrame + 1
        opened := r.nextFrame :: r.opened } := by
  simp only [entering, bind, EStateM.bind, expect_next h]
  show (if r.nextFrame < r.record.frames.size then _ else _ : Call) _ = _
  rw [if_pos hf]
  rfl

theorem entering_noFrame (h : r.record.events[r.nextEvent]? = some .push)
    (hf : ¬ r.nextFrame < r.record.frames.size) :
    entering r = .error .noFrame { r with nextEvent := r.nextEvent + 1 } := by
  simp only [entering, bind, EStateM.bind, expect_next h]
  show (if r.nextFrame < r.record.frames.size then _ else _ : Call) _ = _
  rw [if_neg hf]
  rfl

theorem leaving_next (h : r.record.events[r.nextEvent]? = some .pop) {k : Nat} {rest : List Nat}
    (ho : r.opened = k :: rest) :
    leaving r = .ok () { r with nextEvent := r.nextEvent + 1, opened := rest } := by
  obtain ⟨record, nextEvent, nextFrame, opened⟩ := r
  cases ho
  simp only [leaving, bind, EStateM.bind, expect_next h]
  rfl

end

end Replay
end Ferrite.Scope
