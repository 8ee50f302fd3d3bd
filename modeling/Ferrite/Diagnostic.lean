import Ferrite.Source

/-! Messages about a source text, and the log that collects them. -/

namespace Ferrite

inductive Severity | error | warning | note
  deriving DecidableEq, Repr

def Severity.display : Severity → String
  | .error => "error"
  | .warning => "warning"
  | .note => "note"

/-- The kind of a message. It fixes the number and the severity. -/
inductive Code
  | unexpectedChar | invalidIntegerSuffix | invalidFloatSuffix | invalidLiteral
  | unterminatedString | unterminatedComment
  | unexpected | expectedExpr | expectedType | invalidBinaryOp
  | undefinedSymbol | incompatibleTypes | invalidCall | redefinition
  | invalidAssignment | invalidOperand
  | literalOutOfRange
  deriving DecidableEq, Repr

namespace Code

/-- Numbers below 100 are for the text, from 100 for the grammar, from 200 for names and types. -/
def number : Code → String
  | unexpectedChar => "E0001"
  | invalidIntegerSuffix => "E0002"
  | invalidFloatSuffix => "E0003"
  | invalidLiteral => "E0004"
  | unterminatedString => "E0005"
  | unterminatedComment => "E0006"
  | unexpected => "E0100"
  | expectedExpr => "E0101"
  | expectedType => "E0102"
  | invalidBinaryOp => "E0103"
  | undefinedSymbol => "E0200"
  | incompatibleTypes => "E0201"
  | invalidCall => "E0202"
  | redefinition => "E0203"
  | invalidAssignment => "E0204"
  | invalidOperand => "E0205"
  | literalOutOfRange => "W0001"

def severity : Code → Severity
  | literalOutOfRange => .warning
  | _ => .error

end Code

structure Diagnostic where
  code : Code
  span : Span
  message : String
  notes : List String := []
  deriving DecidableEq, Repr

namespace Diagnostic

def severity (d : Diagnostic) : Severity := d.code.severity

def isError (d : Diagnostic) : Bool := d.severity = .error

/-- One line with the place in front, and one line more for each note. -/
def render (d : Diagnostic) (source : Source) : String :=
  let place := (source.position d.span.start).display
  let head := s!"{source.name}:{place}: {d.severity.display}[{d.code.number}]: {d.message}"
  d.notes.foldl (fun text note => text ++ "\n  = note: " ++ note) head

end Diagnostic

/-- Messages in the order in which they were reported, with a counter of the errors among them. -/
structure Log where
  entries : Array Diagnostic := #[]
  errors : Nat := 0
  /-- The counter is in step with the messages. -/
  errors_eq : errors = entries.toList.countP (·.isError) := by rfl
  deriving DecidableEq, Repr

namespace Log

def empty : Log := {}

instance : Inhabited Log := ⟨empty⟩

/-- Adds a message, and counts it if it is an error. -/
def report (log : Log) (d : Diagnostic) : Log where
  entries := log.entries.push d
  errors := if d.isError then log.errors + 1 else log.errors
  errors_eq := by
    rw [Array.toList_push, List.countP_append, ← log.errors_eq]
    cases h : d.isError <;> simp [h]

def append (log : Log) (ds : List Diagnostic) : Log := ds.foldl report log

def toList (log : Log) : List Diagnostic := log.entries.toList

def size (log : Log) : Nat := log.entries.size

def hasErrors (log : Log) : Bool := 0 < log.errors

def count (log : Log) (code : Code) : Nat := log.toList.countP (·.code = code)

def last? (log : Log) : Option Diagnostic := log.entries.back?

@[simp] theorem toList_empty : empty.toList = [] := rfl

@[simp] theorem toList_report (log : Log) (d : Diagnostic) :
    (log.report d).toList = log.toList ++ [d] := by
  simp [report, toList]

@[simp] theorem toList_append (log : Log) (ds : List Diagnostic) :
    (log.append ds).toList = log.toList ++ ds := by
  induction ds generalizing log with
  | nil => exact (List.append_nil _).symm
  | cons d ds ih =>
    have hstep : log.append (d :: ds) = (log.report d).append ds := rfl
    rw [hstep, ih, toList_report, List.append_assoc, List.singleton_append]

theorem errors_toList (log : Log) : log.errors = log.toList.countP (·.isError) := log.errors_eq

theorem hasErrors_iff (log : Log) : log.hasErrors = true ↔ 0 < log.errors := decide_eq_true_iff

theorem hasErrors_toList (log : Log) : log.hasErrors = log.toList.any (·.isError) := by
  rw [Bool.eq_iff_iff, hasErrors_iff, errors_toList, List.countP_pos_iff, List.any_eq_true]

end Log
end Ferrite
