import Ferrite.Span
import Ferrite.Text.Bytes

/-! A named source text with an index of its lines, for turning offsets into lines and columns. -/

namespace Ferrite

/-- Offsets just behind each line feed of the text that starts at `offset`. -/
def lineBreaks (offset : Nat) : List Char → List Nat
  | [] => []
  | c :: cs =>
      let next := offset + c.utf8Size
      if c = '\n' then next :: lineBreaks next cs else lineBreaks next cs

/-- The offset at which each line starts. -/
def lineStarts (text : String) : Array Nat := (0 :: lineBreaks 0 text.toList).toArray

structure Source where
  name : String
  text : String
  starts : Array Nat := lineStarts text
  starts_eq : starts = lineStarts text := by rfl

/-- Line and column, counted from one; columns count bytes. -/
structure Position where
  line : Nat
  column : Nat
  deriving DecidableEq, Repr

def Position.display (p : Position) : String := s!"{p.line}:{p.column}"

namespace Source

def ofText (name text : String) : Source := { name, text }

/-- The last index in `[lo, hi)` whose entry is at most `x`, or `lo` if there is none. -/
def lastAtMost (starts : Array Nat) (x lo hi : Nat) : Nat :=
  if hi - lo ≤ 1 then lo
  else
    let mid := (lo + hi) / 2
    if starts.getD mid 0 ≤ x then lastAtMost starts x mid hi else lastAtMost starts x lo mid
termination_by hi - lo
decreasing_by all_goals omega

/-- The number of the line that holds `offset`, counted from zero. -/
def lineIndex (s : Source) (offset : Nat) : Nat := lastAtMost s.starts offset 0 s.starts.size

def position (s : Source) (offset : Nat) : Position :=
  let line := s.lineIndex offset
  { line := line + 1, column := offset - s.starts.getD line 0 + 1 }

/-- The line that holds `offset`, without its line feed and the carriage returns before it. -/
def lineText (s : Source) (offset : Nat) : String :=
  let line := s.lineIndex offset
  let start := s.starts.getD line 0
  let stop := match s.starts[line + 1]? with
    | some next => next - 1
    | none => s.text.utf8ByteSize
  let line := (Text.slice? start stop s.text.toList).getD []
  String.ofList (line.reverse.dropWhile (· = '\r')).reverse

/-- The text of a span; empty where the span is not one of this text. -/
def snippet (s : Source) (span : Span) : String :=
  String.ofList ((Text.slice? span.start span.stop s.text.toList).getD [])

end Source
end Ferrite
