/-! Places in a source text. -/

namespace Ferrite

/-- Numbers the texts of one session. -/
abbrev FileId := Nat

/-- The bytes from `start` up to, but not including, `stop`. -/
structure Span where
  file : FileId
  start : Nat
  stop : Nat
  deriving DecidableEq, Repr, Inhabited

namespace Span

/-- The smallest span over both; the file is the first one's. -/
def join (a b : Span) : Span := ⟨a.file, min a.start b.start, max a.stop b.stop⟩

def length (s : Span) : Nat := s.stop - s.start

def isEmpty (s : Span) : Bool := s.length = 0

def shift (n : Nat) (s : Span) : Span := ⟨s.file, s.start + n, s.stop + n⟩

theorem join_self (s : Span) : s.join s = s := by
  cases s; simp [join]

theorem join_shift (n : Nat) (a b : Span) : (a.shift n).join (b.shift n) = (a.join b).shift n := by
  simp [join, shift, Nat.add_min_add_right, Nat.add_max_add_right]

end Span

/-- Something that was found at a place. -/
structure Located (α : Type) where
  value : α
  span : Span
  deriving DecidableEq, Repr

end Ferrite
