/-! A position in a sequence. Reads beyond either end give nothing. -/

namespace Ferrite

structure Cursor (α : Type) where
  items : Array α
  position : Nat := 0

namespace Cursor
variable {α : Type}

def ofArray (items : Array α) : Cursor α := { items }

def peek (c : Cursor α) : Option α := c.items[c.position]?

def peekNth (c : Cursor α) (n : Nat) : Option α := c.items[c.position + n]?

/-- The item `n` places before the position; `1` is the one passed last. -/
def peekBack (c : Cursor α) (n : Nat) : Option α :=
  if n ≤ c.position then c.items[c.position - n]? else none

/-- Moves to `n`, or to the end where the sequence is shorter. -/
def moveTo (c : Cursor α) (n : Nat) : Cursor α := { c with position := min n c.items.size }

def skip (c : Cursor α) (n : Nat) : Cursor α := c.moveTo (c.position + n)

def isEnd (c : Cursor α) : Bool := c.items.size ≤ c.position

/-- Moves past the items that satisfy `p`. -/
def skipWhile (c : Cursor α) (p : α → Bool) : Cursor α :=
  c.skip ((c.items.toList.drop c.position).takeWhile p).length

theorem position_moveTo_le (c : Cursor α) (n : Nat) : (c.moveTo n).position ≤ c.items.size :=
  Nat.min_le_right ..

end Cursor
end Ferrite
