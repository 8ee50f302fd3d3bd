import Ferrite.Token

/-! Operators and how tightly they bind. -/

namespace Ferrite

inductive UnaryOp | neg | not
  deriving DecidableEq, Repr

namespace UnaryOp

def ofTerminal? : Terminal → Option UnaryOp
  | .punct .minus => some .neg
  | .punct .not => some .not
  | _ => none

/-- Tighter than any operator of two operands. -/
def power (_ : UnaryOp) : Nat := 26

def symbol : UnaryOp → String
  | neg => "-"
  | not => "!"

end UnaryOp

inductive BinaryOp
  | add | sub | mul | div | rem
  | bitAnd | bitOr | bitXor
  | shl | shr
  | eq | ne | gt | lt | ge | le
  | assign
  deriving DecidableEq, Repr

namespace BinaryOp

def ofPunct? : Punct → Option BinaryOp
  | .plus => some add
  | .minus => some sub
  | .star => some mul
  | .slash => some div
  | .percent => some rem
  | .and => some bitAnd
  | .or => some bitOr
  | .caret => some bitXor
  | .shl => some shl
  | .shr => some shr
  | .eqEq => some eq
  | .ne => some ne
  | .gt => some gt
  | .lt => some lt
  | .ge => some ge
  | .le => some le
  | .eq => some assign
  | _ => none

def ofTerminal? : Terminal → Option BinaryOp
  | .punct p => ofPunct? p
  | _ => none

/-- The mark that stands for the operator. -/
def punct : BinaryOp → Punct
  | add => .plus
  | sub => .minus
  | mul => .star
  | div => .slash
  | rem => .percent
  | bitAnd => .and
  | bitOr => .or
  | bitXor => .caret
  | shl => .shl
  | shr => .shr
  | eq => .eqEq
  | ne => .ne
  | gt => .gt
  | lt => .lt
  | ge => .ge
  | le => .le
  | assign => .eq

def symbol (op : BinaryOp) : String := op.punct.spelling

/-- How tightly the operator holds its left operand. -/
def leftPower : BinaryOp → Nat
  | assign => 3
  | eq | ne | gt | lt | ge | le => 10
  | bitOr => 12
  | bitXor => 14
  | bitAnd => 16
  | shl | shr => 18
  | add | sub => 20
  | mul | div | rem => 22

/-- How tightly it holds its right operand: less tightly than the left one if it groups from the
right, and more tightly if it groups from the left. -/
def rightPower : BinaryOp → Nat
  | assign => 2
  | op => op.leftPower + 1

def isArithmetic : BinaryOp → Bool
  | add | sub | mul | div | rem => true
  | _ => false

def isBitwise : BinaryOp → Bool
  | bitAnd | bitOr | bitXor => true
  | _ => false

def isShift : BinaryOp → Bool
  | shl | shr => true
  | _ => false

def isOrdering : BinaryOp → Bool
  | gt | lt | ge | le => true
  | _ => false

def isComparison : BinaryOp → Bool
  | eq | ne => true
  | op => op.isOrdering

theorem ofPunct?_eq_some_iff (p : Punct) (op : BinaryOp) :
    ofPunct? p = some op ↔ op.punct = p := by
  cases p <;> cases op <;> decide

end BinaryOp
end Ferrite
