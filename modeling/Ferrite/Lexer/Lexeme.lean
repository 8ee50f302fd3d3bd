import Ferrite.Lexer.Problem
import Ferrite.Text.Bytes
import Ferrite.Token

/-! One step of reading a source text: a token, a blank, a comment, or a piece that is none. -/

namespace Ferrite.Lexer

/-- A problem and the bytes it is about, counted from the start of the lexeme. -/
structure Fault where
  problem : Problem
  start : Nat
  stop : Nat
  deriving DecidableEq, Repr

structure Lexeme where
  text : List Char
  /-- What the text says, and how many of its bytes say it. -/
  token? : Option (Terminal × Nat) := none
  faults : List Fault := []
  deriving DecidableEq, Repr

namespace Lexeme

def width (l : Lexeme) : Nat := Text.width l.text

/-- A text that is a token as a whole. -/
def whole (text : List Char) (terminal : Terminal) (faults : List Fault := []) : Lexeme :=
  { text, token? := some (terminal, Text.width text), faults }

/-- A text that is skipped. -/
def skipped (text : List Char) : Lexeme := { text }

/-- A text that is reported as a whole. -/
def rejected (text : List Char) (problem : Problem) : Lexeme :=
  { text, faults := [⟨problem, 0, Text.width text⟩] }

end Lexeme

/-- A lexeme and what is left to read. -/
structure Step where
  lexeme : Lexeme
  rest : List Char
  deriving DecidableEq, Repr

def isBlank (c : Char) : Bool := c = ' ' || c = '\t' || c = '\n' || c = '\r'

def isNameStart (c : Char) : Bool := c.isAlpha || c = '_'

def isNamePart (c : Char) : Bool := isNameStart c || c.isDigit

end Ferrite.Lexer
