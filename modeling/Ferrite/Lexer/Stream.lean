import Ferrite.Lexer.Lossless

/-! A whole text as lexemes, and the tokens and problems in it with their places. -/

namespace Ferrite.Lexer

def lexemes : List Char → List Lexeme
  | [] => []
  | c :: rest => (scan c rest).lexeme :: lexemes (scan c rest).rest
termination_by cs => cs.length
decreasing_by exact scan_rest_length c rest

/-- The tokens of lexemes that start at `offset`, and the end of input behind them. -/
def tokensAt (file : FileId) : Nat → List Lexeme → List Token
  | offset, [] => [⟨.endOfInput, ⟨file, offset, offset⟩⟩]
  | offset, l :: ls =>
      let rest := tokensAt file (offset + l.width) ls
      match l.token? with
      | some (terminal, width) => ⟨terminal, ⟨file, offset, offset + width⟩⟩ :: rest
      | none => rest

def Fault.place (file : FileId) (offset : Nat) (f : Fault) : Located Problem :=
  ⟨f.problem, ⟨file, offset + f.start, offset + f.stop⟩⟩

def problemsAt (file : FileId) : Nat → List Lexeme → List (Located Problem)
  | _, [] => []
  | offset, l :: ls => l.faults.map (·.place file offset) ++ problemsAt file (offset + l.width) ls

/-- What reading a text gives. -/
structure Reading where
  tokens : List Token
  problems : List (Located Problem)
  deriving DecidableEq, Repr

def Reading.diagnostics (r : Reading) : List Diagnostic := r.problems.map Problem.diagnostic

def read (file : FileId) (text : String) : Reading :=
  let ls := lexemes text.toList
  { tokens := tokensAt file 0 ls, problems := problemsAt file 0 ls }

/-- No character is lost. -/
theorem lexemes_text (cs : List Char) : (lexemes cs).flatMap Lexeme.text = cs := by
  fun_induction lexemes cs with
  | case1 => rfl
  | case2 c rest ih =>
      rw [List.flatMap_cons, ih]
      exact scan_all c rest

end Ferrite.Lexer
