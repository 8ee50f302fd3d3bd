import Ferrite.Parse.Block

/-! Whole texts: programs, lists of statements, and single expressions. -/

namespace Ferrite.Parse

/-- The parsers for constructs nested at most as deep as the bound. -/
def level : Nat → Nested
  | 0 =>
      { block := throw .exhausted
        operand := fun _ _ => throw .exhausted
        cond := throw .exhausted }
  | bound + 1 =>
      { block := fun s => (level bound).braced s
        operand := fun marks power s => (level bound).binary marks power s
        cond := fun s => (level bound).conditions s }

/-- Deep enough for the given number of tokens: every second level at least passes one. -/
def grammar (tokens : Nat) : Nested := level (2 * tokens + 2)

/-- The items up to the end of input. -/
def items (nested : Nested) : Nat → Parser (List Item)
  | 0 => throw .exhausted
  | bound + 1 => do
      if ← isAtEnd then return []
      let before ← remaining
      match ← attempt nested.item? with
      | some (some i) => return i :: (← items nested bound)
      | some none => do
          unexpected .item
          recoverItem before
          items nested bound
      | none => do
          recoverItem before
          items nested bound

def program : Parser Program := do
  let start ← span
  let bound ← remaining
  let is ← items (grammar bound) (bound + 1)
  return ⟨is, start.join (← span)⟩

/-- Statements up to the end of input. Items among them are reported and left out. -/
def statements (nested : Nested) : Nat → Parser (List Stmt)
  | 0 => throw .exhausted
  | bound + 1 => do
      let entries ← nested.entries ((← remaining) + 1)
      (entries.filterMap Entry.item?).forM fun i => report .strayItem i.span
      let stmts := entries.filterMap Entry.stmt?
      if ← isAtEnd then return stmts
      unexpected .statement
      advance
      return stmts ++ (← statements nested bound)

def statementList : Parser (List Stmt) := do
  let bound ← remaining
  statements (grammar bound) (bound + 1)

/-- One expression with nothing behind it. -/
def expression : Parser Expr := do
  let e ← (grammar (← remaining)).expr []
  if ← isAtEnd then return e else failAt (.unexpected .endOfInput)

/-- What came of a parse, and the problems on the way in the order of their reports. -/
structure Outcome (α : Type) where
  result : Except Abort α
  problems : List (Located Problem)

def Outcome.diagnostics {α : Type} (o : Outcome α) : List Diagnostic :=
  o.problems.map Problem.diagnostic

/-- A parse that has something to show has come to an end. -/
theorem Outcome.exists_ok {α β : Type} {o : Outcome α} {view : α → β} {b : β}
    (h : o.result.toOption.map view = some b) : ∃ a, o = ⟨.ok a, o.problems⟩ ∧ view a = b := by
  obtain ⟨result, problems⟩ := o
  cases result with
  | error e => cases h
  | ok a => exact ⟨a, rfl, Option.some.inj h⟩

/-- Runs a parser on tokens. -/
def run {α : Type} (p : Parser α) (tokens : List Token) : Outcome α :=
  match p { rest := tokens } with
  | .ok a s => ⟨.ok a, s.problems.reverse⟩
  | .error e s => ⟨.error e, s.problems.reverse⟩

end Ferrite.Parse
