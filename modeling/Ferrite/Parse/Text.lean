import Ferrite.Failure
import Ferrite.Lexer.Stream
import Ferrite.Parse.Program

/-! Texts read and parsed in one go, with the diagnostics of both in one log. -/

namespace Ferrite.Parse

/-- How a parse that gave up is reported, after so many errors. -/
def Abort.failure (errors : Nat) : Abort → Failure
  | .unsupported construct span => .unsupported construct.describe span
  | .reported | .exhausted => .compilationFailed errors

structure Parsed (α : Type) where
  result : Except Failure α
  log : Log

def ofText {α : Type} (p : Parser α) (file : FileId) (text : String) : Parsed α :=
  let reading := Lexer.read file text
  let outcome := run p reading.tokens
  let log := (Log.empty.append reading.diagnostics).append outcome.diagnostics
  ⟨outcome.result.mapError (·.failure log.errors), log⟩

/-- The expression that a text holds. Any error in the text is a failure. -/
def exprOfText (text : String) : Except Failure Expr :=
  let parsed := ofText expression 0 text
  match parsed.result with
  | .error f => .error f
  | .ok e => if parsed.log.hasErrors then .error (.compilationFailed parsed.log.errors) else .ok e

end Ferrite.Parse
