import Ferrite.Span

/-! Why a source file could not be compiled to the end. -/

namespace Ferrite

inductive Failure
  | unreadable (path cause : String)
  | unsupported (construct : String) (span : Span)
  | compilationFailed (errors : Nat)
  | lowering (detail : String)
  | scopeMismatch (detail : String)
  deriving DecidableEq, Repr

namespace Failure

def message : Failure → String
  | unreadable path cause => s!"failed to read source {path}: {cause}"
  | unsupported construct _ => s!"{construct} is not supported"
  | compilationFailed errors => s!"compilation failed with {errors} error(s)"
  | lowering detail => s!"code generation failed: {detail}"
  | scopeMismatch detail => s!"scope replay diverged from the recorded scopes: {detail}"

/-- The place of a construct that is not supported. -/
def span? : Failure → Option Span
  | unsupported _ span => some span
  | _ => none

end Failure
end Ferrite
