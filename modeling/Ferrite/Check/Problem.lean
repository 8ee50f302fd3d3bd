import Ferrite.Diagnostic
import Ferrite.Tree.Operator
import Ferrite.Ty

/-! What can be wrong with the names and types of a program. -/

namespace Ferrite.Check

inductive Problem
  | undefinedValue (name : String)
  | undefinedFunction (name : String)
  | repeatedItem (name : String)
  | repeatedParam (name : String)
  | repeatedLocal (name : String)
  | mismatch (expected found : Ty)
  | body (function : String) (declared found : Ty)
  | returned (function : String) (declared found : Ty)
  | missingElse (found : Ty)
  | branches (expected found : Ty)
  | operands (op : BinaryOp) (lhs rhs : Ty)
  | unaryOperand (op : UnaryOp) (type : Ty)
  | binaryOperand (op : BinaryOp) (type : Ty)
  | assignment
  | calledLocal (name : String) (type : Ty)
  | arity (name : String) (signature : Signature) (supplied : Nat)
  /-- Arguments are counted from one. -/
  | argument (number : Nat) (name : String) (found expected : Ty)
  deriving DecidableEq, Repr

namespace Problem

def code : Problem → Code
  | undefinedValue _ | undefinedFunction _ => .undefinedSymbol
  | repeatedItem _ | repeatedParam _ | repeatedLocal _ => .redefinition
  | mismatch .. | body .. | returned .. | missingElse _ | branches .. | operands .. =>
      .incompatibleTypes
  | unaryOperand .. | binaryOperand .. => .invalidOperand
  | assignment => .invalidAssignment
  | calledLocal .. | arity .. | argument .. => .invalidCall

def message : Problem → String
  | undefinedValue name => s!"cannot find value `{name}` in this scope"
  | undefinedFunction name => s!"cannot find function `{name}` in this scope"
  | repeatedItem name => s!"the name `{name}` is defined multiple times"
  | repeatedParam name =>
      s!"identifier `{name}` is bound more than once in this parameter list"
  | repeatedLocal name => s!"`{name}` is already bound in this scope"
  | mismatch expected found =>
      s!"mismatched types: expected `{expected.display}`, found `{found.display}`"
  | body function declared found =>
      s!"mismatched types: function `{function}` is declared to return `{declared.display}` " ++
        s!"but its body has type `{found.display}`"
  | returned function declared found =>
      s!"mismatched types: function `{function}` returns `{declared.display}`, " ++
        s!"found `{found.display}`"
  | missingElse found => s!"`if` without `else` must have type `()`, found `{found.display}`"
  | branches expected found =>
      s!"`if` and `else` have incompatible types: expected `{expected.display}`, " ++
        s!"found `{found.display}`"
  | operands op lhs rhs =>
      s!"mismatched types: cannot apply `{op.symbol}` to `{lhs.display}` and `{rhs.display}`"
  | unaryOperand op t => s!"cannot apply unary operator `{op.symbol}` to type `{t.display}`"
  | binaryOperand op t => s!"cannot apply binary operator `{op.symbol}` to type `{t.display}`"
  | assignment => "invalid left-hand side of assignment"
  | calledLocal name t => s!"`{name}` is a local of type `{t.display}`, not a function"
  | arity name signature supplied =>
      s!"function `{name}` takes {signature.params.length} argument(s) but {supplied} were supplied"
  | argument number name found expected =>
      s!"argument {number} of `{name}` has type `{found.display}`, expected `{expected.display}`"

def notes : Problem → List String
  | arity name signature _ => [s!"`{name}` is declared as `{signature.display}`"]
  | _ => []

/-- The types that the problem is about. -/
def types : Problem → List Ty
  | mismatch a b | body _ a b | returned _ a b | branches a b | operands _ a b
  | argument _ _ a b => [a, b]
  | missingElse t | unaryOperand _ t | binaryOperand _ t | calledLocal _ t => [t]
  | arity _ signature _ => [signature.type]
  | _ => []

def diagnostic (p : Located Problem) : Diagnostic :=
  { code := p.value.code, span := p.span, message := p.value.message, notes := p.value.notes }

end Problem
end Ferrite.Check
