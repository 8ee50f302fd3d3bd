import Ferrite.Diagnostic
import Ferrite.Token

/-! What can be wrong with the grammar of a source. -/

namespace Ferrite.Parse

/-- What the grammar asks for at a place. -/
inductive Wanted
  | item
  | statement
  | endOfInput
  | name
  | punct (p : Punct)
  | declaration
  | statementEnd
  deriving DecidableEq, Repr

def Wanted.describe : Wanted → String
  | item => "item"
  | statement => "statement"
  | endOfInput => "end of input"
  | name => "identifier"
  | punct p => Terminal.quoted p.spelling
  | declaration => "`fn` or `\x7d`"
  | statementEnd => "`;` or `\x7d`"

inductive Problem
  | unexpected (wanted : Wanted) (found : Terminal)
  | noExpr (found : Terminal)
  | noType (found : Terminal)
  | unknownType (name : String)
  | unsupportedOperator (p : Punct)
  | strayItem
  deriving DecidableEq, Repr

namespace Problem

def code : Problem → Code
  | unexpected .. | strayItem => .unexpected
  | noExpr _ => .expectedExpr
  | noType _ | unknownType _ => .expectedType
  | unsupportedOperator _ => .invalidBinaryOp

def message : Problem → String
  | unexpected wanted found => s!"expected {wanted.describe}, found {found.describeFully}"
  | noExpr found => s!"expected expression, found {found.describeFully}"
  | noType found => s!"expected type, found {found.describeFully}"
  | unknownType name => s!"cannot find type `{name}`"
  | unsupportedOperator p => s!"`{p.spelling}` is not a supported binary operator"
  | strayItem => "expected statement, found item"

def diagnostic (p : Located Problem) : Diagnostic :=
  { code := p.value.code, span := p.span, message := p.value.message }

end Problem

/-- Constructs that are recognised and refused. -/
inductive Construct
  | visibility
  | item (k : Keyword)
  | expr (k : Keyword)
  | referenceType
  | arrayType
  | tuple
  | array
  | cast
  deriving DecidableEq, Repr

def Construct.describe : Construct → String
  | visibility => "`pub` visibility"
  | item k => s!"`{k.spelling}` item"
  | expr k => s!"`{k.spelling}` expression"
  | referenceType => "reference type"
  | arrayType => "array or slice type"
  | tuple => "tuple expression"
  | array => "array expression"
  | cast => "`as` cast"

end Ferrite.Parse
