import Ferrite.Diagnostic
import Ferrite.Numeric
import Ferrite.Text.Escape

/-! What can be wrong with the text of a source, apart from its grammar. -/

namespace Ferrite.Lexer

inductive Problem
  | unexpectedChar (c : Char)
  | unterminatedString
  | unterminatedComment
  | fraction (base : Nat)
  | missingDigits
  | tooLarge
  | integerSuffix (suffix : String)
  | floatSuffix (suffix : String)
  | malformedFloat (text : String)
  | outOfRange (type : IntTy)
  deriving DecidableEq, Repr

namespace Problem

def code : Problem → Code
  | unexpectedChar _ => .unexpectedChar
  | unterminatedString => .unterminatedString
  | unterminatedComment => .unterminatedComment
  | fraction _ | missingDigits | tooLarge | malformedFloat _ => .invalidLiteral
  | integerSuffix _ => .invalidIntegerSuffix
  | floatSuffix _ => .invalidFloatSuffix
  | outOfRange _ => .literalOutOfRange

def message : Problem → String
  | unexpectedChar c => s!"unexpected character `{Text.escape c}`"
  | unterminatedString => "unterminated string literal"
  | unterminatedComment => "unterminated block comment"
  | fraction base => s!"base {base} literals cannot have a fractional part"
  | missingDigits => "missing digits after the integer base prefix"
  | tooLarge => "integer literal is too large"
  | integerSuffix suffix => s!"invalid suffix `{suffix}` for number literal"
  | floatSuffix suffix => s!"invalid suffix `{suffix}` for float literal"
  | malformedFloat text => s!"invalid float literal `{text}`"
  | outOfRange t => s!"literal out of range for `{t.name}`"

def diagnostic (p : Located Problem) : Diagnostic :=
  { code := p.value.code, span := p.span, message := p.value.message }

end Problem
end Ferrite.Lexer
