import Ferrite.Literal
import Ferrite.Span

/-! The words of the language. -/

namespace Ferrite

inductive Punct
  | plus | minus | star | slash | percent | caret
  | and | or | andAnd | orOr | shl | shr
  | eq | eqEq | ne | gt | lt | ge | le | not
  | arrow | semi | colon | comma | dot
  | lparen | rparen | lbrace | rbrace | lbracket | rbracket
  deriving DecidableEq, Repr

namespace Punct

def spelling : Punct → String
  | plus => "+" | minus => "-" | star => "*" | slash => "/" | percent => "%" | caret => "^"
  | and => "&" | or => "|" | andAnd => "&&" | orOr => "||" | shl => "<<" | shr => ">>"
  | eq => "=" | eqEq => "==" | ne => "!=" | gt => ">" | lt => "<" | ge => ">=" | le => "<="
  | not => "!" | arrow => "->" | semi => ";" | colon => ":" | comma => "," | dot => "."
  | lparen => "(" | rparen => ")" | lbrace => "\x7b" | rbrace => "\x7d"
  | lbracket => "[" | rbracket => "]"

end Punct

inductive Keyword
  | fn | let | if | else | loop | while | return | foreign | mut | pub | as
  | break | continue | match | mod | struct | enum | union | trait | impl
  | use | const | static | type
  deriving DecidableEq, Repr

namespace Keyword

def all : List Keyword :=
  [.fn, .let, .if, .else, .loop, .while, .return, .foreign, .mut, .pub, .as, .break, .continue,
   .match, .mod, .struct, .enum, .union, .trait, .impl, .use, .const, .static, .type]

def spelling : Keyword → String
  | .fn => "fn" | .let => "let" | .if => "if" | .else => "else" | .loop => "loop"
  | .while => "while" | .return => "return" | .foreign => "extern" | .mut => "mut"
  | .pub => "pub" | .as => "as" | .break => "break" | .continue => "continue"
  | .match => "match" | .mod => "mod" | .struct => "struct" | .enum => "enum"
  | .union => "union" | .trait => "trait" | .impl => "impl" | .use => "use"
  | .const => "const" | .static => "static" | .type => "type"

def ofSpelling? (word : String) : Option Keyword := all.find? (·.spelling = word)

theorem mem_all (k : Keyword) : k ∈ all := by cases k <;> decide

theorem ofSpelling?_spelling (k : Keyword) : ofSpelling? k.spelling = some k := by
  cases k <;> decide

end Keyword

/-- What a token says, wherever it stands. -/
inductive Terminal
  | endOfInput
  | name (text : String)
  | literal (value : Literal)
  | punct (p : Punct)
  | keyword (k : Keyword)
  deriving DecidableEq, Repr

namespace Terminal

def quoted (text : String) : String := "`" ++ text ++ "`"

/-- The kind of token, as messages name it. -/
def describe : Terminal → String
  | .endOfInput => "end of input"
  | .name _ => "identifier"
  | .literal (.text _) => "string literal"
  | .literal _ => "literal"
  | .punct p => quoted p.spelling
  | .keyword k => quoted k.spelling

/-- The kind of token and, for names and plain literals, which one it is. -/
def describeFully (t : Terminal) : String :=
  match t with
  | .name text => t.describe ++ " " ++ quoted text
  | .literal (.text _) => t.describe
  | .literal value => t.describe ++ " " ++ quoted value.display
  | _ => t.describe

end Terminal

structure Token where
  terminal : Terminal
  span : Span
  deriving DecidableEq, Repr

namespace Token

def isEnd (t : Token) : Bool := t.terminal = .endOfInput

/-- The spelling of a name. -/
def name? (t : Token) : Option String :=
  match t.terminal with
  | .name text => some text
  | _ => none

def shift (n : Nat) (t : Token) : Token := { t with span := t.span.shift n }

end Token
end Ferrite
