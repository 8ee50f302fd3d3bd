import Ferrite.Lexer.Number

/-! The lexeme at the start of a text. -/

namespace Ferrite.Lexer

/-- The marks of two characters. -/
def pair? (c d : Char) : Option Punct :=
  match c, d with
  | '-', '>' => some .arrow
  | '&', '&' => some .andAnd
  | '|', '|' => some .orOr
  | '=', '=' => some .eqEq
  | '!', '=' => some .ne
  | '<', '=' => some .le
  | '<', '<' => some .shl
  | '>', '=' => some .ge
  | '>', '>' => some .shr
  | _, _ => none

/-- The marks of one character. -/
def single? (c : Char) : Option Punct :=
  match c with
  | '+' => some .plus
  | '-' => some .minus
  | '*' => some .star
  | '/' => some .slash
  | '%' => some .percent
  | '^' => some .caret
  | '&' => some .and
  | '|' => some .or
  | '=' => some .eq
  | '!' => some .not
  | '<' => some .lt
  | '>' => some .gt
  | ';' => some .semi
  | ':' => some .colon
  | ',' => some .comma
  | '.' => some .dot
  | '(' => some .lparen
  | ')' => some .rparen
  | '\x7b' => some .lbrace
  | '\x7d' => some .rbrace
  | '[' => some .lbracket
  | ']' => some .rbracket
  | _ => none

/-- A mark of one character, or a character that starts nothing. -/
def single (c : Char) (rest : List Char) : Step :=
  match single? c with
  | some p => ⟨.whole [c] (.punct p), rest⟩
  | none => ⟨.rejected [c] (.unexpectedChar c), rest⟩

def mark (c : Char) (rest : List Char) : Step :=
  match rest with
  | d :: r =>
      match pair? c d with
      | some p => ⟨.whole [c, d] (.punct p), r⟩
      | none => single c rest
  | [] => single c rest

/-- The contents of a string up to its closing quote, and the text behind that quote. A backslash
takes the next character with it; both are kept as they stand. -/
def stringBody : List Char → Option (List Char × List Char)
  | [] => none
  | c :: r =>
      if c = '\x22' then some ([], r)
      else if c = '\\' then
        match r with
        | [] => none
        | d :: r => (stringBody r).map fun (a, b) => (c :: d :: a, b)
      else (stringBody r).map fun (a, b) => (c :: a, b)

def string (rest : List Char) : Step :=
  match stringBody rest with
  | some (contents, rest) =>
      ⟨.whole ('\x22' :: contents ++ ['\x22']) (.literal (.text (String.ofList contents))), rest⟩
  | none => ⟨.rejected ('\x22' :: rest) .unterminatedString, []⟩

/-- The rest of a comment, `open` comments deep inside it, up to its end. -/
def commentBody : Nat → List Char → Option (List Char × List Char)
  | depth, '/' :: '*' :: r => (commentBody (depth + 1) r).map fun (a, b) => ('/' :: '*' :: a, b)
  | 0, '*' :: '/' :: r => some (['*', '/'], r)
  | depth + 1, '*' :: '/' :: r => (commentBody depth r).map fun (a, b) => ('*' :: '/' :: a, b)
  | depth, c :: r => (commentBody depth r).map fun (a, b) => (c :: a, b)
  | _, [] => none

/-- The comment whose first two characters are already read. -/
def comment (rest : List Char) : Step :=
  match commentBody 0 rest with
  | some (body, rest) => ⟨.skipped ('/' :: '*' :: body), rest⟩
  | none => ⟨.rejected ('/' :: '*' :: rest) .unterminatedComment, []⟩

def lineComment (rest : List Char) : Step :=
  ⟨.skipped ('/' :: rest.takeWhile (· ≠ '\n')), rest.dropWhile (· ≠ '\n')⟩

/-- A name, a keyword or a truth value. -/
def wordTerminal (text : String) : Terminal :=
  if text = "true" then .literal (.bool true)
  else if text = "false" then .literal (.bool false)
  else match Keyword.ofSpelling? text with
    | some k => .keyword k
    | none => .name text

def word (c : Char) (rest : List Char) : Step :=
  let text := c :: rest.takeWhile isNamePart
  ⟨.whole text (wordTerminal (String.ofList text)), rest.dropWhile isNamePart⟩

/-- Reads the lexeme of a text by its first character and, for comments, its second. -/
def scan (c : Char) (rest : List Char) : Step :=
  if isBlank c then ⟨.skipped [c], rest⟩
  else if isNameStart c then word c rest
  else if c.isDigit then number (c :: rest)
  else if c = '\x22' then string rest
  else if c = '/' then
    match rest with
    | '/' :: _ => lineComment rest
    | '*' :: r => comment r
    | _ => mark c rest
  else mark c rest

end Ferrite.Lexer
