import Ferrite.Parse.Problem
import Ferrite.Tree.Basic

/-!
Parsers over a list of tokens. Their state stays as it is when a parser gives up, so that reading
can go on behind a mistake. The end of input is never passed.
-/

namespace Ferrite.Parse

/-- Why a parser gave up. -/
inductive Abort
  /-- A problem was reported, and reading may go on at the next statement or item. -/
  | reported
  /-- A construct was met that ends the whole parse. -/
  | unsupported (construct : Construct) (span : Span)
  /-- A bound on repetition or nesting was met. The bounds are set so that none is. -/
  | exhausted
  deriving DecidableEq, Repr

structure State where
  rest : List Token
  /-- The token passed last. -/
  last : Option Token := none
  nextId : NodeId := 0
  /-- The newest one first. -/
  problems : List (Located Problem) := []
  deriving DecidableEq, Repr

abbrev Parser := EStateM Abort State

namespace State

def terminal (s : State) : Terminal := (s.rest.head?.map Token.terminal).getD .endOfInput

/-- The place of the current token or, behind all tokens, of the last one. -/
def span (s : State) : Span := ((s.rest.head?.or s.last).map Token.span).getD default

def lastSpan (s : State) : Span := (s.last.map Token.span).getD s.span

/-- Passes the current token. -/
def advance (s : State) : State :=
  match s.rest with
  | [] => s
  | t :: ts => if t.isEnd then s else { s with rest := ts, last := some t }

end State

def terminal : Parser Terminal := return (← get).terminal

def span : Parser Span := return (← get).span

def lastSpan : Parser Span := return (← get).lastSpan

/-- How many tokens are left. -/
def remaining : Parser Nat := return (← get).rest.length

def advance : Parser Unit := modify State.advance

def isAt (p : Punct) : Parser Bool := return (← get).terminal = .punct p

def isAtEnd : Parser Bool := return (← get).terminal = .endOfInput

def accept (p : Punct) : Parser Bool := do
  if ← isAt p then advance; return true else return false

def acceptKeyword (k : Keyword) : Parser Bool := do
  if (← terminal) = .keyword k then advance; return true else return false

def report (problem : Problem) (span : Span) : Parser Unit :=
  modify fun s => { s with problems := ⟨problem, span⟩ :: s.problems }

/-- Reports that something else was asked for at the current token. -/
def unexpected (wanted : Wanted) : Parser Unit := do
  report (.unexpected wanted (← terminal)) (← span)

/-- Reports a problem with the current token and gives up. -/
def failAt {α : Type} (problem : Terminal → Problem) : Parser α := do
  report (problem (← terminal)) (← span)
  throw .reported

def expect (p : Punct) : Parser Unit := do
  if ← accept p then return else failAt (.unexpected (.punct p))

def expectName : Parser Ident := do
  match ← terminal with
  | .name text =>
      let place ← span
      advance
      return ⟨text, place⟩
  | _ => failAt (.unexpected .name)

def freshId : Parser NodeId :=
  modifyGet fun s => (s.nextId, { s with nextId := s.nextId + 1 })

/-- Runs a parser whose mistakes its caller makes good; `none` where it made one. -/
def attempt {α : Type} (p : Parser α) : Parser (Option α) := fun s =>
  match p s with
  | .ok a s => .ok (some a) s
  | .error .reported s => .ok none s
  | .error e s => .error e s

/-- Elements with commas between them up to a closing parenthesis, which is left unread. Tells
also whether a comma came last; `comma` is the answer for no elements. -/
def commaList {α : Type} (element : Parser α) : Nat → Bool → Parser (List α × Bool)
  | 0, _ => throw .exhausted
  | bound + 1, comma => do
      if (← isAt .rparen) || (← isAtEnd) then return ([], comma)
      let x ← element
      if ← accept .comma then
        let (xs, comma) ← commaList element bound true
        return (x :: xs, comma)
      else return ([x], false)

/-- A list of elements in parentheses, and whether a comma came last. -/
def parenthesized {α : Type} (element : Parser α) : Parser (List α × Bool) := do
  expect .lparen
  let list ← commaList element ((← remaining) + 1) false
  expect .rparen
  return list

end Ferrite.Parse
