import Ferrite.Parse.Type

/-!
Expressions, by the powers of their operators. Each parser takes those that it calls again for a
nested construct as an argument, so none of them recurs by itself.
-/

namespace Ferrite.Parse

/-- Parsers for what is nested one level deeper. -/
structure Nested where
  block : Parser Block
  /-- An expression that ends at the given marks, of operators with at least the given power. -/
  operand : List Punct → Nat → Parser Expr
  /-- A chain of conditions from its `if` on. -/
  cond : Parser Cond

/-- Whether an expression has to end before the token. -/
def stops (marks : List Punct) : Terminal → Bool
  | .endOfInput => true
  | .punct p => marks.contains p
  | _ => false

namespace Nested

def expr (nested : Nested) (marks : List Punct) : Parser Expr := nested.operand marks 0

/-- The operators and right operands behind a left operand. -/
def operators (nested : Nested) (marks : List Punct) (power : Nat) : Nat → Expr → Parser Expr
  | 0, _ => throw .exhausted
  | bound + 1, lhs => do
      let t ← terminal
      if stops marks t then return lhs
      match t with
      | .punct .andAnd => failAt fun _ => .unsupportedOperator .andAnd
      | .punct .orOr => failAt fun _ => .unsupportedOperator .orOr
      | .keyword .as => throw (.unsupported .cast (← span))
      | _ =>
          match BinaryOp.ofTerminal? t with
          | none => return lhs
          | some op =>
              if op.leftPower < power then return lhs
              advance
              let rhs ← nested.operand marks op.rightPower
              let id ← freshId
              nested.operators marks power bound
                (.binary id (lhs.span.join rhs.span) op lhs rhs)

def call (nested : Nested) (start : Span) (callee : Ident) : Parser Expr := do
  let (args, _) ← parenthesized (nested.expr [.comma, .rparen])
  let id ← freshId
  return .call id (start.join (← lastSpan)) callee args

/-- An expression in parentheses. -/
def group (nested : Nested) (start : Span) : Parser Expr := do
  advance
  if ← isAt .rparen then throw (.unsupported .tuple (start.join (← span)))
  let inner ← nested.expr [.rparen, .comma]
  if ← isAt .comma then throw (.unsupported .tuple (start.join (← span)))
  expect .rparen
  let id ← freshId
  return .grouped id (start.join (← lastSpan)) inner

/-- A `return`, whose value is left out where nothing could start one. -/
def returning (nested : Nested) (start : Span) (marks : List Punct) : Parser Expr := do
  advance
  let value ←
    if stops (.semi :: .rbrace :: marks) (← terminal) then pure none
    else some <$> nested.expr marks
  let id ← freshId
  return .ret id (start.join (← lastSpan)) value

/-- An expression that ends with a block. -/
def blockLike (nested : Nested) : Parser Expr := do
  let start ← span
  match ← terminal with
  | .punct .lbrace => do
      let body ← nested.block
      let id ← freshId
      return .block id (start.join (← lastSpan)) body
  | .keyword .if => do
      let branches ← nested.cond
      let id ← freshId
      return .cond id (start.join (← lastSpan)) branches
  | .keyword .loop => do
      advance
      let body ← nested.block
      let id ← freshId
      return .loop id (start.join (← lastSpan)) body
  | .keyword .while => do
      advance
      let cond ← nested.expr [.lbrace]
      let body ← nested.block
      let id ← freshId
      return .while id (start.join (← lastSpan)) cond body
  | _ => failAt .noExpr

def startsBlockLike : Terminal → Bool
  | .punct .lbrace | .keyword .if | .keyword .loop | .keyword .while => true
  | _ => false

/-- An expression without an operator outside its parentheses. -/
def primary (nested : Nested) (marks : List Punct) : Parser Expr := do
  let start ← span
  let t ← terminal
  if stops marks t then failAt .noExpr
  else if startsBlockLike t then nested.blockLike
  else match t with
    | .literal value => do
        advance
        return .literal (← freshId) start value
    | .name text => do
        advance
        if ← isAt .lparen then nested.call start ⟨text, start⟩
        else return .path (← freshId) start ⟨text, start⟩
    | .punct .lparen => nested.group start
    | .keyword .return => nested.returning start marks
    | .keyword .match => throw (.unsupported (.expr .match) start)
    | .keyword .break => throw (.unsupported (.expr .break) start)
    | .keyword .continue => throw (.unsupported (.expr .continue) start)
    | .punct .lbracket => throw (.unsupported .array start)
    | _ => failAt .noExpr

def unary (nested : Nested) (marks : List Punct) : Parser Expr := do
  match UnaryOp.ofTerminal? (← terminal) with
  | none => nested.primary marks
  | some op => do
      let start ← span
      advance
      let operand ← nested.operand marks op.power
      let id ← freshId
      return .unary id (start.join operand.span) op operand

def binary (nested : Nested) (marks : List Punct) (power : Nat) : Parser Expr := do
  let lhs ← nested.unary marks
  nested.operators marks power ((← remaining) + 1) lhs

/-- A chain of conditions. Its links have no numbers of their own. -/
def conditions (nested : Nested) : Parser Cond := do
  advance
  let cond ← nested.expr [.lbrace]
  let yes ← nested.block
  if ← acceptKeyword .else then
    if (← terminal) = .keyword .if then return .orIf cond yes (← nested.cond)
    else return .orElse cond yes (← nested.block)
  else return .only cond yes

end Nested
end Ferrite.Parse
