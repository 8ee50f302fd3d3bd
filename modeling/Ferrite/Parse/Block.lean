import Ferrite.Parse.Expr
import Ferrite.Parse.Recovery

/-! Items, statements and blocks. A mistake in one of them costs that one alone. -/

namespace Ferrite.Parse

/-- What a block holds between its braces, in the order of the text. -/
inductive Entry
  | item (i : Item)
  | stmt (s : Stmt)

namespace Entry

def item? : Entry → Option Item
  | item i => some i
  | stmt _ => none

def stmt? : Entry → Option Stmt
  | item _ => none
  | stmt s => some s

end Entry

/-- A parameter of a function, with its type. -/
def param : Parser (Ident × Ty) := do
  let _ ← acceptKeyword .mut
  let name ← expectName
  expect .colon
  return (name, ← type)

/-- A function from its `fn` up to its result. The span ends there. -/
def header (start : Span) : Parser Header := do
  let id ← freshId
  advance
  let name ← expectName
  let (params, _) ← parenthesized param
  let result ← resultOf type
  return {
    id, name
    params := params.map (·.1)
    signature := ⟨params.map (·.2), result⟩
    span := start.join (← lastSpan) }

/-- A function without a body, which a `;` ends. -/
def declaration : Parser Header := do
  let start ← span
  let h ← header start
  expect .semi
  return { h with span := start.join (← lastSpan) }

/-- The functions of a foreign block. -/
def declarations : Nat → Parser (List Header)
  | 0 => throw .exhausted
  | bound + 1 => do
      match ← terminal with
      | .punct .rbrace | .endOfInput => return []
      | .keyword .fn => do
          let before ← remaining
          match ← attempt declaration with
          | some h => return h :: (← declarations bound)
          | none => do
              recoverStatement before
              declarations bound
      | _ => failAt (.unexpected .declaration)

/-- Functions that are defined elsewhere, by a convention that is `C` unless another is named. -/
def foreign : Parser Item := do
  let start ← span
  advance
  let abi ← match ← terminal with
    | .literal (.text abi) => do
        advance
        pure abi
    | _ => pure "C"
  expect .lbrace
  let functions ← declarations ((← remaining) + 1)
  expect .rbrace
  return .foreign (start.join (← lastSpan)) abi functions

namespace Nested

def function (nested : Nested) : Parser Item := do
  let start ← span
  let h ← header start
  let body ← nested.block
  return .function { h with span := start.join (← lastSpan) } body

/-- An item, or `none` where none starts. -/
def item? (nested : Nested) : Parser (Option Item) := do
  match ← terminal with
  | .keyword .fn => some <$> nested.function
  | .keyword .foreign => some <$> foreign
  | .keyword .pub => throw (.unsupported .visibility (← span))
  | .keyword k =>
      if k ∈ [.mod, .struct, .enum, .union, .trait, .impl, .use, .const, .static, .type] then
        throw (.unsupported (.item k) (← span))
      else return none
  | _ => return none

def binding (nested : Nested) : Parser Stmt := do
  let start ← span
  let id ← freshId
  advance
  let _ ← acceptKeyword .mut
  let name ← expectName
  let type ← if ← accept .colon then some <$> type else pure none
  expect .eq
  let init ← nested.expr [.semi]
  expect .semi
  return .bind id (start.join (← lastSpan)) name type init

/-- An expression as a statement. It ends with a `;` or a block, or before a `}`. -/
def exprStatement (nested : Nested) : Parser Stmt := do
  let start ← span
  let e ←
    if startsBlockLike (← terminal) then nested.blockLike else nested.expr [.semi, .rbrace]
  let semi ← accept .semi
  if !semi && !e.endsInBlock && !(← isAt .rbrace) then failAt (.unexpected .statementEnd)
  else return .expr (start.join (← lastSpan)) e semi

def statement (nested : Nested) : Parser Stmt := do
  if (← terminal) = .keyword .let then nested.binding else nested.exprStatement

/-- Items and statements up to a `}` or the end of input. -/
def entries (nested : Nested) : Nat → Parser (List Entry)
  | 0 => throw .exhausted
  | bound + 1 => do
      match ← terminal with
      | .punct .rbrace | .endOfInput => return []
      | .punct .semi => do
          advance
          nested.entries bound
      | _ => do
          let before ← remaining
          match ← attempt nested.item? with
          | some (some i) => return .item i :: (← nested.entries bound)
          | none => do
              recoverStatement before
              nested.entries bound
          | some none =>
              match ← attempt nested.statement with
              | some s => return .stmt s :: (← nested.entries bound)
              | none => do
                  recoverStatement before
                  nested.entries bound

/-- The value of a block: its last entry, if that is an expression and no `;` stands behind it. -/
def tail? (entries : List Entry) (lastIsSemi : Bool) : Option Expr :=
  match entries.getLast? with
  | some (.stmt (.expr _ e false)) => if lastIsSemi then none else some e
  | _ => none

/-- A block with its braces. -/
def braced (nested : Nested) : Parser Block := do
  let start ← span
  let id ← freshId
  expect .lbrace
  let entries ← nested.entries ((← remaining) + 1)
  let lastIsSemi := (← get).last.map Token.terminal = some (.punct .semi)
  let tail := tail? entries lastIsSemi
  let stmts := entries.filterMap Entry.stmt?
  expect .rbrace
  return .mk id (start.join (← lastSpan)) (entries.filterMap Entry.item?)
    (if tail.isSome then stmts.dropLast else stmts) tail

end Nested
end Ferrite.Parse
