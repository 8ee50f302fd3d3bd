import Ferrite.Parse.State

/-! Types as they are written. -/

namespace Ferrite.Parse

/-- A type's result: behind an arrow, or the unit type. -/
def resultOf (type : Parser Ty) : Parser Ty := do
  if ← accept .arrow then type else return .unit

/-- One type in parentheses is that type, unless a comma follows it. -/
def tupleOf : List Ty × Bool → Ty
  | ([t], false) => t
  | (ts, _) => .tuple ts

/-- A type nested at most as deep as the bound. -/
def typeWithin : Nat → Parser Ty
  | 0 => throw .exhausted
  | bound + 1 => do
      let start ← span
      match ← terminal with
      | .name text =>
          advance
          match Ty.ofName? text with
          | some t => return t
          | none => do
              report (.unknownType text) start
              return .unknown
      | .punct .not => do
          advance
          return .never
      | .punct .lparen => return tupleOf (← parenthesized (typeWithin bound))
      | .keyword .fn => do
          advance
          let (params, _) ← parenthesized (typeWithin bound)
          return .function params (← resultOf (typeWithin bound))
      | .punct .and => throw (.unsupported .referenceType start)
      | .punct .lbracket => throw (.unsupported .arrayType start)
      | _ => failAt .noType

def type : Parser Ty := do typeWithin ((← remaining) + 1)

end Ferrite.Parse
