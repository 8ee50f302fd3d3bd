import Ferrite.Parse.State

/-! Where reading goes on behind a mistake. -/

namespace Ferrite.Parse

/-- Tokens passed up to some point: the last of them, and those that are left. -/
abbrev Skip := Option Token × List Token

/-- Passes the end of the current statement, `depth` braces deep inside it: a `;`, or a block in
braces. Stops before the brace that closes what the statement stands in. -/
def skipStatement : Nat → Option Token → List Token → Skip
  | _, last, [] => (last, [])
  | depth, last, t :: ts =>
      match t.terminal, depth with
      | .endOfInput, _ => (last, t :: ts)
      | .punct .semi, 0 => (some t, ts)
      | .punct .lbrace, depth => skipStatement (depth + 1) (some t) ts
      | .punct .rbrace, 0 => (last, t :: ts)
      | .punct .rbrace, 1 => (some t, ts)
      | .punct .rbrace, depth + 2 => skipStatement (depth + 1) (some t) ts
      | _, depth => skipStatement depth (some t) ts

/-- Stops before the next item outside all braces. -/
def skipItem : Nat → Option Token → List Token → Skip
  | _, last, [] => (last, [])
  | depth, last, t :: ts =>
      match t.terminal, depth with
      | .endOfInput, _ => (last, t :: ts)
      | .keyword .fn, 0 => (last, t :: ts)
      | .keyword .foreign, 0 => (last, t :: ts)
      | .punct .lbrace, depth => skipItem (depth + 1) (some t) ts
      | .punct .rbrace, depth => skipItem (depth - 1) (some t) ts
      | _, depth => skipItem depth (some t) ts

/-- Passes at least one token where `before` is how many tokens were left at the mistake. -/
def ensureProgress (before : Nat) : Parser Unit := do
  if (← remaining) = before then advance

def recoverStatement (before : Nat) : Parser Unit := do
  modify fun s =>
    let (last, rest) := skipStatement 0 s.last s.rest
    { s with last, rest }
  ensureProgress before

def recoverItem (before : Nat) : Parser Unit := do
  modify fun s =>
    let (last, rest) := skipItem 0 s.last s.rest
    { s with last, rest }
  ensureProgress before

end Ferrite.Parse
