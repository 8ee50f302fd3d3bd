import Ferrite.Decimal.Numeral
import Ferrite.Lexer.Lexeme

/-!
Number literals: integers in four bases, and decimal numbers with a point or an exponent. Digits
may be set apart by underscores, and a type may follow as a suffix.
-/

namespace Ferrite.Lexer

/-- The value of a digit or letter below the base. -/
def digit? (base : Nat) (c : Char) : Option Nat :=
  let value? :=
    if c.isDigit then some (c.toNat - '0'.toNat)
    else if c.isLower then some (c.toNat - 'a'.toNat + 10)
    else if c.isUpper then some (c.toNat - 'A'.toNat + 10)
    else none
  value?.filter (· < base)

/-- Digits and the underscores between them. -/
def isRun (base : Nat) (c : Char) : Bool := (digit? base c).isSome || c = '_'

/-- A number read digit by digit. A digit that would lead beyond 64 bits is left out. -/
structure Tally where
  value : Nat := 0
  digits : Nat := 0
  overflow : Bool := false
  deriving DecidableEq, Repr

def Tally.add (base : Nat) (t : Tally) (d : Nat) : Tally :=
  let next := t.value * base + d
  if next < UInt64.size then { t with value := next, digits := t.digits + 1 }
  else { t with digits := t.digits + 1, overflow := true }

def tally (base : Nat) (run : List Char) : Tally :=
  (run.filterMap (digit? base)).foldl (Tally.add base) {}

/-- The base that the first characters ask for, those characters, and what follows them. -/
def splitBase : List Char → Nat × List Char × List Char
  | '0' :: 'b' :: r => (2, ['0', 'b'], r)
  | '0' :: 'o' :: r => (8, ['0', 'o'], r)
  | '0' :: 'x' :: r => (16, ['0', 'x'], r)
  | cs => (10, [], cs)

/-- The type of an integer with the given suffix, and the suffix if it names no such type. -/
def suffixType (suffix : List Char) : IntTy × Option String :=
  if suffix = [] then (.i32, none)
  else match IntTy.ofName? (String.ofList suffix) with
    | some t => (t, none)
    | none => (.i32, some (String.ofList suffix))

/-- The integer whose digits, with the base in front, are `spelled`. -/
def integer (base : Nat) (spelled run suffix : List Char) : Lexeme :=
  let t := tally base run
  let digitsEnd := Text.width spelled
  let stop := digitsEnd + Text.width suffix
  let (type, unknown?) := suffixType suffix
  let faults :=
    (if t.digits = 0 then [⟨.missingDigits, 0, digitsEnd⟩] else []) ++
    (if t.overflow then [⟨.tooLarge, 0, digitsEnd⟩] else []) ++
    (unknown?.map fun s => ⟨.integerSuffix s, digitsEnd, stop⟩).toList ++
    (if !t.overflow && type.greatest < t.value then [⟨.outOfRange type, 0, stop⟩] else [])
  .whole (spelled ++ suffix) (.literal (.ofNat type t.value)) faults

/-- Whether an exponent's digits come next, with an optional sign in front. -/
def startsPower : List Char → Bool
  | c :: r =>
      c.isDigit || ((c = '+' || c = '-') && (match r with | d :: _ => d.isDigit | [] => false))
  | [] => false

/-- Whether a point here belongs to a number: not before a second point or a name. -/
def startsPlaces : List Char → Bool
  | c :: r => c = '.' && (match r with | d :: _ => d ≠ '.' && !isNameStart d | [] => true)
  | [] => false

def startsExponent : List Char → Bool
  | c :: r => (c = 'e' || c = 'E') && startsPower r
  | [] => false

/-- The point and the digits behind it, if a point comes next. -/
def splitPlaces (cs : List Char) : List Char × List Char :=
  match cs with
  | c :: r =>
      if startsPlaces cs then (c :: r.takeWhile (isRun 10), r.dropWhile (isRun 10)) else ([], cs)
  | [] => ([], [])

/-- The exponent with its letter and sign, if one comes next. -/
def splitExponent (cs : List Char) : List Char × List Char :=
  match cs with
  | c :: d :: r =>
      if startsExponent cs then
        (c :: d :: r.takeWhile (isRun 10), r.dropWhile (isRun 10))
      else ([], cs)
  | _ => ([], cs)

/-- What the value of a decimal number is read from: no underscores, and a small letter in front of the
exponent. -/
def numeralText (spelled : List Char) : List Char :=
  (spelled.filter (· ≠ '_')).map fun c => if c = 'E' then 'e' else c

/-- The bits of a decimal number, or the problem with it. -/
def floatValue (t : FloatTy) (spelled : List Char) : Literal × List Problem :=
  let digits := numeralText spelled
  match Decimal.Numeral.ofText? digits with
  | some n => (.float t (BitVec.ofNat t.width (n.code t.format)), [])
  | none => (.float .f64 0, [.malformedFloat (String.ofList digits)])

/-- The decimal number that starts with the digits `whole`. -/
def float (whole rest : List Char) : Step :=
  let (places, rest) := splitPlaces rest
  let (power, rest) := splitExponent rest
  let suffix := rest.takeWhile isNamePart
  let rest := rest.dropWhile isNamePart
  let spelled := whole ++ places ++ power
  let text := spelled ++ suffix
  let name := String.ofList suffix
  let type := if name = FloatTy.f32.name then FloatTy.f32 else .f64
  let suffixFaults :=
    if suffix = [] || name = type.name then []
    else [⟨.floatSuffix name, Text.width spelled, Text.width text⟩]
  let (value, problems) := floatValue type spelled
  let faults := suffixFaults ++ problems.map fun p => ⟨p, 0, Text.width text⟩
  ⟨.whole text (.literal value) faults, rest⟩

/-- The decimal number at the start of a text, read from its first digit on. -/
def rescan (cs : List Char) : Step := float (cs.takeWhile (isRun 10)) (cs.dropWhile (isRun 10))

/-- Whether digits follow a point that no base but ten allows. -/
def startsFraction : List Char → Bool
  | '.' :: c :: _ => c.isDigit
  | _ => false

/-- An integer with a fraction behind it, which is reported and skipped. -/
def integerWithFraction (base : Nat) (spelled run rest : List Char) : Step :=
  let fraction := rest.take 1 ++ (rest.drop 1).takeWhile isNamePart
  let start := Text.width spelled
  let whole := integer base spelled run []
  let fault : Fault := ⟨.fraction base, start, start + Text.width fraction⟩
  ⟨{ whole with text := whole.text ++ fraction, faults := fault :: whole.faults },
    (rest.drop 1).dropWhile isNamePart⟩

/-- The number at the start of a text that starts with a digit. What follows the digits decides whether
it is a decimal number, and then it is read again. -/
def number (cs : List Char) : Step :=
  let (base, head, body) := splitBase cs
  let run := body.takeWhile (isRun base)
  let rest := body.dropWhile (isRun base)
  if base = 10 && (startsPlaces rest || startsExponent rest) then rescan cs
  else if base ≠ 10 && startsFraction rest then integerWithFraction base (head ++ run) run rest
  else
    ⟨integer base (head ++ run) run (rest.takeWhile isNamePart), rest.dropWhile isNamePart⟩

end Ferrite.Lexer
