import Ferrite.Numeric

/-! Types of expressions. The unit type is the tuple without parts. -/

namespace Ferrite

inductive Ty
  | bool
  | int (type : IntTy)
  | float (type : FloatTy)
  | str
  | tuple (parts : List Ty)
  | function (params : List Ty) (result : Ty)
  /-- The type of what never produces a value. -/
  | never
  /-- Stands in for a type that could not be found out. -/
  | unknown
  deriving Repr, Inhabited

/-- What a function takes and gives. -/
structure Signature where
  params : List Ty
  result : Ty
  deriving Repr

namespace Ty

mutual
def same : Ty → Ty → Bool
  | .bool, .bool | .str, .str | .never, .never | .unknown, .unknown => true
  | .int a, .int b => a = b
  | .float a, .float b => a = b
  | .tuple as, .tuple bs => sameAll as bs
  | .function as a, .function bs b => sameAll as bs && same a b
  | _, _ => false

def sameAll : List Ty → List Ty → Bool
  | [], [] => true
  | a :: as, b :: bs => same a b && sameAll as bs
  | _, _ => false
end

mutual
theorem same_iff : ∀ a b : Ty, same a b = true ↔ a = b
  | .bool, b | .str, b | .never, b | .unknown, b => by cases b <;> simp [same]
  | .int _, b | .float _, b => by cases b <;> simp [same]
  | .tuple as, b => by cases b <;> simp [same, sameAll_iff as]
  | .function as a, b => by cases b <;> simp [same, sameAll_iff as, same_iff a]

theorem sameAll_iff : ∀ as bs : List Ty, sameAll as bs = true ↔ as = bs
  | [], bs => by cases bs <;> simp [sameAll]
  | a :: as, bs => by cases bs <;> simp [sameAll, same_iff a, sameAll_iff as]
end

instance : DecidableEq Ty := fun a b => decidable_of_iff _ (same_iff a b)

def unit : Ty := .tuple []

def isUnit : Ty → Bool
  | .tuple [] => true
  | _ => false

/-- The types that have a name of one word. -/
def named : List (String × Ty) :=
  ("bool", .bool) :: IntTy.all.map (fun t => (t.name, .int t)) ++
    [("f32", .float .f32), ("f64", .float .f64), ("str", .str)]

def ofName? (name : String) : Option Ty := named.lookup name

def isInteger : Ty → Bool
  | .int _ => true
  | _ => false

def isSigned : Ty → Bool
  | .int t => t.isSigned
  | _ => false

def isFloat : Ty → Bool
  | .float _ => true
  | _ => false

def isNumeric (t : Ty) : Bool := t.isInteger || t.isFloat

mutual
/-- Whether an unknown type occurs anywhere in the type. -/
def hasUnknown : Ty → Bool
  | .unknown => true
  | .tuple parts => anyUnknown parts
  | .function params result => anyUnknown params || result.hasUnknown
  | _ => false

def anyUnknown : List Ty → Bool
  | [] => false
  | t :: ts => t.hasUnknown || anyUnknown ts
end

mutual
/-- Equality that leaves the results of functions out. Unknown types equal nothing. -/
def alike : Ty → Ty → Bool
  | .unknown, _ | _, .unknown => false
  | .tuple as, .tuple bs => allAlike as bs
  | .function as _, .function bs _ => allAlike as bs
  | .bool, .bool | .str, .str | .never, .never => true
  | .int a, .int b => a = b
  | .float a, .float b => a = b
  | _, _ => false

def allAlike : List Ty → List Ty → Bool
  | [], [] => true
  | a :: as, b :: bs => alike a b && allAlike as bs
  | _, _ => false
end

/-- Whether a value of the first type may stand where the second is asked for. What never
produces a value fits everywhere, and so does a type that is not fully known. -/
def fits (found expected : Ty) : Bool :=
  found.hasUnknown || expected.hasUnknown || found = .never || found.alike expected

mutual
def display : Ty → String
  | .bool => "bool"
  | .int t => t.name
  | .float t => t.name
  | .str => "str"
  | .tuple parts =>
      "(" ++ displayAll parts ++ (if parts.length = 1 then "," else "") ++ ")"
  | .function params result =>
      "fn(" ++ displayAll params ++ ")" ++
        (if result.isUnit then "" else " -> " ++ result.display)
  | .never => "!"
  | .unknown => "\x7bunknown\x7d"

/-- The types with commas between them. -/
def displayAll : List Ty → String
  | [] => ""
  | [t] => t.display
  | t :: ts => t.display ++ ", " ++ displayAll ts
end

theorem anyUnknown_eq_any (ts : List Ty) : anyUnknown ts = ts.any hasUnknown := by
  induction ts with
  | nil => rfl
  | cons t ts ih => simp [anyUnknown, ih]

theorem ofName?_intName (t : IntTy) : ofName? t.name = some (.int t) := by cases t <;> decide

end Ty

namespace Signature

def type (s : Signature) : Ty := .function s.params s.result

def display (s : Signature) : String := s.type.display

end Signature

instance : DecidableEq Signature := fun a b =>
  decidable_of_iff (a.params = b.params ∧ a.result = b.result) (by cases a; cases b; simp)

end Ferrite
