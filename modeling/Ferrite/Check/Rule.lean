import Ferrite.Check.State

/-! The type of a node, given the types of its parts. -/

namespace Ferrite

def Literal.type : Literal → Ty
  | .bool _ => .bool
  | .int t _ => .int t
  | .float t _ => .float t
  | .text _ => .str

def UnaryOp.accepts : UnaryOp → Ty → Bool
  | .neg, t => t.isSigned || t.isFloat
  | .not, t => t.isInteger || t = .bool

/-- Whether the operator can join two operands of the type. -/
def BinaryOp.accepts (op : BinaryOp) (t : Ty) : Bool :=
  if op.isArithmetic || op.isOrdering then t.isNumeric
  else if op.isBitwise then t.isInteger || t = .bool
  else if op.isShift then t.isInteger
  else t.isNumeric || t = .bool

namespace Check

def path (name : Ident) : Checker Ty := do
  match ← local? name.text with
  | some t => return t
  | none =>
      match ← decl? name.text with
      | some d => return d.signature.type
      | none => do
          report (.undefinedValue name.text) name.span
          return .unknown

def unary (op : UnaryOp) (span : Span) (t : Ty) : Checker Ty := do
  reportIf (!t.hasUnknown && t ≠ .never && !op.accepts t) (.unaryOperand op t) span
  return t

/-- Only locals are assigned to, and only what fits them. -/
def assignment (target value : Expr) (lhs rhs : Ty) : Checker Ty := do
  if !lhs.hasUnknown then
    let isLocal ← match target.place? with
      | some name => pure (← local? name.text).isSome
      | none => pure false
    if !isLocal then report .assignment target.span
    else reportIf (!rhs.fits lhs) (.mismatch lhs rhs) value.span
  return .unit

/-- The type that both operands have, where they can be joined at all. -/
def operandType (lhs rhs : Ty) : Ty := if lhs = .never then rhs else lhs

def binary (op : BinaryOp) (span : Span) (lhs rhs : Ty) : Checker Ty := do
  let operand := operandType lhs rhs
  let known := !lhs.hasUnknown && !rhs.hasUnknown
  let returns := lhs = .never || rhs = .never
  if known && !returns && !lhs.alike rhs then report (.operands op lhs rhs) span
  else reportIf (known && !op.accepts operand && operand ≠ .never) (.binaryOperand op operand) span
  return if op.isComparison then .bool else operand

/-- Compares arguments, of which the first has the given number, with parameters. -/
def arguments (callee : String) : Nat → List Expr → List Ty → List Ty → Checker Unit
  | number, arg :: args, found :: founds, expected :: params => do
      reportIf (!found.fits expected) (.argument number callee found expected) arg.span
      arguments callee (number + 1) args founds params
  | _, _, _, _ => return

def call (callee : Ident) (span : Span) (args : List Expr) (types : List Ty) : Checker Ty := do
  match ← local? callee.text with
  | some t => do
      report (.calledLocal callee.text t) callee.span
      return .unknown
  | none =>
      match ← decl? callee.text with
      | none => do
          report (.undefinedFunction callee.text) callee.span
          return .unknown
      | some d => do
          let signature := d.signature
          if types.length ≠ signature.params.length then
            report (.arity callee.text signature types.length) span
          else arguments callee.text 1 args types signature.params
          return signature.result

/-- The value given back has to fit the function it is in. -/
def returned (span : Span) (t : Ty) : Checker Ty := do
  match ← owner? with
  | some o => reportIf (!t.fits o.result) (.returned o.name o.result t) span
  | none => pure ()
  return .never

def truth (span : Span) (t : Ty) : Checker Unit :=
  reportIf (!t.fits .bool) (.mismatch .bool t) span

def withoutElse (yes : Block) (t : Ty) : Checker Ty := do
  reportIf (!yes.endsInReturn && !t.fits .unit) (.missingElse t) yes.span
  return .unit

/-- A branch that always returns takes the type of the other one. -/
def branches (yesReturns : Bool) (yes : Ty) (noReturns : Bool) (noSpan : Span) (no : Ty) :
    Checker Ty := do
  if yes = .never || yesReturns then return no
  else if no = .never || noReturns then return yes
  else
    reportIf (!no.fits yes) (.branches yes no) noSpan
    return yes

/-- The type of a block: of what it returns last, if that ends it, and of its tail otherwise. -/
def blockType (b : Block) (tail : Option Ty) : Checker Ty := do
  match b.trailingReturn? with
  | some (some value) => return ((← get).types.get? value.id).getD .unknown
  | some none => return .unit
  | none => return tail.getD .unit

/-- Binds a name to the type declared for it, or else to the type of its value. -/
def binding (id : NodeId) (name : Ident) (declared : Option Ty) (init : Expr) (t : Ty) :
    Checker Unit := do
  match declared with
  | some expected => reportIf (!t.fits expected) (.mismatch expected t) init.span
  | none => pure ()
  let bound := declared.getD t
  record id bound
  bind name bound (.repeatedLocal name.text)

/-- A body that ends in a `return` was compared with the signature there. -/
def functionBody (h : Header) (body : Block) (t : Ty) : Checker Unit :=
  let result := h.signature.result
  reportIf (!body.endsInReturn && !t.fits result) (.body h.name.text result t) body.span

end Check
end Ferrite
