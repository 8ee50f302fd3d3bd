import Ferrite.Check.Rule

/-!
Checks a program in one walk. Each expression, block and `let` statement gets a type, also where
something is wrong; what cannot be typed gets the unknown type, which is never reported again.
-/

namespace Ferrite.Check

def declareItems (is : List Item) : Checker Unit := (is.flatMap Item.headers).forM declare

def bindParams (h : Header) : Checker Unit :=
  (h.params.zip h.signature.params).forM fun (name, t) => bind name t (.repeatedParam name.text)

mutual
def expr : Expr → Checker Ty
  | .literal id _ value => recorded id (return value.type)
  | .path id _ name => recorded id (path name)
  | .grouped id _ inner => recorded id (expr inner)
  | .unary id span op operand => recorded id do unary op span (← expr operand)
  | .binary id span op lhs rhs => recorded id do
      let l ← expr lhs
      let r ← expr rhs
      if op = .assign then assignment lhs rhs l r else binary op span l r
  | .call id span callee args => recorded id do call callee span args (← exprs args)
  | .ret id span none => recorded id (returned span .unit)
  | .ret id _ (some value) => recorded id do returned value.span (← expr value)
  | .block id _ body => recorded id (block body)
  | .loop id _ body => recorded id do
      let _ ← block body
      return .unit
  | .while id _ cond body => recorded id do
      truth cond.span (← expr cond)
      let _ ← block body
      return .unit
  | .cond id _ links => recorded id (cond links)

def exprs : List Expr → Checker (List Ty)
  | [] => return []
  | e :: es => return (← expr e) :: (← exprs es)

def cond : Cond → Checker Ty
  | .only c yes => do
      truth c.span (← expr c)
      withoutElse yes (← block yes)
  | .orElse c yes no => do
      truth c.span (← expr c)
      let yesType ← block yes
      let noType ← block no
      branches yes.endsInReturn yesType no.endsInReturn no.span noType
  | .orIf c yes no => do
      truth c.span (← expr c)
      let yesType ← block yes
      let noType ← cond no
      branches yes.endsInReturn yesType false (no.cond.span.join no.yes.span) noType

def block : Block → Checker Ty
  | .mk id span is ss none => recorded id <| inScope do
      declareItems is
      items is
      stmts ss
      blockType (.mk id span is ss none) none
  | .mk id span is ss (some e) => recorded id <| inScope do
      declareItems is
      items is
      stmts ss
      let t ← expr e
      blockType (.mk id span is ss (some e)) (some t)

def stmts : List Stmt → Checker Unit
  | [] => return
  | s :: ss => do
      stmt s
      stmts ss

def stmt : Stmt → Checker Unit
  | .bind id _ name declared init => do binding id name declared init (← expr init)
  | .expr _ value _ => do
      let _ ← expr value

def items : List Item → Checker Unit
  | [] => return
  | i :: is => do
      item i
      items is

/-- A function sees the functions around it, and no locals but its own. -/
def item : Item → Checker Unit
  | .function h body => within (.of h) <| inFunctionScope do
      bindParams h
      functionBody h body (← block body)
  | .foreign .. => return
end

/-- What is known of a program after it was checked. -/
structure Checked where
  types : TypeTable := {}
  record : Scope.Record := {}

def program (p : Program) : Checker Unit := inScope do
  declareItems p.items
  items p.items

/-- What is known of a program, and the problems with it in the order of the walk. -/
def run (p : Program) : Checked × List (Located Problem) :=
  let s := ((program p).run {}).2
  (⟨s.types, s.scopes.finish⟩, s.problems.reverse)

end Ferrite.Check
