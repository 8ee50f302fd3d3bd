import Ferrite.Lower.State

/-!
Code for the nodes of a checked program. An expression leaves one value if its type has values,
and none otherwise.
-/

namespace Ferrite.Lower
open Wasm (ValType Instr)

/-- Makes code from the type of a node. Behind what never produces a value nothing is reached. -/
def typed (env : Env) (id : NodeId) (code : Ty → Lowering (List Instr)) :
    Lowering (List Instr) := do
  let t ← env.typeOf id
  let is ← code t
  return if t = .never then is ++ [.unreachable] else is

/-- Drops the value that a node leaves, if it leaves one. -/
def dropValue (env : Env) (id : NodeId) : Lowering (List Instr) := do
  return if (← env.valueOf id).isSome then [.drop] else []

def path (name : Ident) : Lowering (List Instr) := do
  match (← get).locals.lookup name.text with
  | some (some index) => return [.localGet index]
  | some none => return []
  | none => throw (.functionValue name.text)

def assign (name : Ident) : Lowering (List Instr) := do
  match (← get).locals.lookup name.text with
  | some (some index) => return [.localSet index]
  | some none => return []
  | none => throw (.unknownLocal name.text)

def call (env : Env) (callee : Ident) : Lowering (List Instr) := do
  match (← get).replay.decl? callee.text with
  | none => throw (.unresolved callee.text)
  | some d =>
      match env.functions.idxOf? d.id with
      | none => throw (.noIndex callee.text)
      | some index => return [.call index]

/-- The code of an operator behind the code of its operands, which have the given type. -/
def operator (op : BinaryOp) (t : Ty) : Lowering (List Instr) := do
  match op, arithmetic? t with
  | .rem, some (.float size) =>
      let lhs ← addLocal size.float
      let rhs ← addLocal size.float
      return floatRemainder size lhs rhs
  | _, arithmetic =>
      match arithmetic.bind (binaryInstr? op) with
      | none => throw (.binary op t)
      | some i => return i :: if op.isArithmetic || op.isShift then normalize t else []

/-- The code of an operator, unless both operands return. -/
def binary (env : Env) (op : BinaryOp) (lhs rhs : Expr) : Lowering (List Instr) := do
  let l ← env.typeOf lhs.id
  let t ← if l = .never then env.typeOf rhs.id else pure l
  if t = .never then return [] else operator op t

def unaryCode (op : UnaryOp) (t : Ty) : Lowering (List Instr × List Instr) :=
  match unaryCode? op t with
  | some code => return code
  | none => throw (.unary op t)

/-- Binds a name to the value that the code before leaves. -/
def binding (env : Env) (id : NodeId) (name : Ident) : Lowering (List Instr) := do
  match ← env.valueOf id with
  | some t => do
      let index ← addLocal t
      modifyLocals (·.declare name.text (some index))
      return [.localSet index]
  | none => do
      modifyLocals (·.declare name.text none)
      return []

/-- The locals of a function at its start: its parameters. -/
def parameters (h : Header) : Locals :=
  { params := h.params.length
    frames := [(h.params.zipIdx.map fun (p, i) => (p.text, some i)).reverse] }

mutual
def expr (env : Env) : Expr → Lowering (List Instr)
  | .literal id _ value => typed env id fun _ => return [← orFail (constant value)]
  | .path id _ name => typed env id fun _ => path name
  | .grouped id _ inner => typed env id fun _ => expr env inner
  | .unary id _ op operand => typed env id fun t => do
      if (← env.typeOf operand.id) = .never then expr env operand
      else
        let (before, behind) ← unaryCode op t
        return before ++ (← expr env operand) ++ behind ++ normalize t
  | .binary id _ op lhs rhs => typed env id fun _ => do
      if op = .assign then
        match lhs.place? with
        | none => throw .notPlace
        | some name => do
            let value ← expr env rhs
            return value ++ (← assign name)
      else
        let l ← expr env lhs
        let r ← expr env rhs
        return l ++ r ++ (← binary env op lhs rhs)
  | .call id _ callee args => typed env id fun _ => do
      let values ← exprs env args
      return values ++ (← call env callee)
  | .ret id _ none => typed env id fun _ => return [.ret]
  | .ret id _ (some value) => typed env id fun _ => do
      return (← expr env value) ++ [.ret]
  | .block id _ body => typed env id fun _ => block env body
  | .loop id _ body => typed env id fun _ => do
      let code ← block env body
      return [.loop (code ++ (← dropValue env body.id) ++ [.br 0]), .unreachable]
  | .while id _ c body => typed env id fun _ => do
      let test ← expr env c
      let code ← block env body
      let dropped ← dropValue env body.id
      return [.block [.loop (test ++ [.i32Eqz, .brIf 1] ++ code ++ dropped ++ [.br 0])]]
  | .cond id _ links => typed env id (cond env links)

def exprs (env : Env) : List Expr → Lowering (List Instr)
  | [] => return []
  | e :: es => do
      let first ← expr env e
      return first ++ (← exprs env es)

/-- A chain of conditions for the type of the whole chain. -/
def cond (env : Env) : Cond → Ty → Lowering (List Instr)
  | .only c yes, t => do
      let test ← expr env c
      let _ ← orFail (valType t)
      let yesCode ← block env yes
      return test ++ [.ifThen (yesCode ++ (← dropValue env yes.id))]
  | .orElse c yes no, t => do
      let test ← expr env c
      let result ← orFail (valType t)
      let yesCode ← block env yes
      return test ++ [.ifElse result yesCode (← block env no)]
  | .orIf c yes no, t => do
      let test ← expr env c
      let result ← orFail (valType t)
      let yesCode ← block env yes
      return test ++ [.ifElse result yesCode (← cond env no t)]

def block (env : Env) : Block → Lowering (List Instr)
  | .mk _ _ is ss none => inScope <| inFrame do
      items env is
      stmts env ss
  | .mk _ _ is ss (some e) => inScope <| inFrame do
      items env is
      let code ← stmts env ss
      return code ++ (← expr env e)

def stmts (env : Env) : List Stmt → Lowering (List Instr)
  | [] => return []
  | s :: ss => do
      let first ← stmt env s
      return first ++ (← stmts env ss)

def stmt (env : Env) : Stmt → Lowering (List Instr)
  | .bind id _ name _ init => do
      let value ← expr env init
      return value ++ (← binding env id name)
  | .expr _ value _ => do
      let code ← expr env value
      return code ++ (← dropValue env value.id)

def items (env : Env) : List Item → Lowering Unit
  | [] => return
  | i :: is => do
      item env i
      items env is

def item (env : Env) : Item → Lowering Unit
  | .function h body => do
      if h.id ∈ env.defined then
        let (code, locals) ← withLocals (parameters h) (inScope (block env body))
        finishBody h.id ⟨locals.types, code⟩
      else throw (.notCollected h.name.text)
  | .foreign .. => return
end

end Ferrite.Lower
