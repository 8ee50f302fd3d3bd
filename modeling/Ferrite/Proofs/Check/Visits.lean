import Ferrite.Proofs.Check.Frames
import Ferrite.Proofs.Tree.Visits

/-!
Checking as a pass over a tree, and what holds at each node that it comes to when it has nothing
to report: the types noted for a node and its parts go together.
-/

namespace Ferrite
namespace Check

/-- The state behind a condition. -/
def pastTest (c : Expr) (s : State) : State := after (do truth c.span (← expr c)) s

def pass : Pass State where
  expr _ e s := after (expr e) s
  target _ e s := after (expr e) s
  test _ := pastTest
  block _ b s := after (block b) s
  stmt _ stmt s := after (Check.stmt stmt) s
  item i s := after (item i) s
  atBlock := atBlock
  atFunction := atFunction

theorem pass_stmts (h : Header) (ss : List Stmt) (s : State) :
    pass.stmts h ss s = after (stmts ss) s := by
  induction ss generalizing s with
  | nil => rw [stmts]; rfl
  | cons stmt ss ih =>
    rw [stmts]
    exact ih (after (Check.stmt stmt) s)

theorem pass_items (is : List Item) (s : State) : pass.items is s = after (items is) s := by
  induction is generalizing s with
  | nil => rw [items]; rfl
  | cons i is ih =>
    rw [items]
    exact ih (after (item i) s)

theorem pass_left (h : Header) (op : BinaryOp) (e : Expr) (s : State) :
    pass.left h op e s = after (expr e) s := by
  unfold Pass.left
  split <;> rfl

theorem test_grows (h : Header) (e : Expr) (s : State) :
    Grows false (ids e.nodes) e.scopes s (pass.test h e s) := by
  have hgrows := (expr_grows e s).trans (grows_test e.span (value (expr e) s) false _)
  rw [List.append_nil, List.append_nil] at hgrows
  exact hgrows

end Check

/-- The types whose values WebAssembly has no place for. -/
def Ty.isUnsupported : Ty → Bool
  | .str | .tuple (_ :: _) | .function .. => true
  | _ => false

/-- Whether WebAssembly has a function of the signature. A parameter has to have values. -/
structure Signature.Supported (g : Signature) : Prop where
  params : ∀ t ∈ g.params, t.isUnsupported = false ∧ t ≠ .unit ∧ t ≠ .never
  result : g.result.isUnsupported = false

namespace Check

/-- Whether a node asks for nothing that WebAssembly has no place for: no text, no function as a
value, and no declared type without a place. -/
def Supported (v : Visit State) : Prop :=
  match v.node with
  | .expr (.literal _ _ (.text _)) => False
  | .expr (.path _ _ name) =>
      ¬ (v.state.scopes.local? name.text = none ∧ (v.state.scopes.decl? name.text).isSome)
  | .stmt (.bind _ _ _ (some t) _) => t.isUnsupported = false
  | .item i => ∀ h ∈ i.headers, h.signature.Supported
  | _ => True

/-- A type without unknown parts, which under the condition has a place in WebAssembly. -/
structure Fine (given : Prop) (t : Ty) : Prop where
  known : t.hasUnknown = false
  supported : given → t.isUnsupported = false

/-- A node of a program with the given functions, each type written in it known and, under the
condition, with a place in WebAssembly. -/
structure Allowed (given : Prop) (headers : List Header) (v : Visit State) : Prop where
  sound : v.node.Sound
  headers : ∀ i, v.node = .item i → ∀ h ∈ i.headers, h ∈ headers
  supported : given → Supported v

section

variable (types : TypeTable)

/-- The type of a chain of conditions. -/
def CondRule : Cond → Ty → Prop
  | .only c yes, t =>
      (∃ u, types.get? c.id = some u ∧ IsTest u) ∧
        ∃ y, types.get? yes.id = some y ∧ (yes.endsInReturn ∨ y.Suits .unit) ∧ t = .unit
  | .orElse c yes no, t =>
      (∃ u, types.get? c.id = some u ∧ IsTest u) ∧
        ∃ y n, types.get? yes.id = some y ∧ types.get? no.id = some n ∧
          Joins yes.endsInReturn y no.endsInReturn n t
  | .orIf c yes no, t =>
      (∃ u, types.get? c.id = some u ∧ IsTest u) ∧
        ∃ y n, types.get? yes.id = some y ∧ CondRule no n ∧ Joins yes.endsInReturn y false n t

/-- The type of an expression in a function, given those of its parts. -/
def ExprRule (headers : List Header) (owner : Header) (scopes : Scope.Stack) : Expr → Ty → Prop
  | .literal _ _ value, t => t = value.type
  | .path _ _ name, t =>
      scopes.local? name.text = some t ∨
        scopes.local? name.text = none ∧ ∃ d, scopes.decl? name.text = some d ∧ t = d.signature.type
  | .grouped _ _ inner, t => types.get? inner.id = some t
  | .unary _ _ op operand, t => types.get? operand.id = some t ∧ (t = .never ∨ op.accepts t)
  | .binary _ _ op lhs rhs, t =>
      ∃ l r, types.get? lhs.id = some l ∧ types.get? rhs.id = some r ∧
        if op = .assign then
          (∃ name, lhs.place? = some name ∧ scopes.local? name.text = some l) ∧ r.Suits l ∧ t = .unit
        else Operates op l r t
  | .call _ _ callee args, t =>
      scopes.local? callee.text = none ∧
        ∃ h ∈ headers, scopes.decl? callee.text = some h.decl ∧ t = h.signature.result ∧
          List.Forall₂ (fun e p => ∃ a, types.get? e.id = some a ∧ a.Suits p) args h.signature.params
  | .ret _ _ none, t => Ty.unit.Suits owner.signature.result ∧ t = .never
  | .ret _ _ (some value), t =>
      ∃ r, types.get? value.id = some r ∧ r.Suits owner.signature.result ∧ t = .never
  | .block _ _ body, t => types.get? body.id = some t
  | .loop .., t => t = .unit
  | .while _ _ c _, t => (∃ u, types.get? c.id = some u ∧ IsTest u) ∧ t = .unit
  | .cond _ _ links, t => CondRule types links t

/-- The type of a block: of what it returns last, if that ends it, and of its tail otherwise. -/
def BlockRule (b : Block) (t : Ty) : Prop :=
  match b.trailingReturn?, b.tail with
  | some (some value), _ => types.get? value.id = some t
  | some none, _ => t = .unit
  | none, some e => types.get? e.id = some t
  | none, none => t = .unit

/-- The type of a name that is bound. -/
def BindRule (declared : Option Ty) (init : Expr) (t : Ty) : Prop :=
  ∃ i, types.get? init.id = some i ∧
    match declared with
    | some expected => i.Suits expected ∧ t = expected
    | none => t = i

/-- The type of a node, given those of its parts. -/
def Clean (given : Prop) (headers : List Header) (v : Visit State) : Prop :=
  match v.node with
  | .expr e => ∃ h ∈ headers, v.owner = some h ∧ ∃ t, types.get? e.id = some t ∧ Fine given t ∧
      ExprRule types headers h v.state.scopes e t
  | .block b => ∃ t, types.get? b.id = some t ∧ Fine given t ∧ BlockRule types b t
  | .stmt (.bind id _ name declared init) => ∃ h ∈ headers, v.owner = some h ∧
      ∃ t, types.get? id = some t ∧ Fine given t ∧ BindRule types declared init t ∧
        t = declared.getD (value (expr init) v.state) ∧
        (after (expr init) v.state).scopes.localHere? name.text = none
  | .stmt (.expr ..) => True
  | .item (.function h body) => h ∈ headers ∧ ((paramLocals h).map Prod.fst).Nodup ∧
      ∃ t, types.get? body.id = some t ∧ (body.endsInReturn ∨ t.Suits h.signature.result)
  | .item (.foreign ..) => True

variable {types} {given : Prop} {headers : List Header} {h : Header} {target : Bool} {s : State}

theorem Clean.expr {e : Expr} (hc : Clean types given headers ⟨.expr e, some h, target, s⟩) :
    ∃ t, types.get? e.id = some t ∧ Fine given t ∧ ExprRule types headers h s.scopes e t := by
  obtain ⟨_, -, howner, hrule⟩ := hc
  cases howner
  exact hrule

theorem Clean.bind {id : NodeId} {span : Span} {name : Ident} {declared : Option Ty} {init : Expr}
    (hc : Clean types given headers ⟨.stmt (.bind id span name declared init), some h, target, s⟩) :
    ∃ t, types.get? id = some t ∧ Fine given t ∧ BindRule types declared init t ∧
      t = declared.getD (value (Check.expr init) s) ∧
      (after (Check.expr init) s).scopes.localHere? name.text = none := by
  obtain ⟨_, -, howner, hrule⟩ := hc
  cases howner
  exact hrule

end
end Check
end Ferrite
