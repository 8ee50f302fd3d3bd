import Ferrite.Parse.Program

/-!
The grammar of the language: which tokens spell which tree. The numbers in a tree do not matter; its
places do where the grammar is `located`, and then each expression is at the place that its tokens
have.
-/

namespace Ferrite

namespace Expr

/-- An operator behind the expression is no part of it. -/
def ClosedBefore (op : BinaryOp) : Expr → Prop
  | .unary _ _ _ operand => operand.ClosedBefore op
  | .binary _ _ inner _ rhs => op.leftPower < inner.rightPower ∧ rhs.ClosedBefore op
  | .ret .. => False
  | _ => True

/-- An operator outside all parentheses holds its left operand with at least the power. -/
def AtLeast (power : Nat) : Expr → Prop
  | .binary _ _ op _ _ => power ≤ op.leftPower
  | _ => True

/-- An operand outside all parentheses starts with a brace. -/
def OpensBlock : Expr → Prop
  | .unary _ _ _ operand => operand.OpensBlock
  | .binary _ _ _ lhs rhs => lhs.OpensBlock ∨ rhs.OpensBlock
  | .ret _ _ (some value) => value.OpensBlock
  | .block .. => True
  | _ => False

end Expr

/-- The tokens behind a statement are no part of it: a `;` would be, and where the statement does
not end by itself, only the brace of its block comes next. -/
def Stmt.EndsBefore (ts : List Token) : Stmt → Prop
  | .expr _ e false =>
      ts.head?.map Token.terminal ≠ some (.punct .semi) ∧ (e.endsInBlock = false → ts = [])
  | _ => True

/-- The token behind a statement does not belong to it. -/
def Stmt.EndsAt (t : Terminal) : Stmt → Prop
  | .expr _ e false => t ≠ .punct .semi ∧ (e.endsInBlock = false → t = .punct .rbrace)
  | _ => True

namespace Parse

/-- Elements with commas between them. The first flag tells whether a comma stands in front, the
second whether one comes last. -/
inductive Commas {α : Type} (element : α → List Token → Prop) :
    Bool → List α × Bool → List Token → Prop
  | nil {comma : Bool} : Commas element comma ([], comma) []
  | last {comma : Bool} {x : α} {ts : List Token} (h : element x ts) : Commas element comma ([x], false) ts
  | cons {comma last : Bool} {x : α} {xs : List α} {c : Token} {ts us : List Token} (h : element x ts)
      (hc : c.terminal = .punct .comma) (hs : Commas element true (xs, last) us) :
      Commas element comma (x :: xs, last) (ts ++ c :: us)

/-! ## Types -/

inductive TypePhrase
  | type (t : Ty)
  /-- A result with its arrow, if it has one. -/
  | result (t : Ty)
  /-- Types with commas between them, as in `Commas`. -/
  | types (comma : Bool) (list : List Ty × Bool)

inductive TypeSpelled : TypePhrase → List Token → Prop
  | name {t : Token} {text : String} {ty : Ty} (h : t.terminal = .name text)
      (hty : Ty.ofName? text = some ty) : TypeSpelled (.type ty) [t]
  | never {t : Token} (h : t.terminal = .punct .not) : TypeSpelled (.type .never) [t]
  | tuple {l r : Token} {list : List Ty × Bool} {ts : List Token} (hl : l.terminal = .punct .lparen)
      (h : TypeSpelled (.types false list) ts) (hr : r.terminal = .punct .rparen) :
      TypeSpelled (.type (tupleOf list)) (l :: (ts ++ [r]))
  | function {f l r : Token} {list : List Ty × Bool} {result : Ty} {ts rs : List Token}
      (hf : f.terminal = .keyword .fn) (hl : l.terminal = .punct .lparen)
      (h : TypeSpelled (.types false list) ts) (hr : r.terminal = .punct .rparen)
      (hresult : TypeSpelled (.result result) rs) :
      TypeSpelled (.type (.function list.1 result)) (f :: l :: (ts ++ r :: rs))
  | noResult : TypeSpelled (.result .unit) []
  | result {a : Token} {t : Ty} {ts : List Token} (ha : a.terminal = .punct .arrow)
      (h : TypeSpelled (.type t) ts) : TypeSpelled (.result t) (a :: ts)
  | nil {comma : Bool} : TypeSpelled (.types comma ([], comma)) []
  | last {comma : Bool} {t : Ty} {ts : List Token} (h : TypeSpelled (.type t) ts) :
      TypeSpelled (.types comma ([t], false)) ts
  | cons {comma last : Bool} {t : Ty} {types : List Ty} {c : Token} {ts us : List Token}
      (h : TypeSpelled (.type t) ts) (hc : c.terminal = .punct .comma)
      (hs : TypeSpelled (.types true (types, last)) us) :
      TypeSpelled (.types comma (t :: types, last)) (ts ++ c :: us)

/-! ## Functions without their bodies -/

/-- The keyword may stand there, or nothing. -/
def Perhaps (k : Keyword) (ts : List Token) : Prop :=
  ts = [] ∨ ∃ t : Token, t.terminal = .keyword k ∧ ts = [t]

inductive ParamSpelled : Ident × Ty → List Token → Prop
  | mk {muts : List Token} {n c : Token} {name : Ident} {t : Ty} {ts : List Token}
      (hmut : Perhaps .mut muts) (hn : n.terminal = .name name.text) (hc : c.terminal = .punct .colon)
      (h : TypeSpelled (.type t) ts) : ParamSpelled (name, t) (muts ++ n :: c :: ts)

inductive HeaderSpelled : Header → List Token → Prop
  | mk {f n l r : Token} {h : Header} {params : List (Ident × Ty)} {comma : Bool} {ps rs : List Token}
      (hf : f.terminal = .keyword .fn) (hn : n.terminal = .name h.name.text)
      (hl : l.terminal = .punct .lparen) (hparams : Commas ParamSpelled false (params, comma) ps)
      (hr : r.terminal = .punct .rparen) (hresult : TypeSpelled (.result h.signature.result) rs)
      (hnames : h.params = params.map (·.1)) (htypes : h.signature.params = params.map (·.2)) :
      HeaderSpelled h (f :: n :: l :: (ps ++ r :: rs))

/-- Functions without bodies, each with a `;` behind it. -/
inductive HeadersSpelled : List Header → List Token → Prop
  | nil : HeadersSpelled [] []
  | cons {h : Header} {hs : List Header} {semi : Token} {ts us : List Token} (hh : HeaderSpelled h ts)
      (hsemi : semi.terminal = .punct .semi) (hhs : HeadersSpelled hs us) :
      HeadersSpelled (h :: hs) (ts ++ semi :: us)

/-- The convention of foreign functions is `C` where no other is named. -/
def AbiSpelled (abi : String) (ts : List Token) : Prop :=
  ts = [] ∧ abi = "C" ∨ ∃ t : Token, t.terminal = .literal (.text abi) ∧ ts = [t]

/-! ## Trees -/

/-- What a block holds, with its last token. -/
def blockOf (id : NodeId) (span : Span) (entries : List Entry) (ts : List Token) : Block :=
  let tail := Nested.tail? entries (ts.getLast?.map Token.terminal = some (.punct .semi))
  let stmts := entries.filterMap Entry.stmt?
  .mk id span (entries.filterMap Entry.item?) (if tail.isSome then stmts.dropLast else stmts) tail

inductive Phrase
  | expr (e : Expr)
  /-- Arguments with commas between them. -/
  | args (es : List Expr)
  /-- A chain of conditions from its `if` on. -/
  | cond (c : Cond)
  | block (b : Block)
  /-- What stands between the braces of a block. -/
  | entries (es : List Entry)
  | stmt (s : Stmt)
  | item (i : Item)

/-- Marks that end an expression, none of them an operator. -/
def Closing (marks : List Punct) : Prop :=
  ∀ p ∈ marks, p ∈ [Punct.semi, .comma, .rparen, .lbrace, .rbrace]

theorem punct_injective : Function.Injective BinaryOp.punct := by
  intro op op' h
  have hop := (BinaryOp.ofPunct?_eq_some_iff op.punct op).mpr rfl
  rw [h, (BinaryOp.ofPunct?_eq_some_iff op'.punct op').mpr rfl] at hop
  exact (Option.some.inj hop).symm

theorem Closing.stops_op {marks : List Punct} (h : Closing marks) (op : BinaryOp) :
    stops marks (.punct op.punct) = false := by
  have hout : op.punct ∉ marks := by
    intro hmem
    have hin := h _ hmem
    cases op <;> simp [BinaryOp.punct] at hin
  simpa [stops] using hout

/-- The place goes from the first of the tokens to the last one. -/
def Covers (located : Prop) (span : Span) (ts : List Token) : Prop :=
  located → ∃ first ∈ ts.head?, ∃ last ∈ ts.getLast?, span = first.span.join last.span

inductive Spells (located : Prop) : Phrase → List Token → Prop
  | literal {t : Token} {id : NodeId} {span : Span} {value : Literal}
      (h : t.terminal = .literal value) (hspan : Covers located span [t]) :
      Spells located (.expr (.literal id span value)) [t]
  | path {t : Token} {id : NodeId} {span : Span} {name : Ident} (h : t.terminal = .name name.text)
      (hspan : Covers located span [t]) : Spells located (.expr (.path id span name)) [t]
  | grouped {l r : Token} {id : NodeId} {span : Span} {e : Expr} {ts : List Token}
      (hl : l.terminal = .punct .lparen) (h : Spells located (.expr e) ts)
      (hr : r.terminal = .punct .rparen) (hspan : Covers located span (l :: (ts ++ [r]))) :
      Spells located (.expr (.grouped id span e)) (l :: (ts ++ [r]))
  | unary {t : Token} {id : NodeId} {span : Span} {op : UnaryOp} {e : Expr} {ts : List Token}
      (ht : UnaryOp.ofTerminal? t.terminal = some op) (h : Spells located (.expr e) ts)
      (he : e.AtLeast op.power) (hspan : located → span = t.span.join e.span) :
      Spells located (.expr (.unary id span op e)) (t :: ts)
  | binary {t : Token} {id : NodeId} {span : Span} {op : BinaryOp} {lhs rhs : Expr}
      {ts us : List Token} (hlhs : Spells located (.expr lhs) ts) (ht : t.terminal = .punct op.punct)
      (hrhs : Spells located (.expr rhs) us) (hclosed : lhs.ClosedBefore op)
      (hpower : rhs.AtLeast op.rightPower) (hspan : located → span = lhs.span.join rhs.span) :
      Spells located (.expr (.binary id span op lhs rhs)) (ts ++ t :: us)
  | call {n l r : Token} {id : NodeId} {span : Span} {callee : Ident} {args : List Expr}
      {ts : List Token} (hn : n.terminal = .name callee.text) (hl : l.terminal = .punct .lparen)
      (h : Spells located (.args args) ts) (hr : r.terminal = .punct .rparen)
      (hspan : Covers located span (n :: l :: (ts ++ [r]))) :
      Spells located (.expr (.call id span callee args)) (n :: l :: (ts ++ [r]))
  | retNone {t : Token} {id : NodeId} {span : Span} (h : t.terminal = .keyword .return)
      (hspan : Covers located span [t]) : Spells located (.expr (.ret id span none)) [t]
  | retSome {t : Token} {id : NodeId} {span : Span} {value : Expr} {ts : List Token}
      (ht : t.terminal = .keyword .return) (h : Spells located (.expr value) ts)
      (hspan : Covers located span (t :: ts)) :
      Spells located (.expr (.ret id span (some value))) (t :: ts)
  | block {id : NodeId} {span : Span} {body : Block} {ts : List Token}
      (h : Spells located (.block body) ts) (hspan : Covers located span ts) :
      Spells located (.expr (.block id span body)) ts
  | loop {t : Token} {id : NodeId} {span : Span} {body : Block} {ts : List Token}
      (ht : t.terminal = .keyword .loop) (h : Spells located (.block body) ts)
      (hspan : Covers located span (t :: ts)) : Spells located (.expr (.loop id span body)) (t :: ts)
  | while {t : Token} {id : NodeId} {span : Span} {cond : Expr} {body : Block} {ts us : List Token}
      (ht : t.terminal = .keyword .while) (hcond : Spells located (.expr cond) ts)
      (hopens : ¬cond.OpensBlock) (hbody : Spells located (.block body) us)
      (hspan : Covers located span (t :: (ts ++ us))) :
      Spells located (.expr (.while id span cond body)) (t :: (ts ++ us))
  | cond {id : NodeId} {span : Span} {branches : Cond} {ts : List Token}
      (h : Spells located (.cond branches) ts) (hspan : Covers located span ts) :
      Spells located (.expr (.cond id span branches)) ts
  | argsNil : Spells located (.args []) []
  | argsLast {e : Expr} {ts : List Token} (h : Spells located (.expr e) ts) :
      Spells located (.args [e]) ts
  | argsCons {e : Expr} {es : List Expr} {c : Token} {ts us : List Token}
      (h : Spells located (.expr e) ts) (hc : c.terminal = .punct .comma)
      (hs : Spells located (.args es) us) : Spells located (.args (e :: es)) (ts ++ c :: us)
  | only {t : Token} {cond : Expr} {yes : Block} {ts us : List Token} (ht : t.terminal = .keyword .if)
      (hcond : Spells located (.expr cond) ts) (hopens : ¬cond.OpensBlock)
      (hyes : Spells located (.block yes) us) :
      Spells located (.cond (.only cond yes)) (t :: (ts ++ us))
  | orElse {t e : Token} {cond : Expr} {yes no : Block} {ts us vs : List Token}
      (ht : t.terminal = .keyword .if) (hcond : Spells located (.expr cond) ts)
      (hopens : ¬cond.OpensBlock) (hyes : Spells located (.block yes) us)
      (he : e.terminal = .keyword .else) (hno : Spells located (.block no) vs) :
      Spells located (.cond (.orElse cond yes no)) (t :: (ts ++ us ++ e :: vs))
  | orIf {t e : Token} {cond : Expr} {yes : Block} {no : Cond} {ts us vs : List Token}
      (ht : t.terminal = .keyword .if) (hcond : Spells located (.expr cond) ts)
      (hopens : ¬cond.OpensBlock) (hyes : Spells located (.block yes) us)
      (he : e.terminal = .keyword .else) (hno : Spells located (.cond no) vs) :
      Spells located (.cond (.orIf cond yes no)) (t :: (ts ++ us ++ e :: vs))
  | braced {l r : Token} {id : NodeId} {span : Span} {es : List Entry} {ts : List Token}
      (hl : l.terminal = .punct .lbrace) (h : Spells located (.entries es) ts)
      (hr : r.terminal = .punct .rbrace) :
      Spells located (.block (blockOf id span es (l :: ts))) (l :: (ts ++ [r]))
  | entriesNil : Spells located (.entries []) []
  | entriesSemi {t : Token} {es : List Entry} {ts : List Token} (ht : t.terminal = .punct .semi)
      (h : Spells located (.entries es) ts) : Spells located (.entries es) (t :: ts)
  | entriesItem {i : Item} {es : List Entry} {ts us : List Token} (h : Spells located (.item i) ts)
      (hs : Spells located (.entries es) us) : Spells located (.entries (.item i :: es)) (ts ++ us)
  | entriesStmt {s : Stmt} {es : List Entry} {ts us : List Token} (h : Spells located (.stmt s) ts)
      (hends : Stmt.EndsBefore us s) (hs : Spells located (.entries es) us) :
      Spells located (.entries (.stmt s :: es)) (ts ++ us)
  | bind {t n q semi : Token} {muts declared : List Token} {id : NodeId} {span : Span} {name : Ident}
      {type : Option Ty} {init : Expr} {ts : List Token} (ht : t.terminal = .keyword .let)
      (hmut : Perhaps .mut muts) (hn : n.terminal = .name name.text)
      (htype : type = none ∧ declared = [] ∨ ∃ (ty : Ty) (c : Token) (us : List Token),
        type = some ty ∧ c.terminal = .punct .colon ∧ TypeSpelled (.type ty) us ∧ declared = c :: us)
      (hq : q.terminal = .punct .eq) (h : Spells located (.expr init) ts)
      (hsemi : semi.terminal = .punct .semi) :
      Spells located (.stmt (.bind id span name type init))
        (t :: (muts ++ n :: (declared ++ q :: (ts ++ [semi]))))
  | exprStmt {span : Span} {e : Expr} {ts : List Token} (h : Spells located (.expr e) ts)
      (hstart : ∀ t ∈ ts.head?, Nested.startsBlockLike t.terminal = true → e.endsInBlock = true) :
      Spells located (.stmt (.expr span e false)) ts
  | semiStmt {span : Span} {e : Expr} {semi : Token} {ts : List Token} (h : Spells located (.expr e) ts)
      (hstart : ∀ t ∈ ts.head?, Nested.startsBlockLike t.terminal = true → e.endsInBlock = true)
      (hsemi : semi.terminal = .punct .semi) :
      Spells located (.stmt (.expr span e true)) (ts ++ [semi])
  | function {h : Header} {body : Block} {ts us : List Token} (hh : HeaderSpelled h ts)
      (hbody : Spells located (.block body) us) : Spells located (.item (.function h body)) (ts ++ us)
  | «foreign» {t l r : Token} {span : Span} {abi : String} {hs : List Header} {as ts : List Token}
      (ht : t.terminal = .keyword .foreign) (habi : AbiSpelled abi as) (hl : l.terminal = .punct .lbrace)
      (h : HeadersSpelled hs ts) (hr : r.terminal = .punct .rbrace) :
      Spells located (.item (.foreign span abi hs)) (t :: (as ++ l :: (ts ++ [r])))

/-- The items of a program, one behind the other. -/
inductive ItemsSpelled (located : Prop) : List Item → List Token → Prop
  | nil : ItemsSpelled located [] []
  | cons {i : Item} {is : List Item} {ts us : List Token} (h : Spells located (.item i) ts)
      (hs : ItemsSpelled located is us) : ItemsSpelled located (i :: is) (ts ++ us)

end Parse
end Ferrite
