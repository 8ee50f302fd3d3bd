import Ferrite.Parse.Text
import Ferrite.Proofs.Lexer.Cover
import Ferrite.Proofs.Parse.Reports
import Ferrite.Proofs.Parse.Slice

/-!
What tokens carry beyond their kind: names, literals, and the braces of blocks. A program that is
parsed without an error carries exactly what its tokens do.
-/

namespace Ferrite

/-! ## In tokens -/

/-- The terminal itself, where it is a name or a literal. A text behind `extern` is neither. -/
def Terminal.payload (behindExtern : Bool) : Terminal → List Terminal
  | .name text => [.name text]
  | .literal (.text value) => if behindExtern then [] else [.literal (.text value)]
  | .literal value => [.literal value]
  | _ => []

/-- A keyword or a sign that carries nothing and opens nothing. -/
def Terminal.isMark : Terminal → Bool
  | .keyword k => k != .foreign
  | .punct p => p != .lbrace
  | .endOfInput => true
  | .name _ | .literal _ => false

/-- The names and literals among tokens. The flag tells whether an `extern` stands in front. -/
def payload : Bool → List Token → List Terminal
  | _, [] => []
  | behindExtern, t :: ts => t.terminal.payload behindExtern ++ payload (t.terminal = .keyword .foreign) ts

/-- How many braces are opened. -/
def opened (ts : List Token) : Nat := ts.countP fun t => t.terminal = .punct .lbrace

/-! ## In trees -/

mutual
/-- The names of the primitive types in a type. -/
def Ty.names : Ty → List String
  | .bool => ["bool"]
  | .int t => [t.name]
  | .float t => [t.name]
  | .str => ["str"]
  | .tuple parts => typeNames parts
  | .function params result => typeNames params ++ result.names
  | .never | .unknown => []

def typeNames : List Ty → List String
  | [] => []
  | t :: ts => t.names ++ typeNames ts
end

/-- The names of a function, its parameters and its types. -/
def Header.names (h : Header) : List String :=
  h.name.text :: (h.params.map Ident.text ++ h.signature.type.names)

namespace Node

/-- The names and literals of a node itself. -/
def payload : Node → List Terminal
  | .expr (.literal _ _ value) => [.literal value]
  | .expr (.path _ _ name) => [.name name.text]
  | .expr (.call _ _ callee _) => [.name callee.text]
  | .stmt (.bind _ _ name type _) => (name.text :: type.elim [] Ty.names).map .name
  | .item i => (i.headers.flatMap Header.names).map .name
  | _ => []

/-- Whether braces of the node's own are written around what it holds. -/
def isBraced : Node → Bool
  | .block _ => true
  | .item (.foreign ..) => true
  | _ => false

end Node

theorem typeNames_eq (ts : List Ty) : typeNames ts = ts.flatMap Ty.names := by
  induction ts with
  | nil => rfl
  | cons t ts ih => rw [typeNames, ih, List.flatMap_cons]

theorem ofName?_names {name : String} {t : Ty} (h : Ty.ofName? name = some t) : t.names = [name] := by
  have hall : ∀ e ∈ Ty.named, e.2.names = [e.1] := by decide
  obtain ⟨before, behind, heq, -⟩ := List.lookup_eq_some_iff.mp h
  refine hall (name, t) ?_
  rw [heq]
  exact List.mem_append_right _ List.mem_cons_self

namespace Parse

theorem tupleOf_names (list : List Ty × Bool) : (tupleOf list).names = typeNames list.1 := by
  unfold tupleOf
  split
  · exact (List.append_nil _).symm
  · rfl

/-! ## Tokens that carry what a tree does -/

/-- Wherever the tokens stand, they carry the names and literals, in some order, and so many braces. -/
structure Bears (ts : List Token) (carried : List Terminal) (braces : Nat) : Prop where
  payload : ∀ us, (payload false (ts ++ us)).Perm (carried ++ payload false us)
  opened : opened ts = braces

namespace Bears

variable {ts us : List Token} {carried more : List Terminal} {m n : Nat}

theorem nil : Bears [] [] 0 := ⟨fun _ => .refl _, rfl⟩

theorem append (h : Bears ts carried m) (h' : Bears us more n) :
    Bears (ts ++ us) (carried ++ more) (m + n) where
  payload vs := by
    rw [List.append_assoc, List.append_assoc]
    exact (h.payload (us ++ vs)).trans ((h'.payload vs).append_left carried)
  opened := by
    rw [← h.opened, ← h'.opened]
    exact List.countP_append

theorem perm (h : Bears ts carried m) (hperm : carried.Perm more) (heq : m = n) : Bears ts more n where
  payload us := (h.payload us).trans (hperm.append_right _)
  opened := h.opened.trans heq

theorem token {t : Token} {terminal : Terminal} (ht : t.terminal = terminal)
    (hforeign : terminal ≠ .keyword .foreign) :
    Bears [t] (terminal.payload false) (if terminal = .punct .lbrace then 1 else 0) where
  payload us := by
    subst ht
    have hflag : decide (t.terminal = .keyword .foreign) = false := decide_eq_false hforeign
    rw [List.singleton_append, Ferrite.payload, hflag]
  opened := by
    subst ht
    simp only [Ferrite.opened, List.countP_singleton, decide_eq_true_eq]

theorem mark {t : Token} {terminal : Terminal} (ht : t.terminal = terminal) (hmark : terminal.isMark = true) :
    Bears [t] [] 0 := by
  have hforeign : terminal ≠ .keyword .foreign := by
    rintro rfl
    cases hmark
  have hbrace : terminal ≠ .punct .lbrace := by
    rintro rfl
    cases hmark
  have hnone : terminal.payload false = [] := by
    cases terminal with
    | name text => cases hmark
    | literal value => cases hmark
    | _ => rfl
  have h := token ht hforeign
  rwa [hnone, if_neg hbrace] at h

theorem name {t : Token} {text : String} (ht : t.terminal = .name text) : Bears [t] [.name text] 0 :=
  token ht Terminal.noConfusion

/-- Tokens that carry nothing, behind those that do. -/
theorem behind (h : Bears ts carried n) (h' : Bears us [] 0) : Bears (ts ++ us) carried n :=
  (h.append h').perm (by rw [List.append_nil]) rfl

/-- Tokens that carry nothing, in front of those that do. -/
theorem before (h : Bears ts [] 0) (h' : Bears us more n) : Bears (ts ++ us) more n :=
  (h.append h').perm (.refl _) (Nat.zero_add n)

theorem perhaps {k : Keyword} (h : Perhaps k ts) (hmark : (Terminal.keyword k).isMark = true) : Bears ts [] 0 := by
  rcases h with rfl | ⟨t, ht, rfl⟩
  · exact nil
  · exact mark ht hmark

/-- The start of a block of foreign functions, whose convention does not count. -/
theorem foreign {t l : Token} {abi : String} (ht : t.terminal = .keyword .foreign) (habi : AbiSpelled abi ts)
    (hl : l.terminal = .punct .lbrace) : Bears (t :: (ts ++ [l])) [] 1 := by
  rcases habi with ⟨rfl, -⟩ | ⟨a, ha, rfl⟩
  · constructor
    · intro us
      simp [Ferrite.payload, Terminal.payload, ht, hl]
    · simp [Ferrite.opened, ht, hl]
  · constructor
    · intro us
      simp [Ferrite.payload, Terminal.payload, ht, ha, hl]
    · simp [Ferrite.opened, ht, ha, hl]

end Bears

/-- What a type phrase names. -/
def TypePhrase.names : TypePhrase → List String
  | .type t => t.names
  | .result t => t.names
  | .types _ list => typeNames list.1

/-- The names are carried, and no braces. -/
abbrev BearsNames (ts : List Token) (names : List String) : Prop := Bears ts (names.map .name) 0

theorem BearsNames.append {ts us : List Token} {names more : List String} (h : BearsNames ts names)
    (h' : BearsNames us more) : BearsNames (ts ++ us) (names ++ more) :=
  (Bears.append h h').perm (by rw [List.map_append]) rfl

theorem TypeSpelled.bears {phrase : TypePhrase} {ts : List Token} (h : TypeSpelled phrase ts) :
    BearsNames ts phrase.names := by
  induction h with
  | name h hty =>
    rw [TypePhrase.names, ofName?_names hty]
    exact .name h
  | never h => exact .mark h rfl
  | tuple hl _ hr ih =>
    rw [TypePhrase.names, tupleOf_names]
    exact (Bears.mark hl rfl).before (Bears.behind ih (.mark hr rfl))
  | function hf hl _ hr _ ihs ihr =>
    exact (Bears.mark hf rfl).before ((Bears.mark hl rfl).before (BearsNames.append ihs ((Bears.mark hr rfl).before ihr)))
  | noResult => exact .nil
  | result ha _ ih => exact (Bears.mark ha rfl).before ih
  | nil => exact .nil
  | last _ ih =>
    rw [TypePhrase.names, typeNames, typeNames, List.append_nil]
    exact ih
  | cons _ hc _ ih ihs => exact BearsNames.append ih ((Bears.mark hc rfl).before ihs)

theorem ParamSpelled.bears {p : Ident × Ty} {ts : List Token} (h : ParamSpelled p ts) :
    BearsNames ts (p.1.text :: p.2.names) := by
  cases h with
  | mk hmut hn hc htype =>
    exact (Bears.perhaps hmut rfl).before ((Bears.name hn).append ((Bears.mark hc rfl).before htype.bears))

theorem params_bear {comma : Bool} {list : List (Ident × Ty) × Bool} {ts : List Token}
    (h : Commas ParamSpelled comma list ts) :
    BearsNames ts (list.1.flatMap fun p => p.1.text :: p.2.names) := by
  induction h with
  | nil => exact .nil
  | last h =>
    rw [List.flatMap_singleton]
    exact h.bears
  | cons h hc _ ih => exact BearsNames.append h.bears ((Bears.mark hc rfl).before ih)

/-- The names of parameters and those of their types, taken together or one behind the other. -/
theorem params_perm (params : List (Ident × Ty)) : (params.flatMap fun p => p.1.text :: p.2.names).Perm
    ((params.map (·.1)).map Ident.text ++ typeNames (params.map (·.2))) := by
  rw [typeNames_eq, List.flatMap_map, List.map_map]
  exact (List.map_append_flatMap_perm params (fun p => p.1.text) fun p => p.2.names).symm

theorem HeaderSpelled.bears {h : Header} {ts : List Token} (hh : HeaderSpelled h ts) : BearsNames ts h.names := by
  cases hh with
  | @mk f n l r _ params _ ps rs hf hn hl hparams hr hresult hnames htypes =>
    have hall : BearsNames (f :: n :: l :: (ps ++ r :: rs))
        (h.name.text :: ((params.flatMap fun p => p.1.text :: p.2.names) ++ h.signature.result.names)) :=
      (Bears.mark hf rfl).before ((Bears.name hn).append ((Bears.mark hl rfl).before
        (BearsNames.append (params_bear hparams) ((Bears.mark hr rfl).before hresult.bears))))
    refine hall.perm (List.Perm.map _ ?_) rfl
    rw [Header.names, Signature.type, Ty.names, hnames, htypes, ← List.append_assoc]
    exact ((params_perm params).append_right _).cons _

theorem HeadersSpelled.bears {hs : List Header} {ts : List Token} (h : HeadersSpelled hs ts) :
    BearsNames ts (hs.flatMap Header.names) := by
  induction h with
  | nil => exact .nil
  | cons hh hsemi _ ih => exact BearsNames.append hh.bears ((Bears.mark hsemi rfl).before ih)

/-! ## Trees -/

/-- The nodes carry what the tokens do, and hold something in as many braces. -/
abbrev BearsNodes (ts : List Token) (ns : List Node) : Prop :=
  Bears ts (ns.flatMap Node.payload) (ns.countP Node.isBraced)

namespace BearsNodes

variable {ts us : List Token} {ns ms : List Node} {n : Node}

theorem append (h : BearsNodes ts ns) (h' : BearsNodes us ms) : BearsNodes (ts ++ us) (ns ++ ms) :=
  (Bears.append h h').perm (by rw [List.flatMap_append]) List.countP_append.symm

/-- Tokens of the node itself in front of those of the nodes in it. -/
theorem node (h : Bears ts n.payload n.isBraced.toNat) (h' : BearsNodes us ns) :
    BearsNodes (ts ++ us) (n :: ns) := by
  refine (h.append h').perm (.refl _) ?_
  rw [List.countP_cons, Nat.add_comm]
  cases n.isBraced <;> rfl

/-- A node that carries nothing by itself. -/
theorem silent (hpayload : n.payload = []) (hbraced : n.isBraced = false) (h : BearsNodes us ns) :
    BearsNodes us (n :: ns) := by
  have hnone : Bears [] n.payload n.isBraced.toNat := by
    rw [hpayload, hbraced]
    exact .nil
  exact node hnone h

theorem leaf (h : Bears ts n.payload n.isBraced.toNat) : BearsNodes ts [n] := by
  have hnode : BearsNodes (ts ++ []) [n] := node h Bears.nil
  rwa [List.append_nil] at hnode

end BearsNodes

theorem Nested.block_braces {b : Block} {es : List Entry} {inner : List Node} (hb : b.nodes = .block b :: inner)
    (h : (entryNodes es).Perm inner ∨ ∃ place e, (entryNodes es).Perm (.stmt (.expr place e false) :: inner)) :
    1 + (entryNodes es).countP Node.isBraced = b.nodes.countP Node.isBraced := by
  rw [hb, List.countP_cons_of_pos rfl, Nat.add_comm]
  rcases h with h | ⟨place, e, h⟩
  · rw [h.countP_eq]
  · rw [h.countP_eq, List.countP_cons_of_neg (by simp [Node.isBraced])]

/-- The nodes of a phrase, in the order of the text. -/
def Phrase.nodes : Phrase → List Node
  | .expr e => e.nodes
  | .args es => exprNodes es
  | .cond c => c.nodes
  | .block b => b.nodes
  | .entries es => entryNodes es
  | .stmt s => s.nodes
  | .item i => i.nodes

theorem payload_literal (value : Literal) : (Terminal.literal value).payload false = [.literal value] := by
  cases value <;> rfl

theorem literal_bears {t : Token} {value : Literal} (ht : t.terminal = .literal value) :
    Bears [t] [.literal value] 0 := by
  have h := Bears.token ht Terminal.noConfusion
  rwa [payload_literal, if_neg Terminal.noConfusion] at h

theorem unaryOp_bears {t : Token} {op : UnaryOp} (h : UnaryOp.ofTerminal? t.terminal = some op) :
    Bears [t] [] 0 := by
  unfold UnaryOp.ofTerminal? at h
  split at h
  · exact .mark ‹_› rfl
  · exact .mark ‹_› rfl
  · cases h

theorem binaryOp_bears {t : Token} {op : BinaryOp} (h : t.terminal = .punct op.punct) : Bears [t] [] 0 := by
  refine .mark h ?_
  cases op <;> rfl

theorem Spells.bears {located : Prop} {phrase : Phrase} {ts : List Token} (h : Spells located phrase ts) :
    BearsNodes ts phrase.nodes := by
  induction h with
  | literal h => exact .leaf (literal_bears h)
  | path h => exact .leaf (Bears.name h)
  | grouped hl _ hr _ ih => exact .silent rfl rfl ((Bears.mark hl rfl).before (ih.behind (.mark hr rfl)))
  | unary ht _ _ _ ih => exact .silent rfl rfl ((unaryOp_bears ht).before ih)
  | binary _ ht _ _ _ _ ihl ihr => exact .silent rfl rfl (.append ihl ((binaryOp_bears ht).before ihr))
  | @call n l r id span callee args ts hn hl _ hr _ ih =>
    have hname : Bears [n] (Node.expr (.call id span callee args)).payload 0 := .name hn
    exact .node hname ((Bears.mark hl rfl).before (ih.behind (.mark hr rfl)))
  | retNone h => exact .silent rfl rfl (.mark h rfl)
  | retSome ht _ _ ih => exact .silent rfl rfl ((Bears.mark ht rfl).before ih)
  | block _ _ ih => exact .silent rfl rfl ih
  | loop ht _ _ ih => exact .silent rfl rfl ((Bears.mark ht rfl).before ih)
  | «while» ht _ _ _ _ ihc ihb => exact .silent rfl rfl ((Bears.mark ht rfl).before (BearsNodes.append ihc ihb))
  | cond _ _ ih => exact .silent rfl rfl ih
  | argsNil => exact .nil
  | argsLast _ ih =>
    rw [Phrase.nodes, exprNodes, exprNodes, List.append_nil]
    exact ih
  | argsCons _ hc _ ih ihs => exact .append ih ((Bears.mark hc rfl).before ihs)
  | only ht _ _ _ ihc ihy => exact (Bears.mark ht rfl).before (BearsNodes.append ihc ihy)
  | orElse ht _ _ _ he _ ihc ihy ihn =>
    exact (Bears.mark ht rfl).before (BearsNodes.append (BearsNodes.append ihc ihy) ((Bears.mark he rfl).before ihn))
  | orIf ht _ _ _ he _ ihc ihy ihn =>
    exact (Bears.mark ht rfl).before (BearsNodes.append (BearsNodes.append ihc ihy) ((Bears.mark he rfl).before ihn))
  | @braced l r id span es ts hl _ hr ih =>
    obtain ⟨inner, hb, hes⟩ := Nested.block_nodes_perm id span es
      ((l :: ts).getLast?.map Token.terminal = some (.punct .semi))
    have hbrace : Bears [l] [] 1 := .token hl Terminal.noConfusion
    have hpayload := Nested.block_flatMap_perm (f := Node.payload) (fun _ _ => rfl) hb hes
    exact (hbrace.append (ih.behind (.mark hr rfl))).perm hpayload (Nested.block_braces hb hes)
  | entriesNil => exact .nil
  | entriesSemi ht _ ih => exact (Bears.mark ht rfl).before ih
  | entriesItem _ _ ih ihs => exact .append ih ihs
  | entriesStmt _ _ _ ih ihs => exact .append ih ihs
  | @bind t n q semi muts declared id span name type init ts ht hmut hn htype hq _ hsemi ih =>
    have hdeclared : BearsNames declared (type.elim [] Ty.names) := by
      rcases htype with ⟨rfl, rfl⟩ | ⟨ty, c, us, rfl, hc, htype, rfl⟩
      · exact .nil
      · exact (Bears.mark hc rfl).before htype.bears
    have hfront : Bears (t :: (muts ++ n :: declared)) (Node.stmt (.bind id span name type init)).payload 0 :=
      (Bears.mark ht rfl).before ((Bears.perhaps hmut rfl).before ((Bears.name hn).append hdeclared))
    have hall : BearsNodes _ (Stmt.bind id span name type init).nodes :=
      .node hfront ((Bears.mark hq rfl).before (ih.behind (.mark hsemi rfl)))
    simpa [Phrase.nodes] using hall
  | exprStmt _ _ ih => exact .silent rfl rfl ih
  | semiStmt _ _ hsemi ih => exact .silent rfl rfl (ih.behind (.mark hsemi rfl))
  | function hh _ ih =>
    refine .node (Bears.perm hh.bears ?_ rfl) ih
    rw [Node.payload, Item.headers, List.flatMap_singleton]
  | @«foreign» t l r span abi hs as ts ht habi hl h hr =>
    have hall : BearsNodes _ [.item (.foreign span abi hs)] :=
      .leaf ((Bears.foreign ht habi hl).append (Bears.behind h.bears (.mark hr rfl)))
    simpa [Phrase.nodes, Item.nodes] using hall

theorem ItemsSpelled.bears {located : Prop} {is : List Item} {ts : List Token} (h : ItemsSpelled located is ts) :
    BearsNodes ts (itemNodes is) := by
  induction h with
  | nil => exact .nil
  | cons h _ ih => exact .append h.bears ih

/-- A program that is parsed from a text without an error carries what the tokens of the text do. -/
theorem bears_of_text {file : FileId} {text : String} {p : Program}
    (hresult : (ofText program file text).result = .ok p)
    (herrors : (ofText program file text).log.hasErrors = false) :
    (payload false (Lexer.read file text).tokens).Perm (p.nodes.flatMap Node.payload) ∧
      opened (Lexer.read file text).tokens = p.nodes.countP Node.isBraced := by
  obtain ⟨hrun, -⟩ := run_of_text hresult herrors
  obtain ⟨ts, rest, htokens, hitems, hdone⟩ := items_of_run_end hrun
  obtain ⟨us, finish, hread, hfinish, hus⟩ := Lexer.read_ends file text
  have hbears : BearsNodes ts p.nodes := hitems.bears
  -- nothing that counts stands behind the items
  have hrest : ∀ t ∈ rest, t.terminal = .endOfInput := by
    cases rest with
    | nil => simp
    | cons t rest =>
      have ht : t.terminal = .endOfInput := hdone t rfl
      rcases List.eq_nil_or_concat' rest with rfl | ⟨mid, last, rfl⟩
      · simpa using ht
      · rw [htokens, ← List.cons_append, ← List.append_assoc] at hread
        have hmem : t ∈ us := by
          rw [← List.append_inj_left' hread rfl]
          simp
        exact absurd ht (hus t hmem)
  have hnone : Bears rest [] 0 := by
    clear hdone htokens
    induction rest with
    | nil => exact .nil
    | cons t rest ih =>
      rw [List.forall_mem_cons] at hrest
      exact (Bears.mark hrest.1 rfl).before (ih hrest.2)
  have hall : BearsNodes (Lexer.read file text).tokens p.nodes := by
    rw [htokens]
    exact hbears.behind hnone
  refine ⟨?_, hall.opened⟩
  have hpayload := hall.payload []
  rwa [List.append_nil, payload, List.append_nil] at hpayload

/-- What is parsed without an error holds each name and literal of the text once, and as many blocks as
braces are opened there. A production that gives up for a mistake has reported one, so that no
expression and no list of statements is refused for no error. -/
theorem parse_keeps_payload :
    (∀ (file : FileId) (text : String) (p : Program), (ofText program file text).result = .ok p →
      (ofText program file text).log.hasErrors = false →
        (payload false (Lexer.read file text).tokens).Perm (p.nodes.flatMap Node.payload) ∧
          opened (Lexer.read file text).tokens = p.nodes.countP Node.isBraced) ∧
    (∀ {α : Type} {m : Parser α}, Production m → ∀ s s', m s = .error .reported s' →
      ∃ new, s'.problems = new ++ s.problems ∧ ∃ q ∈ new, (Problem.diagnostic q).isError = true) ∧
    (∀ (tokens : List Token) (log : Log) (n : Nat), (run expression tokens).result.mapError
        (·.failure (log.append (run expression tokens).diagnostics).errors) = .error (.compilationFailed n) →
      0 < n) ∧
    (∀ (tokens : List Token) (log : Log) (n : Nat), (run statementList tokens).result.mapError
        (·.failure (log.append (run statementList tokens).diagnostics).errors) = .error (.compilationFailed n) →
      0 < n) := by
  refine ⟨?_, ?_, ?_, ?_⟩
  · intro file text p hresult herrors
    exact bears_of_text hresult herrors
  · intro α m hm s s' hrun
    exact hm.reporting.new hrun
  · intro tokens log n hrefused
    exact expression_reporting.refused (Agree.ne_exhausted fun _ => expression_agree) hrefused
  · intro tokens log n hrefused
    exact statementList_reporting.refused (Agree.ne_exhausted fun _ => statementList_agree) hrefused

/-- The text behind `extern` does not count, the one that is an argument does. -/
theorem parse_keeps_payload_extern :
    (∃ p, (ofText program 0 "extern \"env\" \x7b fn h(x: (str,)); \x7d fn f() \x7b let a: bool = true; h(\"env\") \x7d").result = .ok p ∧
      List.Perm [.name "h", .name "x", .name "str", .name "f", .name "a", .name "bool", .literal (.bool true),
        .name "h", .literal (.text "env")] (p.nodes.flatMap Node.payload) ∧ 2 = p.nodes.countP Node.isBraced) ∧
    (∃ s, expect .semi { rest := [] } = .error .reported s ∧
      ∃ new, s.problems = new ++ [] ∧ ∃ q ∈ new, (Problem.diagnostic q).isError = true) ∧
    (run expression []).result.mapError
        (·.failure (Log.empty.append (run expression []).diagnostics).errors) = .error (.compilationFailed 1) ∧
      0 < 1 := by
  have hnew := parse_keeps_payload.2.1 (.expect .semi) { rest := [] } _ rfl
  refine ⟨?_, ⟨_, rfl, hnew⟩, rfl, parse_keeps_payload.2.2.1 [] Log.empty 1 rfl⟩
  have hpayload : payload false (Lexer.read 0
      "extern \"env\" \x7b fn h(x: (str,)); \x7d fn f() \x7b let a: bool = true; h(\"env\") \x7d").tokens =
        [.name "h", .name "x", .name "str", .name "f", .name "a", .name "bool", .literal (.bool true), .name "h",
          .literal (.text "env")] := by
    decide +kernel
  have hopened : opened (Lexer.read 0
      "extern \"env\" \x7b fn h(x: (str,)); \x7d fn f() \x7b let a: bool = true; h(\"env\") \x7d").tokens = 2 := by
    decide +kernel
  have hparsed : (ofText program 0
      "extern \"env\" \x7b fn h(x: (str,)); \x7d fn f() \x7b let a: bool = true; h(\"env\") \x7d").result.toOption.isSome = true := by
    decide +kernel
  have herrors : (ofText program 0
      "extern \"env\" \x7b fn h(x: (str,)); \x7d fn f() \x7b let a: bool = true; h(\"env\") \x7d").log.hasErrors = false := by
    decide +kernel
  cases hresult : (ofText program 0
      "extern \"env\" \x7b fn h(x: (str,)); \x7d fn f() \x7b let a: bool = true; h(\"env\") \x7d").result with
  | error f =>
    rw [hresult] at hparsed
    cases hparsed
  | ok p =>
    have hkept := parse_keeps_payload.1 0 _ p hresult herrors
    rw [hpayload, hopened] at hkept
    exact ⟨p, rfl, hkept⟩

end Parse
end Ferrite
