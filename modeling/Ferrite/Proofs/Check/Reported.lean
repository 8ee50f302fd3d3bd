import Ferrite.Proofs.Check.Question

/-!
Checking in terms of what it leaves behind: the type noted for each node follows from the types noted
for its parts, and what is reported are the verdicts on the questions that the nodes ask about them.
-/

namespace Ferrite.Check
open Scope (Event)

variable {α : Type} {types : TypeTable} {s s' s'' : State} {own : Bool} {nodes : List NodeId}
  {passed : List Event} {around : Option Header}

section

variable (types : TypeTable)

/-- The type that is noted for a node. -/
def typeOf (id : NodeId) : Ty := (types.get? id).getD .unknown

def condType : Cond → Ty
  | .only .. => .unit
  | .orElse _ yes no => joined yes.endsInReturn (typeOf types yes.id) (typeOf types no.id)
  | .orIf _ yes no => joined yes.endsInReturn (typeOf types yes.id) (condType no)

/-- The type of an expression, from those of its parts and of the names around it. -/
def exprType (scopes : Scope.Stack) : Expr → Ty
  | .literal _ _ value => value.type
  | .path _ _ name =>
      match scopes.local? name.text, scopes.decl? name.text with
      | some t, _ => t
      | none, some d => d.signature.type
      | none, none => .unknown
  | .grouped _ _ inner => typeOf types inner.id
  | .unary _ _ _ operand => typeOf types operand.id
  | .binary _ _ op lhs rhs =>
      if op = .assign then .unit
      else if op.isComparison then .bool
      else operandType (typeOf types lhs.id) (typeOf types rhs.id)
  | .call _ _ callee _ =>
      match scopes.local? callee.text, scopes.decl? callee.text with
      | none, some d => d.signature.result
      | _, _ => .unknown
  | .ret .. => .never
  | .block _ _ body => typeOf types body.id
  | .loop .. | .while .. => .unit
  | .cond _ _ links => condType types links

/-- The type of a block: of what it returns last, if that ends it, and of its tail otherwise. -/
def lastType (b : Block) : Ty :=
  match b.trailingReturn? with
  | some (some value) => typeOf types value.id
  | some none => .unit
  | none => (b.tail.map fun e => typeOf types e.id).getD .unit

def condQuestions : Cond → List (Located Question)
  | .only c yes =>
      askTruth (typeOf types c.id) c.span :: askWithoutElse yes (typeOf types yes.id)
  | .orElse c yes no =>
      askTruth (typeOf types c.id) c.span ::
        askBranches yes.endsInReturn (typeOf types yes.id) no.endsInReturn no.span (typeOf types no.id)
  | .orIf c yes no =>
      askTruth (typeOf types c.id) c.span :: (condQuestions no ++
        askBranches yes.endsInReturn (typeOf types yes.id) false (no.cond.span.join no.yes.span)
          (condType types no))

def exprQuestions (owner : Header) (scopes : Scope.Stack) : Expr → List (Located Question)
  | .path _ _ name => askPath scopes name
  | .unary _ span op operand => [⟨.operand op (typeOf types operand.id), span⟩]
  | .binary _ span op lhs rhs =>
      if op = .assign then
        askAssignment scopes lhs rhs (typeOf types lhs.id) (typeOf types rhs.id)
      else [⟨.operands op (typeOf types lhs.id) (typeOf types rhs.id), span⟩]
  | .call _ span callee args =>
      askCall scopes callee span args (args.map fun e => typeOf types e.id)
  | .ret _ span none => [askReturned owner .unit span]
  | .ret _ _ (some value) => [askReturned owner (typeOf types value.id) value.span]
  | .while _ _ c _ => [askTruth (typeOf types c.id) c.span]
  | .cond _ _ links => condQuestions types links
  | .literal .. | .grouped .. | .block .. | .loop .. => []

/-- What is asked about the parts of a node. -/
def questions (v : Visit State) : List (Located Question) :=
  match v.node, v.owner with
  | .expr e, some owner => exprQuestions types owner v.state.scopes e
  | .stmt (.bind _ _ _ declared init), _ => askBinding declared init (typeOf types init.id)
  | .item (.function h body), _ => askBody h body (typeOf types body.id)
  | _, _ => []

/-- The type noted for a node follows from those of its parts. A local that is bound has the type noted
for its statement, unless its name was taken. -/
def Follows (v : Visit State) : Prop :=
  match v.node, v.owner with
  | .expr e, _ => types.get? e.id = some (exprType types v.state.scopes e)
  | .block b, _ => types.get? b.id = some (lastType types b)
  | .stmt (.bind id span name declared init), _ =>
      types.get? id = some (declared.getD (typeOf types init.id)) ∧
        (after (stmt (.bind id span name declared init)) v.state).scopes.local? name.text =
          some (((after (expr init) v.state).scopes.localHere? name.text).getD
            (declared.getD (typeOf types init.id)))
  | _, _ => True

end

/-- The types noted so far are those noted in the end. -/
def Noted (types : TypeTable) (s : State) : Prop :=
  ∀ id t, (id, t) ∈ s.types.entries → types.get? id = some t

theorem Noted.before (h : Noted types s') (hg : Grows own nodes passed s s') : Noted types s := by
  intro id t hmem
  obtain ⟨new, hnew, -⟩ := hg.types
  exact h id t (hnew ▸ List.mem_append_right _ hmem)

theorem Reports.noted {act : Checker α} (hr : Reports act) (h : Noted types (after act s)) :
    Noted types s :=
  h.before (hr.grows true s)

theorem noted_recorded {id : NodeId} {act : Checker Ty} (h : Noted types (after (recorded id act) s)) :
    types.get? id = some (value act s) ∧ Noted types (after act s) :=
  ⟨h id _ List.mem_cons_self, fun i t hmem => h i t (List.mem_cons_of_mem _ hmem)⟩

theorem typeOf_eq {id : NodeId} {t : Ty} (h : types.get? id = some t) : typeOf types id = t := by
  rw [typeOf, h, Option.getD_some]

theorem typeOf_expr {e : Expr} (h : Noted types (after (expr e) s)) :
    typeOf types e.id = value (expr e) s := by
  have hrecorded : ∃ act, expr e = recorded e.id act := by
    cases e with
    | ret id span value => cases value <;> exact ⟨_, by rw [expr]; rfl⟩
    | _ => exact ⟨_, by rw [expr]; rfl⟩
  obtain ⟨act, hact⟩ := hrecorded
  rw [hact] at h ⊢
  exact typeOf_eq (noted_recorded h).1

theorem typeOf_block {b : Block} (h : Noted types (after (block b) s)) :
    typeOf types b.id = value (block b) s := by
  have hrecorded : ∃ act, block b = recorded b.id act := by
    obtain ⟨id, span, is, ss, _ | e⟩ := b <;> exact ⟨_, by rw [block]; rfl⟩
  obtain ⟨act, hact⟩ := hrecorded
  rw [hact] at h ⊢
  exact typeOf_eq (noted_recorded h).1

theorem value_exprs : ∀ {es : List Expr} {s : State},
    Noted types (after (exprs es) s) →
    value (exprs es) s = es.map fun e => typeOf types e.id
  | [], s, _ => by
    rw [exprs]
    rfl
  | e :: es, s, h => by
    rw [exprs] at h ⊢
    have hes : Noted types (after (exprs es) (after (expr e) s)) := h
    have he := typeOf_expr (hes.before (exprs_grows es _))
    rw [List.map_cons, he, ← value_exprs hes]
    rfl

/-- Inside a scope of a program whose types are known as far as they can be, and inside a function or outside
of all. -/
structure Inside (around : Option Header) (s : State) : Prop where
  valid : s.scopes.Valid
  opened : s.scopes.opened ≠ []
  known : AllKnown s
  owner : s.owners.head? = around.map .of

theorem Inside.past {act : Checker α} {good : α → Prop} (h : Inside around s)
    (hg : Grows own nodes passed s (after act s)) (hk : Keeps True act good) : Inside around (after act s) where
  valid := hg.scopes.valid h.valid
  opened := hg.scopes.opened ▸ h.opened
  known := (hk.known s h.known fun _ => trivial).1
  owner := hg.owners ▸ h.owner

theorem Inside.test (owner : Header) {c : Expr} (h : Inside around s) (hs : AllSound c.nodes) :
    Inside around (pass.test owner c s) :=
  h.past (test_grows owner c s) ((expr_keeps c hs).bind fun t => keeps_truth c.span t)

theorem inside_atBlock {is : List Item} (hv : s.scopes.Valid) (hk : AllKnown s)
    (ho : s.owners.head? = around.map .of) (hs : AllSound (itemNodes is)) : Inside around (atBlock is s) where
  valid := (opens_atBlock is s).scopes.valid hv
  opened := (opens_atBlock is s).scopes.opened ▸ List.cons_ne_nil _ _
  known := ((Keeps.declareItems (sound_headers hs)).known _ (hk.push false) fun _ => trivial).1
  owner := (opens_atBlock is s).owners ▸ ho

theorem inside_atFunction {h : Header} (hi : Inside around s) (hs : h.Sound) :
    Inside (some h) (atFunction h s) where
  valid := (opens_atFunction h s).scopes.valid hi.valid
  opened := (opens_atFunction h s).scopes.opened ▸ List.cons_ne_nil _ _
  known := by
    have hinto : AllKnown (s.into (.of h)) := ⟨hi.known.frames, hi.known.types⟩
    exact ((Keeps.bindParams hs).known _ (hinto.push true) fun _ => trivial).1
  owner := congrArg List.head? (opens_atFunction h s).owners

/-- Between two states, the visited nodes and a node around them asked all that was asked, and the types of
the visited nodes follow from those of their parts. -/
structure Raises (types : TypeTable) (around : List (Located Question)) (vs : List (Visit State))
    (s s' : State) : Prop where
  asked : Asked (around ++ vs.flatMap (questions types)) s s'
  follows : ∀ v ∈ vs, Follows types v

namespace Raises

variable {around more : List (Located Question)} {vs ws : List (Visit State)}

theorem nil (s : State) : Raises types [] [] s s := ⟨asked_nil s, List.forall_mem_nil _⟩

theorem trans (h : Raises types around vs s s') (h' : Raises types more ws s' s'') :
    Raises types (around ++ more) (vs ++ ws) s s'' where
  asked := by
    refine (h.asked.trans h'.asked).perm ?_
    rw [List.flatMap_append, List.append_assoc, List.append_assoc]
    exact (List.perm_append_comm_assoc _ _ _).append_left around
  follows := List.forall_mem_append.mpr ⟨h.follows, h'.follows⟩

theorem visit (h : Raises types around vs s s') (h' : Raises types [] ws s' s'') :
    Raises types around (vs ++ ws) s s'' := by
  have htrans := h.trans h'
  rwa [List.append_nil] at htrans

theorem ask (h : Raises types around vs s s') (h' : Asked more s' s'') :
    Raises types (around ++ more) vs s s'' := by
  have hmore : Raises types more [] s' s'' :=
    ⟨by rwa [List.flatMap_nil, List.append_nil], List.forall_mem_nil _⟩
  have htrans := h.trans hmore
  rwa [List.append_nil] at htrans

theorem root {v : Visit State} (h : Raises types (questions types v) vs s s') (hv : Follows types v) :
    Raises types [] (v :: vs) s s' :=
  ⟨h.asked, List.forall_mem_cons.mpr ⟨hv, h.follows⟩⟩

/-- The type of a node is noted after its questions were asked. -/
theorem node {v : Visit State} {id : NodeId} {act : Checker Ty}
    (h : Raises types (questions types v) vs s (after act s)) (hv : Follows types v) :
    Raises types [] (v :: vs) s (after (recorded id act) s) :=
  ⟨h.asked, List.forall_mem_cons.mpr ⟨hv, h.follows⟩⟩

theorem silently (h : Raises types around vs s s') (hs : judged s''.problems = judged s'.problems) :
    Raises types around vs s s'' :=
  ⟨h.asked.problems hs, h.follows⟩

/-- To declare names asks nothing. -/
theorem declared (h : Raises types around vs s' s'') (hs : judged s'.problems = judged s.problems) :
    Raises types around vs s s'' where
  asked := by
    rw [Asked, ← hs]
    exact h.asked
  follows := h.follows

end Raises

theorem value_path (name : Ident) {id : NodeId} {span : Span} :
    value (path name) s = exprType types s.scopes (.path id span name) := by
  rw [exprType]
  obtain ⟨t, hl, hv, -⟩ | ⟨hl, ⟨d, hd, hv, -⟩ | ⟨hd, hv, -⟩⟩ := path_cases name s
  · rw [hl, hv]
  · rw [hl, hd, hv]
  · rw [hl, hd, hv]

theorem value_call (callee : Ident) (span : Span) (args : List Expr) (ts : List Ty) {id : NodeId} :
    value (call callee span args ts) s = exprType types s.scopes (.call id span callee args) := by
  rw [exprType]
  obtain ⟨t, hl, hv, -⟩ | ⟨hl, ⟨hd, hv, -⟩ | ⟨d, hd, hv, -⟩⟩ := call_cases callee span args ts s
  · rw [hl, hv]
  · rw [hl, hd, hv]
  · rw [hl, hd, hv]

theorem after_blockType (b : Block) (tail : Option Ty) : after (blockType b tail) s = s := by
  unfold blockType
  split <;> rfl

theorem value_lastType {b : Block} {tail : Option Ty}
    (hreturned : ∀ v, b.trailingReturn? = some (some v) → s.types.get? v.id = some (typeOf types v.id))
    (htail : tail = b.tail.map fun e => typeOf types e.id) :
    value (blockType b tail) s = lastType types b := by
  rw [value_blockType, lastType, htail]
  rcases hreturn : b.trailingReturn? with _ | _ | v
  · rfl
  · rfl
  · dsimp only
    rw [hreturned v hreturn, Option.getD_some]

theorem mem_binding (id : NodeId) (name : Ident) (declared : Option Ty) (init : Expr) (t : Ty) (s : State) :
    (id, declared.getD t) ∈ (after (binding id name declared init t) s).types.entries := by
  have hbind : ∀ (bound : Ty) (s : State), (id, bound) ∈ (after (do
      record id bound; bind name bound (.repeatedLocal name.text)) s).types.entries := by
    intro bound s
    obtain ⟨new, hnew, -⟩ :=
      (grows_bind name bound (.repeatedLocal name.text) (after (record id bound) s)).types
    exact hnew ▸ List.mem_append_right _ List.mem_cons_self
  cases declared with
  | none => exact hbind t s
  | some expected => exact hbind expected _

theorem local?_of_localHere? {scopes : Scope.Stack} {name : String} {t : Ty}
    (h : scopes.localHere? name = some t) : scopes.local? name = some t := by
  obtain ⟨f, hf, hlocal⟩ := Option.bind_eq_some_iff.mp h
  obtain ⟨fs, hfs⟩ := List.head?_eq_some_iff.mp hf
  rw [Scope.Stack.local?, hfs, Scope.findLocal?, hlocal]

section

variable {owner : Header} {e : Expr}

/-- Past parts that leave the open frames alone, a name stands for the same. -/
theorem exprType_past (hv : s.scopes.Valid) (hg : Grows false nodes passed s s') :
    exprType types s'.scopes e = exprType types s.scopes e := by
  cases e <;> simp only [exprType, hg.scopes.local? hv, hg.scopes.decl? hv]

theorem exprQuestions_past (hv : s.scopes.Valid) (hg : Grows false nodes passed s s') :
    exprQuestions types owner s'.scopes e = exprQuestions types owner s.scopes e := by
  cases e with
  | ret id span value => cases value <;> rfl
  | _ => simp only [exprQuestions, askPath, askAssignment, askCall, hg.scopes.local? hv, hg.scopes.decl? hv]

theorem asked_operation (owner : Header) {id : NodeId} {span : Span} {op : BinaryOp}
    {lhs rhs : Expr} {l r : Ty} (hl : typeOf types lhs.id = l) (hr : typeOf types rhs.id = r) :
    Asked (exprQuestions types owner s.scopes (.binary id span op lhs rhs)) s
        (after (if op = .assign then assignment lhs rhs l r else binary op span l r) s) ∧
      value (if op = .assign then assignment lhs rhs l r else binary op span l r) s =
        exprType types s.scopes (.binary id span op lhs rhs) := by
  rw [exprQuestions, exprType, hl, hr]
  split
  · exact ⟨asked_assignment lhs rhs l r, value_assignment lhs rhs⟩
  · exact ⟨asked_binary op span l r, value_binary op span⟩

theorem test_raises {c : Expr} {vs : List (Visit State)} (hn : Noted types (pass.test owner c s))
    (hc : Noted types (after (expr c) s) → Raises types [] vs s (after (expr c) s)) :
    Raises types [askTruth (typeOf types c.id) c.span] vs s (pass.test owner c s) := by
  have hbefore : Noted types (after (expr c) s) := (Reports.reportIf _ _ _).noted hn
  refine (hc hbefore).ask ?_
  rw [typeOf_expr hbefore]
  exact asked_truth c.span _

end

-- By induction on the tree, for a table that has what was noted behind the part. The part is checked
-- inside a scope in which all functions have known types, as the number of arguments is asked for even
-- where the type of the function is not.
mutual
theorem expr_raises (owner : Header) : ∀ (e : Expr) (target : Bool) (s : State), Inside (some owner) s →
    AllSound e.nodes → Noted types (after (expr e) s) →
    Raises types [] (e.visits pass owner target s) s (after (expr e) s)
  | .literal id span l, target, s, _, _, hn => by
    rw [expr] at hn ⊢
    rw [Expr.visits]
    exact .node (.nil s) (noted_recorded hn).1
  | .path id span name, target, s, _, _, hn => by
    rw [expr] at hn ⊢
    rw [Expr.visits]
    have htype := (noted_recorded hn).1
    rw [value_path] at htype
    exact .node ((Raises.nil s).ask (asked_path name)) htype
  | .grouped id span inner, target, s, hi, hs, hn => by
    rw [Expr.nodes, allSound_cons] at hs
    rw [expr] at hn ⊢
    rw [Expr.visits]
    obtain ⟨htype, hinner⟩ := noted_recorded hn
    rw [← typeOf_expr hinner] at htype
    exact .node (expr_raises owner inner target s hi hs.2 hinner) htype
  | .unary id span op operand, target, s, hi, hs, hn => by
    rw [Expr.nodes, allSound_cons] at hs
    rw [expr] at hn ⊢
    rw [Expr.visits]
    obtain ⟨htype, hrule⟩ := noted_recorded hn
    have hoperand := (reports_unary _ _ _).noted hrule
    have ht := typeOf_expr hoperand
    refine .node ((expr_raises owner operand target s hi hs.2 hoperand).ask ?_)
      (htype.trans (congrArg some ht.symm))
    rw [ht]
    exact asked_unary op span _
  | .binary id span op lhs rhs, target, s, hi, hs, hn => by
    rw [Expr.nodes, allSound_cons, allSound_append] at hs
    rw [expr] at hn ⊢
    rw [Expr.visits, pass_left]
    obtain ⟨htype, hrule⟩ := noted_recorded hn
    have hgl := expr_grows lhs s
    have hgr := expr_grows rhs (after (expr lhs) s)
    have hrhs : Noted types (after (expr rhs) (after (expr lhs) s)) :=
      (reports_operation op span lhs rhs _ _).noted hrule
    have hlhs := hrhs.before hgr
    obtain ⟨hasked, hvalue⟩ := asked_operation (s := after (expr rhs) (after (expr lhs) s)) owner
      (typeOf_expr hlhs) (typeOf_expr hrhs)
    rw [exprQuestions_past hi.valid (hgl.trans hgr)] at hasked
    rw [exprType_past hi.valid (hgl.trans hgr)] at hvalue
    have hr := expr_raises owner rhs target _ (hi.past hgl (expr_keeps lhs hs.2.1)) hs.2.2 hrhs
    exact .node (((expr_raises owner lhs (target || op = .assign) s hi hs.2.1 hlhs).visit hr).ask hasked)
      (htype.trans (congrArg some hvalue))
  | .call id span callee args, target, s, hi, hs, hn => by
    rw [Expr.nodes, allSound_cons] at hs
    rw [expr] at hn ⊢
    rw [Expr.visits]
    obtain ⟨htype, hrule⟩ := noted_recorded hn
    have hargs := (reports_call _ _ _ _).noted hrule
    have hg := exprs_grows args s
    have hknown := (hi.past hg (exprs_keeps args hs.2)).known
    have hasked : Asked (exprQuestions types owner (after (exprs args) s).scopes (.call id span callee args))
        (after (exprs args) s) (after (call callee span args (value (exprs args) s))
          (after (exprs args) s)) := by
      rw [exprQuestions, ← value_exprs hargs]
      exact asked_call callee span args _ fun d hd => hknown.decl? hd
    have hvalue : value (call callee span args (value (exprs args) s)) (after (exprs args) s) =
        exprType types (after (exprs args) s).scopes (.call id span callee args) :=
      value_call callee span args _
    rw [exprQuestions_past hi.valid hg] at hasked
    rw [exprType_past hi.valid hg] at hvalue
    exact .node ((exprs_raises owner args target s hi hs.2 hargs).ask hasked)
      (htype.trans (congrArg some hvalue))
  | .ret id span none, target, s, hi, _, hn => by
    rw [expr] at hn ⊢
    rw [Expr.visits]
    have htype := (noted_recorded hn).1
    rw [value_returned] at htype
    exact .node ((Raises.nil s).ask (asked_returned hi.owner span .unit)) htype
  | .ret id span (some e), target, s, hi, hs, hn => by
    rw [Expr.nodes, allSound_cons] at hs
    rw [expr] at hn ⊢
    rw [Expr.visits]
    obtain ⟨htype, hrule⟩ := noted_recorded hn
    have he := (reports_returned _ _).noted hrule
    have hnever := value_returned e.span (value (expr e) s) (after (expr e) s)
    refine .node ((expr_raises owner e target s hi hs.2 he).ask ?_) (htype.trans (congrArg some hnever))
    rw [typeOf_expr he]
    exact asked_returned (hi.past (expr_grows e s) (expr_keeps e hs.2)).owner e.span _
  | .block id span body, target, s, hi, hs, hn => by
    rw [Expr.nodes, allSound_cons] at hs
    rw [expr] at hn ⊢
    rw [Expr.visits]
    obtain ⟨htype, hbody⟩ := noted_recorded hn
    rw [← typeOf_block hbody] at htype
    exact .node (block_raises owner body target s hi hs.2 hbody) htype
  | .loop id span body, target, s, hi, hs, hn => by
    rw [Expr.nodes, allSound_cons] at hs
    rw [expr] at hn ⊢
    rw [Expr.visits]
    obtain ⟨htype, hbody⟩ := noted_recorded hn
    exact .node (block_raises owner body target s hi hs.2 hbody) htype
  | .while id span c body, target, s, hi, hs, hn => by
    rw [Expr.nodes, allSound_cons, allSound_append] at hs
    rw [expr] at hn ⊢
    rw [Expr.visits]
    obtain ⟨htype, hrule⟩ := noted_recorded hn
    have hbody : Noted types (after (block body) (pass.test owner c s)) := hrule
    have htest := test_raises (hbody.before (block_grows body _)) (expr_raises owner c target s hi hs.2.1)
    exact .node (htest.visit (block_raises owner body target _ (hi.test owner hs.2.1) hs.2.2 hbody)) htype
  | .cond id span links, target, s, hi, hs, hn => by
    rw [Expr.nodes, allSound_cons] at hs
    rw [expr] at hn ⊢
    rw [Expr.visits]
    obtain ⟨htype, hlinks⟩ := noted_recorded hn
    obtain ⟨hraises, hvalue⟩ := cond_raises owner links target s hi hs.2 hlinks
    rw [hvalue] at htype
    exact .node hraises htype

theorem exprs_raises (owner : Header) : ∀ (es : List Expr) (target : Bool) (s : State), Inside (some owner) s →
    AllSound (exprNodes es) → Noted types (after (exprs es) s) →
    Raises types [] (exprVisits pass owner target es s) s (after (exprs es) s)
  | [], target, s, _, _, _ => by
    rw [exprs]
    exact .nil s
  | e :: es, target, s, hi, hs, hn => by
    rw [exprNodes, allSound_append] at hs
    rw [exprs] at hn ⊢
    rw [exprVisits]
    have hes : Noted types (after (exprs es) (after (expr e) s)) := hn
    have he := hes.before (exprs_grows es _)
    have hi' := hi.past (expr_grows e s) (expr_keeps e hs.1)
    exact (expr_raises owner e target s hi hs.1 he).visit (exprs_raises owner es target _ hi' hs.2 hes)

theorem cond_raises (owner : Header) : ∀ (c : Cond) (target : Bool) (s : State), Inside (some owner) s →
    AllSound c.nodes → Noted types (after (cond c) s) →
    Raises types (condQuestions types c) (c.visits pass owner target s) s (after (cond c) s) ∧
      value (cond c) s = condType types c
  | .only c yes, target, s, hi, hs, hn => by
    rw [Cond.nodes, allSound_append] at hs
    rw [cond] at hn ⊢
    rw [Cond.visits]
    have hyes : Noted types (after (block yes) (pass.test owner c s)) :=
      (reports_withoutElse yes _).noted hn
    have htest := test_raises (hyes.before (block_grows yes _)) (expr_raises owner c target s hi hs.1)
    have hparts := htest.visit (block_raises owner yes target _ (hi.test owner hs.1) hs.2 hyes)
    refine ⟨hparts.ask ?_, rfl⟩
    rw [typeOf_block hyes]
    exact asked_withoutElse yes _
  | .orElse c yes no, target, s, hi, hs, hn => by
    rw [Cond.nodes, allSound_append, allSound_append] at hs
    rw [cond] at hn ⊢
    rw [Cond.visits]
    have hno : Noted types (after (block no) (after (block yes) (pass.test owner c s))) :=
      (reports_branches _ _ _ _ _).noted hn
    have hyes := hno.before (block_grows no _)
    have htest := test_raises (hyes.before (block_grows yes _)) (expr_raises owner c target s hi hs.1.1)
    have hi' := hi.test owner hs.1.1
    have hi'' := hi'.past (block_grows yes _) (block_keeps yes hs.1.2)
    have hparts := (htest.visit (block_raises owner yes target _ hi' hs.1.2 hyes)).visit
      (block_raises owner no target _ hi'' hs.2 hno)
    have hy := typeOf_block hyes
    have hn := typeOf_block hno
    refine ⟨hparts.ask ?_, ?_⟩
    · rw [hy, hn]
      exact asked_branches _ _ _ _ _
    · rw [condType, hy, hn]
      exact value_branches _ _ _ _ _
  | .orIf c yes no, target, s, hi, hs, hn => by
    rw [Cond.nodes, allSound_append, allSound_append] at hs
    rw [cond] at hn ⊢
    rw [Cond.visits]
    have hno : Noted types (after (cond no) (after (block yes) (pass.test owner c s))) :=
      (reports_branches _ _ _ _ _).noted hn
    have hyes := hno.before (cond_grows no _)
    have htest := test_raises (hyes.before (block_grows yes _)) (expr_raises owner c target s hi hs.1.1)
    have hi' := hi.test owner hs.1.1
    have hi'' := hi'.past (block_grows yes _) (block_keeps yes hs.1.2)
    obtain ⟨hnested, hn⟩ := cond_raises owner no target _ hi'' hs.2 hno
    have hparts := (htest.visit (block_raises owner yes target _ hi' hs.1.2 hyes)).trans hnested
    have hy := typeOf_block hyes
    refine ⟨hparts.ask ?_, ?_⟩
    · rw [hy, ← hn]
      exact asked_branches _ _ _ _ _
    · rw [condType, hy, ← hn]
      exact value_branches _ _ _ _ _

theorem block_raises (owner : Header) : ∀ (b : Block) (target : Bool) (s : State), Inside (some owner) s →
    AllSound b.nodes → Noted types (after (block b) s) →
    Raises types [] (b.visits pass owner target s) s (after (block b) s)
  | .mk id span is ss none, target, s, hi, hs, hn => by
    rw [Block.nodes, allSound_cons, allSound_append] at hs
    rw [block] at hn ⊢
    rw [Block.visits, pass_items]
    obtain ⟨htype, hrule⟩ := noted_recorded hn
    have hrule : Noted types (after (blockType (.mk id span is ss none) none)
      (after (stmts ss) (after (items is) (atBlock is s)))) := hrule
    have hstmts := (reports_blockType _ _).noted hrule
    have hib := inside_atBlock hi.valid hi.known hi.owner hs.2.1
    have his := hib.past (items_grows is _) (items_keeps is hs.2.1)
    have hparts := (items_raises is target _ hib hs.2.1 (hstmts.before (stmts_grows ss _))).visit
      (stmts_raises owner ss target _ his hs.2.2 hstmts)
    have hend := after_blockType (s := after (stmts ss) (after (items is) (atBlock is s)))
      (.mk id span is ss none) none
    refine .node ((hparts.declared (judged_atBlock is s)).silently
      (congrArg (judged ·.problems) hend)) (htype.trans (congrArg some ?_))
    refine value_lastType (fun v hv => ?_) rfl
    obtain ⟨t, ht, hmem⟩ := returned_noted (after (items is) (atBlock is s)) hv
    rw [typeOf_eq (hstmts v.id t hmem)]
    exact ht
  | .mk id span is ss (some e), target, s, hi, hs, hn => by
    rw [Block.nodes, allSound_cons, allSound_append, allSound_append] at hs
    rw [block] at hn ⊢
    rw [Block.visits, pass_items, pass_stmts]
    obtain ⟨htype, hrule⟩ := noted_recorded hn
    have hrule : Noted types (after (blockType (.mk id span is ss (some e))
        (some (value (expr e) (after (stmts ss) (after (items is) (atBlock is s))))))
      (after (expr e) (after (stmts ss) (after (items is) (atBlock is s))))) := hrule
    have htail := (reports_blockType _ _).noted hrule
    have hstmts := htail.before (expr_grows e _)
    have hib := inside_atBlock hi.valid hi.known hi.owner hs.2.1.1
    have his := hib.past (items_grows is _) (items_keeps is hs.2.1.1)
    have hie := his.past (stmts_grows ss _) (stmts_keeps ss hs.2.1.2)
    have hparts := ((items_raises is target _ hib hs.2.1.1 (hstmts.before (stmts_grows ss _))).visit
      (stmts_raises owner ss target _ his hs.2.1.2 hstmts)).visit
      (expr_raises owner e target _ hie hs.2.2 htail)
    have hend := after_blockType (s := after (expr e) (after (stmts ss)
      (after (items is) (atBlock is s)))) (.mk id span is ss (some e)) (some (value (expr e)
        (after (stmts ss) (after (items is) (atBlock is s)))))
    refine .node ((hparts.declared (judged_atBlock is s)).silently
      (congrArg (judged ·.problems) hend)) (htype.trans (congrArg some ?_))
    exact value_lastType (b := .mk id span is ss (some e)) (fun v hv => (by cases hv))
      (congrArg some (typeOf_expr htail).symm)

theorem stmts_raises (owner : Header) : ∀ (ss : List Stmt) (target : Bool) (s : State), Inside (some owner) s →
    AllSound (stmtNodes ss) → Noted types (after (stmts ss) s) →
    Raises types [] (stmtVisits pass owner target ss s) s (after (stmts ss) s)
  | [], target, s, _, _, _ => by
    rw [stmts]
    exact .nil s
  | stmt :: ss, target, s, hi, hs, hn => by
    rw [stmtNodes, allSound_append] at hs
    rw [stmts] at hn ⊢
    rw [stmtVisits]
    have hss : Noted types (after (stmts ss) (after (Check.stmt stmt) s)) := hn
    have hi' := hi.past (stmt_grows stmt s) (stmt_keeps stmt hs.1)
    exact (stmt_raises owner stmt target s hi hs.1 (hss.before (stmts_grows ss _))).visit
      (stmts_raises owner ss target _ hi' hs.2 hss)

theorem stmt_raises (owner : Header) : ∀ (stmt : Stmt) (target : Bool) (s : State), Inside (some owner) s →
    AllSound stmt.nodes → Noted types (after (Check.stmt stmt) s) →
    Raises types [] (stmt.visits pass owner target s) s (after (Check.stmt stmt) s)
  | .bind id span name declared init, target, s, hi, hs, hn => by
    rw [Stmt.nodes, allSound_cons] at hs
    rw [Check.stmt] at hn ⊢
    rw [Stmt.visits]
    have hbind : Noted types (after (binding id name declared init (value (expr init) s))
      (after (expr init) s)) := hn
    have hinit := hbind.before (grows_binding id name declared init _ _)
    have hi' := hi.past (expr_grows init s) (expr_keeps init hs.2)
    obtain ⟨k, f, htop⟩ := hi'.valid.top (List.isEmpty_eq_false_iff.mpr hi'.opened)
    have hlocal := localHere?_binding id name declared init (value (expr init) s) htop
    have hasked := asked_binding (s := after (expr init) s) id name declared init
      (value (expr init) s)
    refine .root (((expr_raises owner init target s hi hs.2 hinit).ask ?_)) ⟨?_, ?_⟩
    · rw [typeOf_expr hinit]
      exact hasked
    · rw [typeOf_expr hinit]
      exact hbind id _ (mem_binding id name declared init _ _)
    · rw [Check.stmt, typeOf_expr hinit]
      exact local?_of_localHere? hlocal
  | .expr span e semi, target, s, hi, hs, hn => by
    rw [Stmt.nodes, allSound_cons] at hs
    rw [Check.stmt] at hn ⊢
    rw [Stmt.visits]
    exact .root (expr_raises owner e target s hi hs.2 hn) trivial

theorem items_raises {outer : Option Header} : ∀ (is : List Item) (target : Bool) (s : State), Inside outer s →
    AllSound (itemNodes is) → Noted types (after (items is) s) →
    Raises types [] (itemVisits pass target is s) s (after (items is) s)
  | [], target, s, _, _, _ => by
    rw [items]
    exact .nil s
  | i :: is, target, s, hi, hs, hn => by
    rw [itemNodes, allSound_append] at hs
    rw [items] at hn ⊢
    rw [itemVisits]
    have his : Noted types (after (items is) (after (item i) s)) := hn
    have hi' := hi.past (item_grows i s) (item_keeps i hs.1)
    exact (item_raises i target s hi hs.1 (his.before (items_grows is _))).visit
      (items_raises is target _ hi' hs.2 his)

theorem item_raises {outer : Option Header} : ∀ (i : Item) (target : Bool) (s : State), Inside outer s →
    AllSound i.nodes → Noted types (after (item i) s) →
    Raises types [] (i.visits pass target s) s (after (item i) s)
  | .function h body, target, s, hi, hs, hn => by
    rw [Item.nodes, allSound_cons] at hs
    rw [item] at hn ⊢
    rw [Item.visits]
    have hrule : Noted types (after (functionBody h body (value (block body) (atFunction h s)))
      (after (block body) (atFunction h s))) := hn
    have hbody := (reports_functionBody _ _ _).noted hrule
    have hi' := inside_atFunction hi (hs.1 h List.mem_cons_self)
    have hparts := (block_raises h body target _ hi' hs.2 hbody).declared (judged_atFunction h s)
    have hasked := asked_functionBody (s := after (block body) (atFunction h s)) h body
      (value (block body) (atFunction h s))
    refine .root ((hparts.ask ?_).silently rfl) trivial
    rw [typeOf_block hbody]
    exact hasked
  | .foreign .., target, s, _, _, _ => by
    rw [item]
    exact .root (.nil s) trivial
end

theorem raised_eq_some {a : Located Question} {q : Located Problem} (h : raised a = some q) :
    a.value.verdict = some q.value := by
  obtain ⟨problem, hverdict, rfl⟩ := Option.map_eq_some_iff.mp h
  exact hverdict

theorem raised_eq_none {a : Located Question} (h : ∃ t ∈ a.value.about, t.hasUnknown = true) :
    raised a = none := by
  rw [raised, Question.verdict, if_pos (List.any_eq_true.mpr h)]
  rfl

theorem program_raises {tokens : List Token} {p : Program}
    (h : Parse.run Parse.program tokens = ⟨.ok p, []⟩) :
    Raises (run p).1.types [] (p.visits pass (start p)) {} (after (items p.items) (start p)) := by
  have hs := Parse.allSound_of_run h
  have hi : Inside none (start p) := inside_atBlock Scope.Stack.valid_empty allKnown_empty rfl hs
  exact (items_raises p.items false (start p) hi hs fun _ _ => noted_of_mem h).declared (judged_atBlock p.items {})

/-- Besides repeated names, what is reported are the verdicts on the questions asked at the nodes. So a
problem is only reported where all types are known that it is about, unless a local is called: whatever
the types of an expression or of a local bound to it leave open is not reported again. -/
theorem run_reported {tokens : List Token} {p : Program}
    (h : Parse.run Parse.program tokens = ⟨.ok p, []⟩) :
    (judged (run p).2).Perm
        (((p.visits pass (start p)).flatMap (questions (run p).1.types)).filterMap raised) ∧
      (∀ q ∈ (run p).2, q.value.code ≠ .redefinition → (∀ name t, q.value ≠ .calledLocal name t) →
        ∃ v ∈ p.visits pass (start p), ∃ a ∈ questions (run p).1.types v,
          raised a = some q ∧ (∀ t ∈ a.value.about, t.Known) ∧ q.value.types ⊆ a.value.about) ∧
      (∀ v ∈ p.visits pass (start p), ∀ a ∈ questions (run p).1.types v,
        (∃ t ∈ a.value.about, t.hasUnknown = true) → raised a = none) ∧
      ∀ v ∈ p.visits pass (start p), Follows (run p).1.types v := by
  obtain ⟨hasked, hfollows⟩ := program_raises h
  have hjudged : judged ({} : State).problems = [] := rfl
  rw [Asked, hjudged, List.append_nil, List.nil_append] at hasked
  have hreverse : (judged (run p).2).Perm (judged (after (items p.items) (start p)).problems) :=
    (List.reverse_perm _).filter _
  have hperm := hreverse.trans hasked
  refine ⟨hperm, ?_, fun _ _ _ _ => raised_eq_none, hfollows⟩
  intro q hq hcode hcalled
  have hmem : q ∈ judged (run p).2 := List.mem_filter.mpr ⟨hq, by simpa using hcode⟩
  obtain ⟨a, ha, hraised⟩ := List.mem_filterMap.mp (hperm.mem_iff.mp hmem)
  obtain ⟨v, hv, ha⟩ := List.mem_flatMap.mp ha
  obtain ⟨hknown, hanswer⟩ := Question.verdict_eq_some (raised_eq_some hraised)
  refine ⟨v, hv, a, ha, hraised, hknown, ?_⟩
  rcases Question.types_subset hanswer with hsub | ⟨name, t, heq⟩
  · exact hsub
  · exact absurd heq (hcalled name t)

/-- A name that stands for nothing is reported, and not the assignment and the condition of the type that
it leaves open. What else is wrong is reported too. -/
theorem run_reported_mistakes : ∃ p,
    Parse.run Parse.program (Lexer.read 0
        "fn f(a: i32) -> bool \x7b let x = y; a = x; if x \x7b \x7d a + true; !1.5 \x7d").tokens = ⟨.ok p, []⟩ ∧
      (run p).2.map Located.value = [.undefinedValue "y", .operands .add (.int .i32) .bool,
        .unaryOperand .not (.float .f64), .body "f" .bool (.float .f64)] ∧
      (judged (run p).2).Perm
        (((p.visits pass (start p)).flatMap (questions (run p).1.types)).filterMap raised) ∧
      ∀ v ∈ p.visits pass (start p), Follows (run p).1.types v := by
  have hvalues : (Parse.run Parse.program (Lexer.read 0
      "fn f(a: i32) -> bool \x7b let x = y; a = x; if x \x7b \x7d a + true; !1.5 \x7d").tokens).result.toOption.map
        (fun p => (run p).2.map Located.value) =
      some [.undefinedValue "y", .operands .add (.int .i32) .bool, .unaryOperand .not (.float .f64),
        .body "f" .bool (.float .f64)] := by
    decide +kernel
  have hproblems : (Parse.run Parse.program (Lexer.read 0
      "fn f(a: i32) -> bool \x7b let x = y; a = x; if x \x7b \x7d a + true; !1.5 \x7d").tokens).problems = [] := by
    decide +kernel
  obtain ⟨p, hrun, hvalues⟩ := Parse.Outcome.exists_ok hvalues
  rw [hproblems] at hrun
  obtain ⟨hperm, -, -, hfollows⟩ := run_reported hrun
  exact ⟨p, hrun, hvalues, hperm, hfollows⟩

/-- It is not so that only known types are reported, names apart: a local of an unknown type cannot be
called either. -/
theorem not_forall_reported_known : ¬ ∀ (tokens : List Token) (p : Program),
    Parse.run Parse.program tokens = ⟨.ok p, []⟩ →
      ∀ q ∈ (run p).2, q.value.code ≠ .undefinedSymbol → q.value.code ≠ .redefinition →
        ∀ t ∈ q.value.types, t.Known := by
  intro hall
  have hvalues : (Parse.run Parse.program (Lexer.read 0
      "fn main() \x7b let x = y; x(); \x7d").tokens).result.toOption.map (fun p => (run p).2.map Located.value) =
      some [.undefinedValue "y", .calledLocal "x" .unknown] := by
    decide +kernel
  have hproblems : (Parse.run Parse.program (Lexer.read 0
      "fn main() \x7b let x = y; x(); \x7d").tokens).problems = [] := by
    decide +kernel
  obtain ⟨p, hrun, hlist⟩ := Parse.Outcome.exists_ok hvalues
  rw [hproblems] at hrun
  have hmem : Problem.calledLocal "x" .unknown ∈ (run p).2.map Located.value := by
    rw [hlist]
    exact List.mem_cons_of_mem _ List.mem_cons_self
  obtain ⟨q, hq, heq⟩ := List.mem_map.mp hmem
  have hknown : Ty.unknown.Known := by
    refine hall _ p hrun q hq ?_ ?_ .unknown ?_
    · exact heq ▸ fun h => nomatch h
    · exact heq ▸ fun h => nomatch h
    · exact heq ▸ List.mem_cons_self
  cases hknown

end Ferrite.Check
