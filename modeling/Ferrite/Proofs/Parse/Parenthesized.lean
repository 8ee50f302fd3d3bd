import Ferrite.Proofs.Parse.Printed
import Ferrite.Proofs.Parse.Whole
import Ferrite.Proofs.Tree.Regroup

/-!
Printed expressions, statements and blocks. The text of each says words that spell it with parentheses
around each operator and no others, where none that is left out was needed.
-/

namespace Ferrite

namespace Expr

/-- Without its parentheses the expression is a `return`. -/
def isReturn : Expr → Bool
  | .grouped _ _ e => e.isReturn
  | .ret .. => true
  | _ => false

/-- Without its parentheses the expression opens a block, by itself or behind a `return`. -/
def opensBare : Expr → Bool
  | .grouped _ _ e => e.opensBare
  | .ret _ _ (some e) => e.opensBare
  | .block .. => true
  | _ => false

end Expr

/-- A statement that a `;` ends. -/
def Stmt.closed : Stmt → Bool
  | .bind .. => true
  | .expr _ _ semi => semi

/-! ## With parentheses around each operator -/

namespace Expr

theorem full_closedBefore (op : BinaryOp) {e : Expr} (h : e.isReturn = false) : e.full.ClosedBefore op := by
  induction e using isReturn.induct with
  | case1 _ _ e ih => exact ih h
  | case2 => cases h
  | case3 e hgrouped hret =>
    cases e with
    | grouped => exact (hgrouped _ _ _ rfl).elim
    | ret => exact (hret _ _ _ rfl).elim
    | _ => trivial

theorem full_atLeast (e : Expr) (power : Nat) : e.full.AtLeast power := by
  induction e using isReturn.induct with
  | case1 _ _ e ih => exact ih
  | case2 _ _ value => cases value <;> trivial
  | case3 e hgrouped hret =>
    cases e with
    | grouped => exact (hgrouped _ _ _ rfl).elim
    | ret => exact (hret _ _ _ rfl).elim
    | _ => trivial

theorem full_opensBlock {e : Expr} (h : e.opensBare = false) : ¬e.full.OpensBlock := by
  induction e using opensBare.induct with
  | case1 _ _ e ih => exact ih h
  | case2 _ _ e ih => exact ih h
  | case3 => cases h
  | case4 e hgrouped hret hblock =>
    cases e with
    | grouped => exact (hgrouped _ _ _ rfl).elim
    | ret _ _ value =>
      cases value with
      | none => exact not_false
      | some value => exact (hret _ _ _ rfl).elim
    | block => exact (hblock _ _ _ rfl).elim
    | _ => exact not_false

theorem full_endsInBlock {e : Expr} (h : e.endsInBlock = true) : e.full.endsInBlock = true := by
  cases e with
  | block | loop | «while» | cond => rfl
  | _ => cases h

end Expr

theorem printArgs_eq (es : List Expr) : printArgs es = es.map Expr.print := by
  induction es with
  | nil => rfl
  | cons e es ih => rw [printArgs, ih, List.map_cons]

namespace Parse

open Lexer (Says Apart apart_nil apart_cons)

section

variable {located : Prop}

/-! ## The ends of phrases -/

/-- The last token is there, and it is no `;`. -/
def Unclosed (ts : List Token) : Prop := ∃ t ∈ ts.getLast?, t.terminal ≠ .punct .semi

theorem unclosed_singleton {t : Token} (h : t.terminal ≠ .punct .semi) : Unclosed [t] := ⟨t, rfl, h⟩

theorem Unclosed.append {us : List Token} (h : Unclosed us) (ts : List Token) : Unclosed (ts ++ us) := by
  obtain ⟨t, ht, hsemi⟩ := h
  refine ⟨t, ?_, hsemi⟩
  rw [List.getLast?_append, Option.mem_def.mp ht]
  rfl

theorem Unclosed.cons {us : List Token} (h : Unclosed us) (t : Token) : Unclosed (t :: us) := h.append [t]

theorem Unclosed.getLast? {ts : List Token} (h : Unclosed ts) :
    ts.getLast?.map Token.terminal ≠ some (.punct .semi) := by
  obtain ⟨t, ht, hsemi⟩ := h
  rw [Option.mem_def.mp ht]
  exact fun heq => hsemi (Option.some.inj heq)

/-- No expression ends with a `;`. -/
theorem Spells.unclosed {phrase : Phrase} {ts : List Token} (h : Spells located phrase ts) :
    match phrase with
    | .expr _ | .cond _ | .block _ => Unclosed ts
    | _ => True := by
  induction h with
  | literal h | path h | retNone h => exact unclosed_singleton (by simp [h])
  | grouped _ _ hr => exact ((unclosed_singleton (by simp [hr])).append _).cons _
  | unary _ _ _ _ ih | retSome _ _ _ ih | loop _ _ _ ih => exact ih.cons _
  | binary _ _ _ _ _ _ _ ih => exact (ih.cons _).append _
  | call _ _ _ hr => exact (((unclosed_singleton (by simp [hr])).append _).cons _).cons _
  | block _ _ ih | cond _ _ ih => exact ih
  | «while» _ _ _ _ _ _ ih | only _ _ _ _ _ ih => exact (ih.append _).cons _
  | orElse _ _ _ _ _ _ _ _ ih | orIf _ _ _ _ _ _ _ _ ih => exact ((ih.cons _).append _).cons _
  | braced _ _ hr => exact ((unclosed_singleton (by simp [hr])).append _).cons _
  | _ => trivial

/-- What starts like a block ends with one, unless an operator stands behind it. -/
theorem Spells.endsInBlock {e : Expr} {ts : List Token} (h : Spells located (.expr e) ts)
    (he : ∀ power, e.AtLeast power) :
    ∀ t ∈ ts.head?, Nested.startsBlockLike t.terminal = true → e.endsInBlock = true := by
  intro t ht hstart
  cases h with
  | block | loop | «while» | cond => rfl
  | @binary _ _ _ op => exact absurd (he (op.leftPower + 1)) (Nat.not_succ_le_self _)
  | unary hop =>
    cases ht
    cases hterminal : t.terminal with
    | punct p => cases p <;> simp [hterminal, UnaryOp.ofTerminal?, Nested.startsBlockLike] at hop hstart
    | _ => simp [hterminal, UnaryOp.ofTerminal?] at hop
  | literal h | path h | retNone h | retSome h | grouped h | call h =>
    cases ht
    rw [h] at hstart
    cases hstart

end

/-! ## Expressions -/

/-- The expression is printed with parentheses around each operator. -/
abbrev ExprPrints (e : Expr) : Prop := Prints e.print.toList fun ts => Spells False (.expr e.full) ts

abbrev CondPrints (c : Cond) : Prop :=
  Prints c.print.toList fun ts => Spells False (.cond (c.regroup .parenthesize)) ts

abbrev BlockPrints (b : Block) : Prop :=
  Prints b.print.toList fun ts => Spells False (.block (b.regroup .parenthesize)) ts

theorem literal_prints {value : Literal} (h : value.Written) (hfinite : value.isFinite = true) (id : NodeId)
    (span : Span) : ExprPrints (.literal id span value) :=
  ⟨_, .literal h hfinite, .literal rfl False.elim⟩

theorem path_prints {name : Ident} (h : Lexer.IsName name.text) (id : NodeId) (span : Span) :
    ExprPrints (.path id span name) :=
  ⟨_, .name h, .path rfl False.elim⟩

theorem pair?_startsExpr {c d : Char} {p : Punct} (h : Lexer.pair? c d = some p) : startsExpr (.punct p) = false := by
  unfold Lexer.pair? at h
  split at h <;> cases h <;> rfl

/-- A mark that could prolong a sign starts no expression. -/
theorem scan_startsExpr {c : Char} (hc : Lexer.Prolongs c) (b : List Char) :
    ∃ w, (Lexer.scan c b).lexeme.terminal? = some w ∧ startsExpr w = false := by
  have hscan : Lexer.scan c b = Lexer.mark c b := by rcases hc with rfl | rfl <;> rfl
  have hsingle : ∃ w, (Lexer.single c b).lexeme.terminal? = some w ∧ startsExpr w = false := by
    rcases hc with rfl | rfl
    · exact ⟨.punct .eq, rfl, rfl⟩
    · exact ⟨.punct .gt, rfl, rfl⟩
  rw [hscan]
  unfold Lexer.mark
  split
  · split
    · exact ⟨_, rfl, pair?_startsExpr ‹_›⟩
    · exact hsingle
  · exact hsingle

/-- What starts like an expression prolongs no sign in front of it. -/
theorem head_ne_of_startsExpr {b : List Char} {ws : List Terminal} (h : Says b ws)
    (hstart : startsExpr (first (bareTokens ws)) = true) : ∀ c ∈ b.head?, ¬Lexer.Prolongs c := by
  intro c hc hsign
  obtain ⟨b, rfl⟩ := List.head?_eq_some_iff.mp hc
  obtain ⟨ls, hls, -, hws⟩ := h [] apart_nil
  obtain ⟨w, hw, hno⟩ := scan_startsExpr hsign b
  rw [List.append_nil, Lexer.lexemes, Lexer.lexemes, List.append_nil] at hls
  rw [← hls, List.filterMap_cons, hw] at hws
  rw [← hws, bareTokens_cons, first_cons, hno] at hstart
  cases hstart

theorem symbol_says {b : List Char} {vs : List Terminal} (op : UnaryOp) (h : Says b vs)
    (hb : ∀ c ∈ b.head?, ¬Lexer.Prolongs c) :
    ∃ p, UnaryOp.ofTerminal? (.punct p) = some op ∧ Says (op.symbol.toList ++ b) (.punct p :: vs) := by
  cases op with
  | neg => exact ⟨.minus, rfl, .sign (.inl rfl) rfl hb h⟩
  | not => exact ⟨.not, rfl, .sign (.inr rfl) rfl hb h⟩

theorem parenthesize_prints {e : Expr} {text : List Char} (h : Prints text fun ts => Spells False (.expr e) ts) :
    Prints ('(' :: (text ++ [')'])) fun ts => Spells False (.expr e.parenthesize) ts := by
  obtain ⟨ws, hws, he⟩ := h
  refine ⟨_, .mark rfl (by simp) (hws.append (apart_cons (by simp) _) (.mark rfl (by simp) .nil)), ?_⟩
  rw [bareTokens_cons, bareTokens_append]
  exact .grouped rfl he rfl False.elim

theorem unary_prints {op : UnaryOp} {e : Expr} (h : ExprPrints e) (id : NodeId) (span : Span) :
    ExprPrints (.unary id span op e) := by
  obtain ⟨ws, hws, he⟩ := h
  have hrun : ExprRun e.full (bareTokens ws) := he.taken
  obtain ⟨p, hop, hsign⟩ := symbol_says op hws (head_ne_of_startsExpr hws hrun.starts)
  have htext : (Expr.unary id span op e).print.toList = '(' :: (op.symbol.toList ++ e.print.toList ++ [')']) := by
    simp [Expr.print, String.toList_append]
  rw [ExprPrints, htext]
  exact parenthesize_prints ⟨_, hsign, .unary hop he (e.full_atLeast _) False.elim⟩

theorem binary_prints {op : BinaryOp} {lhs rhs : Expr} (hlhs : ExprPrints lhs) (hrhs : ExprPrints rhs)
    (hret : lhs.isReturn = false) (id : NodeId) (span : Span) : ExprPrints (.binary id span op lhs rhs) := by
  obtain ⟨ws, hws, hl⟩ := hlhs
  obtain ⟨vs, hvs, hr⟩ := hrhs
  have htext : (Expr.binary id span op lhs rhs).print.toList = '(' :: (lhs.print.toList ++
      ' ' :: (op.punct.spelling.toList ++ ' ' :: rhs.print.toList) ++ [')']) := by
    simp [Expr.print, BinaryOp.symbol, String.toList_append]
  rw [ExprPrints, htext]
  refine parenthesize_prints ⟨_, hws.spaced ((Says.punct op.punct).spaced hvs), ?_⟩
  rw [bareTokens_append]
  exact .binary hl rfl hr (Expr.full_closedBefore op hret) (rhs.full_atLeast _) False.elim

theorem commas_map {α β : Type} {element : β → List Token → Prop} {f : α → β} {comma last : Bool} {xs : List α}
    {ts : List Token} (h : Commas (fun x => element (f x)) comma (xs, last) ts) :
    Commas element comma (xs.map f, last) ts := by
  generalize hlist : (xs, last) = list at h
  induction h generalizing xs last with
  | nil =>
    cases hlist
    exact .nil
  | last hx =>
    cases hlist
    exact .last hx
  | cons hx hc _ ih =>
    cases hlist
    exact .cons hx hc (ih rfl)

theorem call_prints {callee : Ident} {args : List Expr} (hname : Lexer.IsName callee.text)
    (h : ∀ e ∈ args, ExprPrints e) (id : NodeId) (span : Span) : ExprPrints (.call id span callee args) := by
  have hargs : ∀ e ∈ args, Prints e.print.toList fun ts => Spells False (.expr e.full) ts := h
  obtain ⟨ws, hws, hcommas⟩ := commas_prints hargs
  have htext : (Expr.call id span callee args).print.toList =
      callee.text.toList ++ '(' :: ((commas (args.map Expr.print)).toList ++ [')']) := by
    simp [Expr.print, printArgs_eq, String.toList_append]
  have hspells : Spells False (.args (args.map Expr.full)) (bareTokens ws) :=
    Nested.args_of_commas (commas_map hcommas)
  rw [ExprPrints, htext]
  refine ⟨_, (Says.name hname).append (apart_cons (by simp) _) (.mark rfl (by simp)
    (hws.append (apart_cons (by simp) _) (.mark rfl (by simp) .nil))), ?_⟩
  rw [Expr.full, Expr.regroup, regroupExprs_eq, List.singleton_append, bareTokens_cons, bareTokens_cons,
    bareTokens_append]
  exact .call rfl rfl hspells rfl False.elim

theorem ret_prints {e : Expr} (h : ExprPrints e) (id : NodeId) (span : Span) :
    ExprPrints (.ret id span (some e)) := by
  obtain ⟨ws, hws, he⟩ := h
  have htext : (Expr.ret id span (some e)).print.toList = Keyword.return.spelling.toList ++ ' ' :: e.print.toList := by
    simp [Expr.print, Keyword.spelling, String.toList_append]
  rw [ExprPrints, htext]
  exact ⟨_, (Says.keyword .return).spaced hws, .retSome rfl he False.elim⟩

theorem block_prints {b : Block} (h : BlockPrints b) (id : NodeId) (span : Span) :
    ExprPrints (.block id span b) := by
  obtain ⟨ws, hws, hb⟩ := h
  exact ⟨ws, hws, .block hb False.elim⟩

theorem loop_prints {b : Block} (h : BlockPrints b) (id : NodeId) (span : Span) :
    ExprPrints (.loop id span b) := by
  obtain ⟨ws, hws, hb⟩ := h
  have htext : (Expr.loop id span b).print.toList = Keyword.loop.spelling.toList ++ ' ' :: b.print.toList := by
    simp [Expr.print, Keyword.spelling, String.toList_append]
  rw [ExprPrints, htext]
  exact ⟨_, (Says.keyword .loop).spaced hws, .loop rfl hb False.elim⟩

theorem while_prints {cond : Expr} {b : Block} (hcond : ExprPrints cond) (hopens : cond.opensBare = false)
    (hb : BlockPrints b) (id : NodeId) (span : Span) : ExprPrints (.while id span cond b) := by
  obtain ⟨ws, hws, hc⟩ := hcond
  obtain ⟨vs, hvs, hb⟩ := hb
  have htext : (Expr.while id span cond b).print.toList =
      Keyword.while.spelling.toList ++ ' ' :: (cond.print.toList ++ ' ' :: b.print.toList) := by
    simp [Expr.print, Keyword.spelling, String.toList_append]
  rw [ExprPrints, htext]
  refine ⟨_, (Says.keyword .while).spaced (hws.spaced hvs), ?_⟩
  simp only [List.singleton_append, bareTokens_cons, bareTokens_append]
  exact .while rfl hc (Expr.full_opensBlock hopens) hb False.elim

theorem only_prints {cond : Expr} {yes : Block} (hcond : ExprPrints cond) (hopens : cond.opensBare = false)
    (hyes : BlockPrints yes) : CondPrints (.only cond yes) := by
  obtain ⟨ws, hws, hc⟩ := hcond
  obtain ⟨vs, hvs, hy⟩ := hyes
  have htext : (Cond.only cond yes).print.toList =
      Keyword.if.spelling.toList ++ ' ' :: (cond.print.toList ++ ' ' :: yes.print.toList) := by
    simp [Cond.print, Keyword.spelling, String.toList_append]
  rw [CondPrints, htext]
  refine ⟨_, (Says.keyword .if).spaced (hws.spaced hvs), ?_⟩
  simp only [List.singleton_append, bareTokens_cons, bareTokens_append]
  exact .only rfl hc (Expr.full_opensBlock hopens) hy

theorem ifElse_says {a b c : List Char} {ws vs us : List Terminal} (ha : Says a ws) (hb : Says b vs) (hc : Says c us) :
    Says (Keyword.if.spelling.toList ++ ' ' :: (a ++ ' ' :: (b ++
      ' ' :: (Keyword.else.spelling.toList ++ ' ' :: c)))) (.keyword .if :: (ws ++ vs ++ .keyword .else :: us)) := by
  rw [List.append_assoc]
  exact (Says.keyword .if).spaced (ha.spaced (hb.spaced ((Says.keyword .else).spaced hc)))

theorem orElse_prints {cond : Expr} {yes no : Block} (hcond : ExprPrints cond) (hopens : cond.opensBare = false)
    (hyes : BlockPrints yes) (hno : BlockPrints no) : CondPrints (.orElse cond yes no) := by
  obtain ⟨ws, hws, hc⟩ := hcond
  obtain ⟨vs, hvs, hy⟩ := hyes
  obtain ⟨us, hus, hn⟩ := hno
  have htext : (Cond.orElse cond yes no).print.toList = Keyword.if.spelling.toList ++ ' ' :: (cond.print.toList ++
      ' ' :: (yes.print.toList ++ ' ' :: (Keyword.else.spelling.toList ++ ' ' :: no.print.toList))) := by
    simp [Cond.print, Keyword.spelling, String.toList_append]
  rw [CondPrints, htext]
  refine ⟨_, ifElse_says hws hvs hus, ?_⟩
  simp only [bareTokens_cons, bareTokens_append]
  exact .orElse rfl hc (Expr.full_opensBlock hopens) hy rfl hn

theorem orIf_prints {cond : Expr} {yes : Block} {no : Cond} (hcond : ExprPrints cond)
    (hopens : cond.opensBare = false) (hyes : BlockPrints yes) (hno : CondPrints no) :
    CondPrints (.orIf cond yes no) := by
  obtain ⟨ws, hws, hc⟩ := hcond
  obtain ⟨vs, hvs, hy⟩ := hyes
  obtain ⟨us, hus, hn⟩ := hno
  have htext : (Cond.orIf cond yes no).print.toList = Keyword.if.spelling.toList ++ ' ' :: (cond.print.toList ++
      ' ' :: (yes.print.toList ++ ' ' :: (Keyword.else.spelling.toList ++ ' ' :: no.print.toList))) := by
    simp [Cond.print, Keyword.spelling, String.toList_append]
  rw [CondPrints, htext]
  refine ⟨_, ifElse_says hws hvs hus, ?_⟩
  simp only [bareTokens_cons, bareTokens_append]
  exact .orIf rfl hc (Expr.full_opensBlock hopens) hy rfl hn

/-! ## Statements and items -/

abbrev StmtPrints (s : Stmt) : Prop :=
  Prints s.print.toList fun ts => Spells False (.stmt (s.regroup .parenthesize)) ts

abbrev ItemPrints (i : Item) : Prop :=
  Prints i.print.toList fun ts => Spells False (.item (i.regroup .parenthesize)) ts

theorem bind_prints {name : Ident} {type : Option Ty} {init : Expr} (hname : Lexer.IsName name.text)
    (htype : ∀ t ∈ type, TypePrints t) (h : ExprPrints init) (id : NodeId) (span : Span) :
    StmtPrints (.bind id span name type init) := by
  obtain ⟨ws, hws, hinit⟩ := h
  have hvalue : Says (Punct.eq.spelling.toList ++ ' ' :: (init.print.toList ++ [';']))
      (.punct .eq :: (ws ++ [.punct .semi])) :=
    (Says.punct .eq).spaced (hws.append (apart_cons (by simp) _) (.mark rfl (by simp) .nil))
  cases type with
  | none =>
    have htext : (Stmt.bind id span name none init).print.toList = Keyword.let.spelling.toList ++ ' ' ::
        (name.text.toList ++ ' ' :: (Punct.eq.spelling.toList ++ ' ' :: (init.print.toList ++ [';']))) := by
      simp [Stmt.print, Keyword.spelling, Punct.spelling, String.toList_append]
    rw [StmtPrints, htext]
    refine ⟨_, (Says.keyword .let).spaced ((Says.name hname).spaced hvalue), ?_⟩
    simp only [List.singleton_append, bareTokens_cons, bareTokens_append]
    exact .bind rfl (.inl rfl) rfl (.inl ⟨rfl, rfl⟩) rfl hinit rfl
  | some t =>
    obtain ⟨vs, hvs, ht⟩ := htype t rfl
    have htext : (Stmt.bind id span name (some t) init).print.toList = Keyword.let.spelling.toList ++ ' ' ::
        (name.text.toList ++ ':' :: ' ' :: (t.display.toList ++
          ' ' :: (Punct.eq.spelling.toList ++ ' ' :: (init.print.toList ++ [';'])))) := by
      simp [Stmt.print, Keyword.spelling, Punct.spelling, String.toList_append]
    rw [StmtPrints, htext]
    refine ⟨_, (Says.keyword .let).spaced ((Says.name hname).append (apart_cons (by simp) _)
      (.mark rfl (by simp) (.blank rfl (hvs.spaced hvalue)))), ?_⟩
    simp only [List.singleton_append, bareTokens_cons, bareTokens_append]
    exact .bind rfl (.inl rfl) rfl (.inr ⟨t, ⟨.punct .colon, default⟩, _, rfl, rfl, ht, rfl⟩) rfl hinit rfl

theorem expr_prints {e : Expr} (h : ExprPrints e) (span : Span) (semi : Bool) : StmtPrints (.expr span e semi) := by
  obtain ⟨ws, hws, he⟩ := h
  have hstart := he.endsInBlock e.full_atLeast
  cases semi with
  | false =>
    have htext : (Stmt.expr span e false).print.toList = e.print.toList := by simp [Stmt.print]
    rw [StmtPrints, htext]
    exact ⟨ws, hws, .exprStmt he hstart⟩
  | true =>
    have htext : (Stmt.expr span e true).print.toList = e.print.toList ++ [';'] := by
      simp [Stmt.print, String.toList_append]
    rw [StmtPrints, htext]
    refine ⟨_, hws.append (apart_cons (by simp) _) (.mark rfl (by simp) .nil), ?_⟩
    rw [bareTokens_append]
    exact .semiStmt he hstart rfl

theorem function_prints {h : Header} {body : Block} (hh : Prints h.print.toList (HeaderSpelled h))
    (hbody : BlockPrints body) : ItemPrints (.function h body) := by
  obtain ⟨ws, hws, hh⟩ := hh
  obtain ⟨vs, hvs, hb⟩ := hbody
  have htext : (Item.function h body).print.toList = h.print.toList ++ ' ' :: body.print.toList := by
    simp [Item.print, String.toList_append]
  rw [ItemPrints, htext]
  refine ⟨_, hws.spaced hvs, ?_⟩
  rw [bareTokens_append]
  exact .function hh hb

theorem foreign_prints {abi : String} {hs : List Header} (habi : (Literal.text abi).Written)
    (h : Prints (String.join (hs.map fun h => " " ++ h.print ++ ";")).toList (HeadersSpelled hs)) (span : Span) :
    ItemPrints (.foreign span abi hs) := by
  obtain ⟨ws, hws, hs'⟩ := h
  have htext : (Item.foreign span abi hs).print.toList = Keyword.foreign.spelling.toList ++ ' ' ::
      (("\"" ++ abi ++ "\"").toList ++ ' ' :: '\x7b' ::
        ((String.join (hs.map fun h => " " ++ h.print ++ ";")).toList ++ ' ' :: ['\x7d'])) := by
    simp [Item.print, Keyword.spelling, String.toList_append]
  rw [ItemPrints, htext]
  refine ⟨_, (Says.keyword .foreign).spaced ((Says.string habi).spaced (.mark rfl (by simp)
    (hws.spaced (.mark rfl (by simp) .nil)))), ?_⟩
  simp only [List.singleton_append, bareTokens_cons, bareTokens_append]
  exact .foreign rfl (.inr ⟨⟨.literal (.text abi), default⟩, rfl, rfl⟩) rfl hs' rfl

/-! ## Blocks -/

/-- The statement may stand in front of others: it ends with a block, or a `;` ends it. -/
def Finished : Stmt → Prop
  | .expr _ e false => e.endsInBlock = true
  | _ => True

theorem Finished.endsBefore {s : Stmt} {us : List Token} (h : Finished s)
    (hus : us.head?.map Token.terminal ≠ some (.punct .semi)) :
    (s.regroup .parenthesize).EndsBefore us := by
  match s, h with
  | .bind .., _ => trivial
  | .expr _ _ true, _ => trivial
  | .expr _ e false, h => exact ⟨hus, fun hno => absurd (Expr.full_endsInBlock h) (by simp [hno])⟩

/-- What a block with the tail holds at its end: it goes on with no `;` and, where there is a tail, ends
with none. -/
structure EndSpelled (tail : Option Expr) (es : List Entry) (ts : List Token) : Prop where
  spells : Spells False (.entries es) ts
  first : ts.head?.map Token.terminal ≠ some (.punct .semi)
  unclosed : tail.isSome = true → Unclosed ts

def itemEntry (i : Item) : Entry := .item (i.regroup .parenthesize)

def stmtEntry (s : Stmt) : Entry := .stmt (s.regroup .parenthesize)

/-- The value of a block is the statement at its end. -/
def tailEntries (tail : Option Expr) : List Entry := tail.toList.map fun e => stmtEntry (.expr default e false)

def printTail (tail : Option Expr) : String := tail.elim "" fun e => " " ++ e.print

theorem head?_ne_semi {ts : List Token} (hsemi : first ts ≠ .punct .semi) (hend : first ts ≠ .endOfInput)
    (us : List Token) : (ts ++ us).head?.map Token.terminal ≠ some (.punct .semi) := by
  cases ts with
  | nil => exact absurd rfl hend
  | cons t ts => exact fun heq => hsemi (Option.some.inj heq)

theorem StmtRun.head?_ne_semi {s : Stmt} {ts : List Token} (h : StmtRun s ts) (us : List Token) :
    (ts ++ us).head?.map Token.terminal ≠ some (.punct .semi) :=
  Parse.head?_ne_semi (h.starts.ne (by simp) rfl) h.starts.ne_end us

theorem ItemRun.head?_ne_semi {i : Item} {ts : List Token} (h : ItemRun i ts) (us : List Token) :
    (ts ++ us).head?.map Token.terminal ≠ some (.punct .semi) :=
  Parse.head?_ne_semi (by rcases h.starts with hfirst | hfirst <;> simp [hfirst]) h.ne_end us

theorem tail_prints {tail : Option Expr} (h : ∀ e ∈ tail, ExprPrints e) :
    Prints (printTail tail).toList (EndSpelled tail (tailEntries tail)) := by
  cases tail with
  | none => exact ⟨[], .nil, .entriesNil, by simp, by simp⟩
  | some e =>
    obtain ⟨ws, hws, he⟩ := h e rfl
    have hstmt : Spells False (.stmt (.expr default e.full false)) (bareTokens ws) :=
      .exprStmt he (he.endsInBlock e.full_atLeast)
    have hrun : StmtRun (.expr default e.full false) (bareTokens ws) := hstmt.taken
    have htext : (printTail (some e)).toList = ' ' :: e.print.toList := by simp [printTail, String.toList_append]
    have hends : Stmt.EndsBefore [] (.expr default e.full false) := ⟨by simp, fun _ => rfl⟩
    have hentries := Spells.entriesStmt hstmt hends .entriesNil
    have hfirst := hrun.head?_ne_semi []
    rw [List.append_nil] at hentries hfirst
    rw [htext]
    exact ⟨_, .blank rfl hws, hentries, hfirst, fun _ => he.unclosed⟩

theorem stmts_prints {ss : List Stmt} (h : ∀ s ∈ ss, StmtPrints s) (hfinished : ∀ s ∈ ss, Finished s)
    {tail : Option Expr} {es : List Entry} {back : List Char} (hback : Prints back (EndSpelled tail es))
    (hapart : Apart back) :
    Apart ((printStmts ss).toList ++ back) ∧
      Prints ((printStmts ss).toList ++ back) (EndSpelled tail (ss.map stmtEntry ++ es)) := by
  induction ss with
  | nil => exact ⟨hapart, hback⟩
  | cons s ss ih =>
    rw [List.forall_mem_cons] at h hfinished
    obtain ⟨hrest, vs, hvs, hes⟩ := ih h.2 hfinished.2
    obtain ⟨ws, hws, hs⟩ := h.1
    have htext : (printStmts (s :: ss)).toList ++ back =
        ' ' :: (s.print.toList ++ ((printStmts ss).toList ++ back)) := by
      simp [printStmts, String.toList_append]
    rw [htext]
    refine ⟨apart_cons (by simp) _, _, .blank rfl (hws.append hrest hvs), ?_⟩
    rw [bareTokens_append]
    exact {
      spells := .entriesStmt hs (hfinished.1.endsBefore hes.first) hes.spells
      first := hs.taken.head?_ne_semi _
      unclosed := fun htail => (hes.unclosed htail).append _ }

theorem items_prints {is : List Item} (h : ∀ i ∈ is, ItemPrints i)
    {tail : Option Expr} {es : List Entry} {back : List Char} (hback : Prints back (EndSpelled tail es))
    (hapart : Apart back) :
    Apart ((printItems is).toList ++ back) ∧
      Prints ((printItems is).toList ++ back) (EndSpelled tail (is.map itemEntry ++ es)) := by
  induction is with
  | nil => exact ⟨hapart, hback⟩
  | cons i is ih =>
    rw [List.forall_mem_cons] at h
    obtain ⟨hrest, vs, hvs, hes⟩ := ih h.2
    obtain ⟨ws, hws, hi⟩ := h.1
    have htext : (printItems (i :: is)).toList ++ back =
        ' ' :: (i.print.toList ++ ((printItems is).toList ++ back)) := by
      simp [printItems, String.toList_append]
    rw [htext]
    refine ⟨apart_cons (by simp) _, _, .blank rfl (hws.append hrest hvs), ?_⟩
    rw [bareTokens_append]
    exact {
      spells := .entriesItem hi hes.spells
      first := hi.taken.head?_ne_semi _
      unclosed := fun htail => (hes.unclosed htail).append _ }

/-- A block has its last expression for a value, or all its statements are such. -/
theorem blockOf_cases (id : NodeId) (span : Span) (es : List Entry) (ts : List Token) :
    (∃ front place e, es = front ++ [.stmt (.expr place e false)] ∧
      blockOf id span es ts = .mk id span (front.filterMap Entry.item?) (front.filterMap Entry.stmt?) (some e)) ∨
    blockOf id span es ts = .mk id span (es.filterMap Entry.item?) (es.filterMap Entry.stmt?) none := by
  unfold blockOf
  cases htail : Nested.tail? es (ts.getLast?.map Token.terminal = some (.punct .semi)) with
  | none => exact .inr rfl
  | some e =>
    unfold Nested.tail? at htail
    split at htail
    · rename_i place value hlast
      split at htail
      · cases htail
      · cases htail
        obtain ⟨front, rfl⟩ := List.getLast?_eq_some_iff.mp hlast
        exact .inl ⟨front, place, e, rfl, by simp [List.filterMap_append, Entry.item?, Entry.stmt?]⟩
    · cases htail

theorem blockOf_tail (id : NodeId) (span place : Span) (es : List Entry) (e : Expr) {ts : List Token}
    (h : Unclosed ts) : blockOf id span (es ++ [.stmt (.expr place e false)]) ts =
      .mk id span (es.filterMap Entry.item?) (es.filterMap Entry.stmt?) (some e) := by
  simp [blockOf, Nested.tail?, h.getLast?, Entry.item?, Entry.stmt?]

theorem blockOf_none (id : NodeId) (span : Span) {es : List Entry} (ts : List Token)
    (h : ∀ place e, es.getLast? ≠ some (.stmt (.expr place e false))) :
    blockOf id span es ts = .mk id span (es.filterMap Entry.item?) (es.filterMap Entry.stmt?) none := by
  have htail : ∀ b, Nested.tail? es b = none := by
    intro b
    unfold Nested.tail?
    split
    · exact absurd ‹_› (h _ _)
    · rfl
  simp [blockOf, htail]

theorem filterMap_entries (is : List Item) (ss : List Stmt) :
    (is.map itemEntry ++ ss.map stmtEntry).filterMap Entry.item? = is.map (Item.regroup .parenthesize) ∧
      (is.map itemEntry ++ ss.map stmtEntry).filterMap Entry.stmt? = ss.map (Stmt.regroup .parenthesize) := by
  simp [List.filterMap_append, List.filterMap_map, Function.comp_def, itemEntry, stmtEntry, Entry.item?, Entry.stmt?]

/-- With a `;` at the end of its statements a block has no value. -/
theorem getLast?_entries {is : List Item} {ss : List Stmt} (h : ss.getLast?.all Stmt.closed = true) (place : Span)
    (e : Expr) : (is.map itemEntry ++ ss.map stmtEntry).getLast? ≠ some (.stmt (.expr place e false)) := by
  intro hlast
  rcases List.eq_nil_or_concat' ss with rfl | ⟨ss, s, rfl⟩
  · rw [List.map_nil, List.append_nil] at hlast
    obtain ⟨i, -, hi⟩ := List.mem_map.mp (List.mem_of_getLast? hlast)
    cases hi
  · rw [List.map_append, ← List.append_assoc, List.map_singleton, List.getLast?_concat] at hlast
    rw [List.getLast?_concat] at h
    cases s with
    | bind => cases hlast
    | expr _ _ semi =>
      cases h
      cases hlast

theorem apart_printTail (tail : Option Expr) : Apart (printTail tail).toList := by
  cases tail with
  | none => exact apart_nil
  | some e =>
    rw [printTail, Option.elim, String.toList_append]
    exact (apart_cons (by simp) _ : Apart (' ' :: _))

theorem braced_prints {id : NodeId} {span : Span} {items : List Item} {stmts : List Stmt} {tail : Option Expr}
    (hitems : ∀ i ∈ items, ItemPrints i) (hstmts : ∀ s ∈ stmts, StmtPrints s) (hfinished : ∀ s ∈ stmts, Finished s)
    (htail : ∀ e ∈ tail, ExprPrints e) (hlast : tail.isSome = true ∨ stmts.getLast?.all Stmt.closed = true) :
    BlockPrints (.mk id span items stmts tail) := by
  obtain ⟨hapart, hstmts⟩ := stmts_prints hstmts hfinished (tail_prints htail) (apart_printTail tail)
  obtain ⟨-, ws, hws, hes⟩ := items_prints hitems hstmts hapart
  have htext : (Block.mk id span items stmts tail).print.toList = '\x7b' :: ((printItems items).toList ++
      ((printStmts stmts).toList ++ (printTail tail).toList) ++ ' ' :: ['\x7d']) := by
    cases tail <;> simp [Block.print, printTail, String.toList_append]
  rw [BlockPrints, htext]
  refine ⟨_, .mark rfl (by simp) (hws.spaced (.mark rfl (by simp) .nil)), ?_⟩
  rw [bareTokens_cons, bareTokens_append]
  have hblock : Spells False (.block (blockOf id span _ _)) _ :=
    .braced (l := ⟨.punct .lbrace, default⟩) (r := ⟨.punct .rbrace, default⟩) rfl hes.spells rfl
  obtain ⟨hitem, hstmt⟩ := filterMap_entries items stmts
  cases tail with
  | none =>
    rw [tailEntries, Option.toList_none, List.map_nil, List.append_nil,
      blockOf_none _ _ _ (getLast?_entries (by simpa using hlast)), hitem, hstmt] at hblock
    simpa [Block.regroup] using hblock
  | some e =>
    have hunclosed := (hes.unclosed rfl).cons ⟨.punct .lbrace, default⟩
    simp only [tailEntries, Option.toList_some, List.map_singleton, ← List.append_assoc, stmtEntry] at hblock
    rw [Stmt.regroup, blockOf_tail _ _ _ _ _ hunclosed, hitem, hstmt] at hblock
    simpa [Block.regroup] using hblock

end Parse
end Ferrite
