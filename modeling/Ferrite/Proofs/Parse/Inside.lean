import Ferrite.Proofs.Parse.Grammar
import Ferrite.Proofs.Tree.Parts

/-!
The expressions inside a phrase: each is spelled by some of the tokens of the phrase, one behind the
other, and its place goes from the first of them to the last.
-/

namespace Ferrite.Parse

/-! ## Their tokens -/

/-- Neither the end of input nor a point. No phrase holds one of these. -/
def usual : Terminal → Bool
  | .endOfInput | .punct .dot => false
  | _ => true

@[simp] theorem usual_punct (p : Punct) : usual (.punct p) = decide (p ≠ .dot) := by
  cases p <;> rfl

@[simp] theorem punct_ne_dot (op : BinaryOp) : op.punct ≠ .dot := by
  cases op <;> decide

theorem usual_of_unary {t : Terminal} {op : UnaryOp} (h : UnaryOp.ofTerminal? t = some op) : usual t = true := by
  cases t with
  | punct p =>
    cases p with
    | minus | not => rfl
    | _ => cases h
  | _ => cases h

def Usual (ts : List Token) : Prop := ∀ t ∈ ts, usual t.terminal = true

@[simp] theorem Usual.nil : Usual [] := by simp [Usual]

@[simp] theorem usual_cons {t : Token} {ts : List Token} :
    Usual (t :: ts) ↔ usual t.terminal = true ∧ Usual ts := by simp [Usual]

@[simp] theorem usual_append {ts us : List Token} : Usual (ts ++ us) ↔ Usual ts ∧ Usual us := by
  simp only [Usual, List.mem_append, or_imp, forall_and]

theorem TypeSpelled.usual {phrase : TypePhrase} {ts : List Token} (h : TypeSpelled phrase ts) : Usual ts := by
  induction h with
  | name h | never h => simp [h, Parse.usual]
  | tuple hl _ hr ih => simp [hl, hr, ih]
  | function hf hl _ hr _ ih ih' => simp [hf, hl, hr, ih, ih', Parse.usual]
  | noResult | nil => simp
  | result ha _ ih => simp [ha, ih]
  | last _ ih => exact ih
  | cons _ hc _ ih ih' => simp [hc, ih, ih']

theorem Perhaps.usual {k : Keyword} {ts : List Token} (h : Perhaps k ts) : Usual ts := by
  rcases h with rfl | ⟨t, ht, rfl⟩
  · simp
  · simp [ht, Parse.usual]

theorem Commas.usual {α : Type} {element : α → List Token → Prop} (h : ∀ x ts, element x ts → Usual ts)
    {comma : Bool} {list : List α × Bool} {ts : List Token} (hs : Commas element comma list ts) : Usual ts := by
  induction hs with
  | nil => simp
  | last hx => exact h _ _ hx
  | cons hx hc _ ih => simp [h _ _ hx, hc, ih]

theorem ParamSpelled.usual {p : Ident × Ty} {ts : List Token} (h : ParamSpelled p ts) : Usual ts := by
  cases h with
  | mk hmut hn hc h => simp [hmut.usual, hn, hc, h.usual, Parse.usual]

theorem HeaderSpelled.usual {h : Header} {ts : List Token} (hh : HeaderSpelled h ts) : Usual ts := by
  cases hh with
  | mk hf hn hl hparams hr hresult =>
    simp [hf, hn, hl, hparams.usual fun _ _ => ParamSpelled.usual, hr, hresult.usual, Parse.usual]

theorem HeadersSpelled.usual {hs : List Header} {ts : List Token} (h : HeadersSpelled hs ts) : Usual ts := by
  induction h with
  | nil => simp
  | cons hh hsemi _ ih => simp [hh.usual, hsemi, ih]

theorem Spells.usual {located : Prop} {phrase : Phrase} {ts : List Token} (h : Spells located phrase ts) :
    Usual ts := by
  induction h with
  | literal h | path h | retNone h => simp [h, Parse.usual]
  | grouped hl _ hr _ ih => simp [hl, hr, ih]
  | unary ht _ _ _ ih => simp [usual_of_unary ht, ih]
  | binary _ ht _ _ _ _ ihl ihr => simp [ihl, ht, ihr]
  | call hn hl _ hr _ ih => simp [hn, hl, hr, ih, Parse.usual]
  | retSome ht _ _ ih | loop ht _ _ ih => simp [ht, ih, Parse.usual]
  | block _ _ ih | cond _ _ ih | argsLast _ ih | exprStmt _ _ ih => exact ih
  | «while» ht _ _ _ _ ihc ihb => simp [ht, ihc, ihb, Parse.usual]
  | argsNil | entriesNil => simp
  | argsCons _ hc _ ih ihs => simp [ih, hc, ihs]
  | only ht _ _ _ ihc ihy => simp [ht, ihc, ihy, Parse.usual]
  | orElse ht _ _ _ he _ ihc ihy ihn | orIf ht _ _ _ he _ ihc ihy ihn =>
    simp [ht, ihc, ihy, he, ihn, Parse.usual]
  | braced hl _ hr ih => simp [hl, hr, ih]
  | entriesSemi ht _ ih => simp [ht, ih]
  | entriesItem _ _ ih ihs | entriesStmt _ _ _ ih ihs => simp [ih, ihs]
  | bind ht hmut hn htype hq _ hsemi ih =>
    rcases htype with ⟨-, rfl⟩ | ⟨ty, c, us, -, hc, hty, rfl⟩
    · simp [ht, hmut.usual, hn, hq, ih, hsemi, Parse.usual]
    · simp [ht, hmut.usual, hn, hc, hty.usual, hq, ih, hsemi, Parse.usual]
  | semiStmt _ _ hsemi ih => simp [ih, hsemi]
  | function hh _ ih => simp [hh.usual, ih]
  | «foreign» ht habi hl h hr =>
    rcases habi with ⟨rfl, -⟩ | ⟨a, ha, rfl⟩
    · simp [ht, hl, h.usual, hr, Parse.usual]
    · simp [ht, ha, hl, h.usual, hr, Parse.usual]

theorem ItemsSpelled.usual {located : Prop} {is : List Item} {ts : List Token}
    (h : ItemsSpelled located is ts) : Usual ts := by
  induction h with
  | nil => simp
  | cons h _ ih => simp [h.usual, ih]

/-! ## Their expressions -/

def Entry.node : Entry → Node
  | .item i => .item i
  | .stmt s => .stmt s

/-- The nodes right inside a phrase. -/
def Phrase.parts : Phrase → List Node
  | .expr e => Node.parts (.expr e)
  | .args es => es.map .expr
  | .cond c => c.parts
  | .block b => Node.parts (.block b)
  | .entries es => es.map Entry.node
  | .stmt s => Node.parts (.stmt s)
  | .item i => Node.parts (.item i)

/-- The expression stands somewhere in one of the nodes. -/
def Inside (e : Expr) (ns : List Node) : Prop := ∃ n ∈ ns, .expr e ∈ n.nodes

@[simp] theorem not_inside_nil {e : Expr} : ¬Inside e [] := by simp [Inside]

@[simp] theorem inside_cons {e : Expr} {n : Node} {ns : List Node} :
    Inside e (n :: ns) ↔ (Node.expr e = n ∨ Inside e n.parts) ∨ Inside e ns := by
  simp only [Inside, List.mem_cons, exists_eq_or_imp, n.mem_nodes_iff]

@[simp] theorem inside_append {e : Expr} {ns ms : List Node} :
    Inside e (ns ++ ms) ↔ Inside e ns ∨ Inside e ms := by
  simp only [Inside, List.mem_append, or_and_right, exists_or]

theorem item_mem_entries {i : Item} {es : List Entry} (h : i ∈ es.filterMap Entry.item?) : .item i ∈ es := by
  obtain ⟨entry, hentry, hitem⟩ := List.mem_filterMap.mp h
  cases entry with
  | item => exact Option.some.inj hitem ▸ hentry
  | stmt => cases hitem

theorem stmt_mem_entries {st : Stmt} {es : List Entry} (h : st ∈ es.filterMap Entry.stmt?) : .stmt st ∈ es := by
  obtain ⟨entry, hentry, hstmt⟩ := List.mem_filterMap.mp h
  cases entry with
  | item => cases hstmt
  | stmt => exact Option.some.inj hstmt ▸ hentry

/-- The statements of a block are among its entries, whether or not the last one is its value. -/
theorem kept_mem_entries {st : Stmt} {es : List Entry} {valued : Bool}
    (h : st ∈ if valued then (es.filterMap Entry.stmt?).dropLast else es.filterMap Entry.stmt?) : .stmt st ∈ es := by
  refine stmt_mem_entries ?_
  split at h
  · exact List.dropLast_subset _ h
  · exact h

/-- The value of a block is an expression among its entries. -/
theorem mem_of_tail? {es : List Entry} {semi : Bool} {e : Expr} (h : Nested.tail? es semi = some e) :
    ∃ place, .stmt (.expr place e false) ∈ es := by
  unfold Nested.tail? at h
  split at h
  · rename_i place e' hlast
    split at h
    · cases h
    · cases h
      exact ⟨place, List.mem_of_getLast? hlast⟩
  · cases h

/-- What a block holds are its entries; its tail was read as a statement. -/
theorem part_of_entries {id : NodeId} {span : Span} {es : List Entry} {semi : Bool} {n : Node}
    (h : n ∈ Node.parts (.block (.mk id span (es.filterMap Entry.item?)
      (if (Nested.tail? es semi).isSome then (es.filterMap Entry.stmt?).dropLast else es.filterMap Entry.stmt?)
      (Nested.tail? es semi)))) : ∃ entry ∈ es, n = entry.node ∨ n ∈ entry.node.parts := by
  simp only [Node.parts, Block.items, Block.stmts, Block.tail, List.mem_append, List.mem_map,
    Option.mem_toList] at h
  rcases h with (⟨i, hi, rfl⟩ | ⟨st, hst, rfl⟩) | ⟨e, he, rfl⟩
  · exact ⟨.item i, item_mem_entries hi, .inl rfl⟩
  · exact ⟨.stmt st, kept_mem_entries hst, .inl rfl⟩
  · obtain ⟨place, hmem⟩ := mem_of_tail? he
    exact ⟨_, hmem, .inr (List.mem_singleton.mpr rfl)⟩

theorem inside_blockOf {e : Expr} {id : NodeId} {span : Span} {es : List Entry} {ts : List Token}
    (h : Inside e (Node.parts (.block (blockOf id span es ts)))) : Inside e (es.map Entry.node) := by
  obtain ⟨n, hn, he⟩ := h
  obtain ⟨entry, hentry, hn⟩ := part_of_entries hn
  refine ⟨entry.node, List.mem_map_of_mem hentry, ?_⟩
  rcases hn with rfl | hn
  · exact he
  · exact Node.mem_nodes_iff.mpr (.inr ⟨n, hn, he⟩)

/-- The expression is spelled by some of the tokens. -/
def SpelledIn (located : Prop) (ts : List Token) (e : Expr) : Prop :=
  ∃ us, us <:+: ts ∧ Spells located (.expr e) us

section

variable {located : Prop} {e x : Expr} {ts us vs : List Token}

theorem SpelledIn.mono (h : SpelledIn located ts e) (hts : ts <:+: us) : SpelledIn located us e := by
  obtain ⟨vs, hvs, he⟩ := h
  exact ⟨vs, hvs.trans hts, he⟩

theorem spelledIn_expr (h : Spells located (.expr x) ts)
    (ih : ∀ e, Inside e (Node.parts (.expr x)) → SpelledIn located ts e) (he : Inside e [.expr x]) :
    SpelledIn located ts e := by
  rcases inside_cons.mp he with (heq | hin) | hnil
  · cases heq
    exact ⟨ts, List.infix_rfl, h⟩
  · exact ih e hin
  · exact (not_inside_nil hnil).elim

theorem spelledIn_block {b : Block} (ih : ∀ e, Inside e (Node.parts (.block b)) → SpelledIn located ts e)
    (he : Inside e [.block b]) : SpelledIn located ts e := by
  rcases inside_cons.mp he with (heq | hin) | hnil
  · cases heq
  · exact ih e hin
  · exact (not_inside_nil hnil).elim

/-- The expressions inside what is spelled are spelled. -/
theorem Spells.inside {phrase : Phrase} (h : Spells located phrase ts) :
    ∀ e, Inside e phrase.parts → SpelledIn located ts e := by
  induction h with
  | literal | path | retNone | argsNil | entriesNil => exact fun e he => (not_inside_nil he).elim
  | @grouped l r _ _ _ ts _ h _ _ ih =>
    exact fun e he => (spelledIn_expr h ih he).mono (List.infix_append' [l] ts [r])
  | unary _ h _ _ ih | retSome _ h _ ih =>
    exact fun e he => (spelledIn_expr h ih he).mono (List.suffix_cons _ _).isInfix
  | @binary t _ _ _ _ _ ts us hl _ hr _ _ _ ihl ihr =>
    intro e he
    rcases inside_append.mp (show Inside e ([.expr _] ++ [.expr _]) from he) with he | he
    · exact (spelledIn_expr hl ihl he).mono (List.prefix_append _ _).isInfix
    · exact (spelledIn_expr hr ihr he).mono ⟨ts ++ [t], [], by simp⟩
  | @call n l r _ _ _ _ ts _ _ _ _ _ ih =>
    exact fun e he => (ih e he).mono (List.infix_append' [n, l] ts [r])
  | block _ _ ih => exact fun e he => spelledIn_block ih he
  | loop _ _ _ ih => exact fun e he => (spelledIn_block ih he).mono (List.suffix_cons _ _).isInfix
  | @«while» t _ _ _ _ ts us _ hcond _ _ _ ihc ihb =>
    intro e he
    rcases inside_append.mp (show Inside e ([.expr _] ++ [.block _]) from he) with he | he
    · exact (spelledIn_expr hcond ihc he).mono (List.infix_append' [t] ts us)
    · exact (spelledIn_block ihb he).mono (List.suffix_append (t :: ts) us).isInfix
  | cond _ _ ih => exact ih
  | argsLast h ih => exact fun e he => spelledIn_expr h ih he
  | @argsCons _ _ c ts us h _ _ ih ihs =>
    intro e he
    rcases inside_append.mp (show Inside e ([.expr _] ++ _) from he) with he | he
    · exact (spelledIn_expr h ih he).mono (List.prefix_append _ _).isInfix
    · exact (ihs e he).mono ⟨ts ++ [c], [], by simp⟩
  | @only t _ _ ts us _ hcond _ _ ihc ihy =>
    intro e he
    rcases inside_append.mp (show Inside e ([.expr _] ++ [.block _]) from he) with he | he
    · exact (spelledIn_expr hcond ihc he).mono (List.infix_append' [t] ts us)
    · exact (spelledIn_block ihy he).mono (List.suffix_append (t :: ts) us).isInfix
  | @orElse t k cond yes no ts us vs _ hcond _ _ _ _ ihc ihy ihn =>
    intro e he
    rcases inside_append.mp (show Inside e ([.expr _] ++ ([.block _] ++ [.block _])) from he) with he | he
    · exact (spelledIn_expr hcond ihc he).mono ⟨[t], us ++ k :: vs, by simp⟩
    · rcases inside_append.mp he with he | he
      · exact (spelledIn_block ihy he).mono ⟨t :: ts, k :: vs, by simp⟩
      · exact (spelledIn_block ihn he).mono ⟨t :: (ts ++ us ++ [k]), [], by simp⟩
  | @orIf t k cond yes no ts us vs _ hcond _ _ _ _ ihc ihy ihn =>
    intro e he
    rcases inside_append.mp (show Inside e ([.expr _] ++ ([.block _] ++ no.parts)) from he) with he | he
    · exact (spelledIn_expr hcond ihc he).mono ⟨[t], us ++ k :: vs, by simp⟩
    · rcases inside_append.mp he with he | he
      · exact (spelledIn_block ihy he).mono ⟨t :: ts, k :: vs, by simp⟩
      · exact (ihn e he).mono ⟨t :: (ts ++ us ++ [k]), [], by simp⟩
  | @braced l r _ _ _ ts _ _ _ ih =>
    exact fun e he => (ih e (inside_blockOf he)).mono (List.infix_append' [l] ts [r])
  | entriesSemi _ _ ih => exact fun e he => (ih e he).mono (List.suffix_cons _ _).isInfix
  | entriesItem _ _ ih ihs =>
    intro e he
    rcases inside_cons.mp he with (heq | he) | he
    · cases heq
    · exact (ih e he).mono (List.prefix_append _ _).isInfix
    · exact (ihs e he).mono (List.suffix_append _ _).isInfix
  | entriesStmt _ _ _ ih ihs =>
    intro e he
    rcases inside_cons.mp he with (heq | he) | he
    · cases heq
    · exact (ih e he).mono (List.prefix_append _ _).isInfix
    · exact (ihs e he).mono (List.suffix_append _ _).isInfix
  | @bind t n q semi muts declared _ _ _ _ _ ts _ _ _ _ _ h _ ih =>
    exact fun e he => (spelledIn_expr h ih he).mono ⟨t :: (muts ++ n :: (declared ++ [q])), [semi], by simp⟩
  | exprStmt h _ ih => exact fun e he => spelledIn_expr h ih he
  | semiStmt h _ _ ih => exact fun e he => (spelledIn_expr h ih he).mono (List.prefix_append _ _).isInfix
  | function _ _ ih => exact fun e he => (spelledIn_block ih he).mono (List.suffix_append _ _).isInfix
  | «foreign» => exact fun e he => (not_inside_nil he).elim

theorem ItemsSpelled.inside {is : List Item} (h : ItemsSpelled located is ts) :
    ∀ e, Inside e (is.map .item) → SpelledIn located ts e := by
  induction h with
  | nil => exact fun e he => (not_inside_nil he).elim
  | cons h _ ih =>
    intro e he
    rcases inside_cons.mp he with (heq | he) | he
    · cases heq
    · exact (h.inside e he).mono (List.prefix_append _ _).isInfix
    · exact (ih e he).mono (List.suffix_append _ _).isInfix

/-- The expressions of a program are spelled by its tokens. -/
theorem spelledIn_of_mem_nodes {p : Program} (h : ItemsSpelled located p.items ts)
    (he : .expr e ∈ p.nodes) : SpelledIn located ts e := by
  rw [p.nodes_eq, List.mem_flatMap] at he
  exact h.inside e he

end

/-! ## Their places -/

/-- The tokens stand in a text one behind the other. -/
structure InOrder (file : FileId) (ts : List Token) : Prop where
  each : ∀ t ∈ ts, t.span.file = file ∧ t.span.start ≤ t.span.stop
  before : ts.Pairwise fun a b => a.span.stop ≤ b.span.start

theorem InOrder.piece {file : FileId} {ts us : List Token} (h : InOrder file us) (hts : ts <:+: us) :
    InOrder file ts where
  each t ht := h.each t (hts.subset ht)
  before := h.before.sublist hts.sublist

section

variable {file : FileId} {ts us : List Token} {t first last : Token}

/-- No token goes beyond the first and the last one. -/
theorem InOrder.bounds (h : InOrder file ts) (hfirst : ts.head? = some first) (hlast : ts.getLast? = some last)
    (ht : t ∈ ts) : t.span.file = file ∧ first.span.start ≤ t.span.start ∧ t.span.stop ≤ last.span.stop := by
  obtain ⟨hfile, hspan⟩ := h.each t ht
  refine ⟨hfile, ?_, ?_⟩
  · obtain ⟨rest, rfl⟩ := List.head?_eq_some_iff.mp hfirst
    rcases List.mem_cons.mp ht with rfl | ht
    · exact Nat.le_refl _
    · have hbefore := (List.pairwise_cons.mp h.before).1 t ht
      have hself := (h.each first List.mem_cons_self).2
      omega
  · obtain ⟨front, rfl⟩ := List.getLast?_eq_some_iff.mp hlast
    rcases List.mem_append.mp ht with ht | ht
    · have hbefore := (List.pairwise_append.mp h.before).2.2 t ht last (List.mem_singleton.mpr rfl)
      have hself := (h.each last (by simp)).2
      omega
    · exact Nat.le_of_eq (by rw [List.mem_singleton.mp ht])

/-- From the first token to the last one. -/
theorem InOrder.join_eq (h : InOrder file ts) (hfirst : ts.head? = some first)
    (hlast : ts.getLast? = some last) :
    first.span.join last.span = ⟨file, first.span.start, last.span.stop⟩ := by
  obtain ⟨hfile, -, hstop⟩ := h.bounds hfirst hlast (List.mem_of_mem_head? hfirst)
  obtain ⟨-, hstart, -⟩ := h.bounds hfirst hlast (List.mem_of_getLast? hlast)
  rw [Span.join, hfile, Nat.min_eq_left hstart, Nat.max_eq_right hstop]

theorem covers_unary {span : Span} {e : Expr} (h : InOrder file (t :: ts)) (he : Covers True e.span ts)
    (hspan : span = t.span.join e.span) : Covers True span (t :: ts) := by
  intro _
  obtain ⟨first, hfirst, last, hlast, hjoin⟩ := he trivial
  have hlast' : (t :: ts).getLast? = some last := by
    rw [List.getLast?_cons, Option.mem_def.mp hlast]
    rfl
  refine ⟨t, rfl, last, hlast', ?_⟩
  have hinner := (h.piece (List.suffix_cons t ts).isInfix).join_eq hfirst hlast
  obtain ⟨-, hstart, -⟩ := h.bounds rfl hlast' (List.mem_cons_of_mem t (List.mem_of_mem_head? hfirst))
  obtain ⟨hfile, -, hstop⟩ := h.bounds rfl hlast' List.mem_cons_self
  rw [hspan, hjoin, hinner, h.join_eq rfl hlast']
  simp only [Span.join, hfile, Nat.min_eq_left hstart, Nat.max_eq_right hstop]

theorem covers_binary {span : Span} {lhs rhs : Expr} (h : InOrder file (ts ++ t :: us))
    (hlhs : Covers True lhs.span ts) (hrhs : Covers True rhs.span us) (hspan : span = lhs.span.join rhs.span) :
    Covers True span (ts ++ t :: us) := by
  intro _
  obtain ⟨first, hfirst, last, hlast, hjoin⟩ := hlhs trivial
  obtain ⟨first', hfirst', last', hlast', hjoin'⟩ := hrhs trivial
  have hhead : (ts ++ t :: us).head? = some first := by
    rw [List.head?_append, Option.mem_def.mp hfirst]
    rfl
  have hend : (ts ++ t :: us).getLast? = some last' := by
    rw [List.getLast?_append, List.getLast?_cons, Option.mem_def.mp hlast']
    rfl
  refine ⟨first, hhead, last', hend, ?_⟩
  have hleft := (h.piece (List.prefix_append ts (t :: us)).isInfix).join_eq hfirst hlast
  have hright := (h.piece ⟨ts ++ [t], [], by simp⟩ : InOrder file us).join_eq hfirst' hlast'
  obtain ⟨-, hstart, -⟩ := h.bounds hhead hend (by simp [List.mem_of_mem_head? hfirst'] : first' ∈ ts ++ t :: us)
  obtain ⟨-, -, hstop⟩ := h.bounds hhead hend (by simp [List.mem_of_getLast? hlast] : last ∈ ts ++ t :: us)
  rw [hspan, hjoin, hjoin', hleft, hright, h.join_eq hhead hend]
  simp only [Span.join, Nat.min_eq_left hstart, Nat.max_eq_right hstop]

end

/-- The place of an expression goes from its first token to its last one. -/
theorem Spells.covers {file : FileId} {phrase : Phrase} {ts : List Token} (h : Spells True phrase ts)
    (hts : InOrder file ts) : ∀ e, phrase = .expr e → Covers True e.span ts := by
  induction h with
  | literal _ hspan | path _ hspan | grouped _ _ _ hspan | call _ _ _ _ hspan | retNone _ hspan
  | retSome _ _ hspan | block _ hspan | loop _ _ hspan | «while» _ _ _ _ hspan | cond _ hspan =>
    rintro _ ⟨rfl⟩
    exact hspan
  | unary _ _ _ hspan ih =>
    rintro _ ⟨rfl⟩
    exact covers_unary hts (ih (hts.piece (List.suffix_cons _ _).isInfix) _ rfl) (hspan trivial)
  | @binary t _ _ _ _ _ ts us _ _ _ _ _ hspan ihl ihr =>
    rintro _ ⟨rfl⟩
    exact covers_binary hts (ihl (hts.piece (List.prefix_append _ _).isInfix) _ rfl)
      (ihr (hts.piece ⟨ts ++ [t], [], by simp⟩) _ rfl) (hspan trivial)
  | _ => exact fun _ heq => nomatch heq

end Ferrite.Parse
