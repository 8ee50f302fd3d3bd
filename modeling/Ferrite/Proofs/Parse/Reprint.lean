import Ferrite.Proofs.Parse.Parenthesized
import Ferrite.Proofs.Parse.Slice

/-!
Printed programs. The text of a program, read and parsed again, gives the same program up to places,
numbers and parentheses, unless one of its nodes loses something in print.
-/

namespace Ferrite

/-- The conditions of a chain. -/
def Cond.conds : Cond → List Expr
  | .only cond _ | .orElse cond _ _ => [cond]
  | .orIf cond _ no => cond :: no.conds

/-- The node says the same in print. An infinite number would be printed as a name. A `return` would
take the operator behind it, and the block of a condition would be taken for the one behind it, where
the parentheses around them are left out. Items are printed before statements, so an expression that
no `;` ends would become the value of its block where only items came behind it. -/
def Node.lossless : Node → Bool
  | .expr (.literal _ _ value) => value.isFinite
  | .expr (.binary _ _ _ lhs _) => !lhs.isReturn
  | .expr (.while _ _ cond _) => !cond.opensBare
  | .expr (.cond _ _ branches) => branches.conds.all fun e => !e.opensBare
  | .block b => b.tail.isSome || b.stmts.getLast?.all Stmt.closed
  | _ => true

namespace Parse

open Lexer (Says Apart apart_nil apart_cons)

/-! ## Whole trees -/

/-- No node loses anything in print. -/
def Lossless (ns : List Node) : Prop := ∀ n ∈ ns, n.lossless = true

@[simp] theorem lossless_nil : Lossless [] := by simp [Lossless]

@[simp] theorem lossless_cons {n : Node} {ns : List Node} : Lossless (n :: ns) ↔ n.lossless = true ∧ Lossless ns := by
  simp [Lossless]

@[simp] theorem lossless_append {ns ms : List Node} : Lossless (ns ++ ms) ↔ Lossless ns ∧ Lossless ms := by
  simp only [Lossless, List.mem_append, or_imp, forall_and]

def Phrase.Lossless : Phrase → Prop
  | .expr e => Parse.Lossless e.nodes
  | .args es => Parse.Lossless (exprNodes es)
  | .cond c => (∀ e ∈ c.conds, e.opensBare = false) ∧ Parse.Lossless c.nodes
  | .block b => Parse.Lossless b.nodes
  | .entries es => Parse.Lossless (es.flatMap fun entry => entry.node.nodes)
  | .stmt s => Parse.Lossless s.nodes
  | .item i => Parse.Lossless i.nodes

/-- What a block holds is printed, and its statements may stand in front of others, but for the last. -/
structure EntriesPrint (es : List Entry) : Prop where
  items : ∀ i, .item i ∈ es → ItemPrints i
  stmts : ∀ s, .stmt s ∈ es → StmtPrints s
  finished : ∀ s, .stmt s ∈ es.dropLast → Finished s

namespace EntriesPrint

variable {es : List Entry}

theorem nil : EntriesPrint [] := ⟨by simp, by simp, by simp⟩

theorem item {i : Item} (hi : ItemPrints i) (hes : EntriesPrint es) : EntriesPrint (.item i :: es) where
  items j hj := by
    rcases List.mem_cons.mp hj with heq | hj
    · cases heq
      exact hi
    · exact hes.items j hj
  stmts s hs := hes.stmts s (by simpa using hs)
  finished s hs := by
    cases es with
    | nil => cases hs
    | cons entry es => exact hes.finished s (by simpa using hs)

theorem stmt {s : Stmt} (hs : StmtPrints s) (hfinished : es ≠ [] → Finished s) (hes : EntriesPrint es) :
    EntriesPrint (.stmt s :: es) where
  items i hi := hes.items i (by simpa using hi)
  stmts r hr := by
    rcases List.mem_cons.mp hr with heq | hr
    · cases heq
      exact hs
    · exact hes.stmts r hr
  finished r hr := by
    cases es with
    | nil => cases hr
    | cons entry es =>
      rw [List.dropLast_cons_of_ne_nil (List.cons_ne_nil _ _)] at hr
      rcases List.mem_cons.mp hr with heq | hr
      · cases heq
        exact hfinished (List.cons_ne_nil _ _)
      · exact hes.finished r hr

end EntriesPrint

def Phrase.Printed : Phrase → Prop
  | .expr e => ExprPrints e
  | .args es => ∀ e ∈ es, ExprPrints e
  | .cond c => CondPrints c
  | .block b => BlockPrints b
  | .entries es => EntriesPrint es
  | .stmt s => StmtPrints s
  | .item i => ItemPrints i

theorem mem_filterMap_item {es : List Entry} {i : Item} : i ∈ es.filterMap Entry.item? ↔ .item i ∈ es := by
  rw [List.mem_filterMap]
  constructor
  · rintro ⟨_ | _, hentry, heq⟩
    · cases heq
      exact hentry
    · cases heq
  · exact fun h => ⟨_, h, rfl⟩

theorem mem_filterMap_stmt {es : List Entry} {s : Stmt} : s ∈ es.filterMap Entry.stmt? ↔ .stmt s ∈ es := by
  rw [List.mem_filterMap]
  constructor
  · rintro ⟨_ | _, hentry, heq⟩
    · cases heq
    · cases heq
      exact hentry
  · exact fun h => ⟨_, h, rfl⟩

theorem lossless_entries {es : List Entry} (hitems : Lossless (itemNodes (es.filterMap Entry.item?)))
    (hstmts : Lossless (stmtNodes (es.filterMap Entry.stmt?))) :
    Lossless (es.flatMap fun entry => entry.node.nodes) := by
  rw [itemNodes_eq] at hitems
  rw [stmtNodes_eq] at hstmts
  intro n hn
  obtain ⟨entry, hentry, hn⟩ := List.mem_flatMap.mp hn
  cases entry with
  | item i => exact hitems n (List.mem_flatMap.mpr ⟨i, mem_filterMap_item.mpr hentry, hn⟩)
  | stmt s => exact hstmts n (List.mem_flatMap.mpr ⟨s, mem_filterMap_stmt.mpr hentry, hn⟩)

theorem StmtPrints.expr {span : Span} {e : Expr} (h : StmtPrints (.expr span e false)) : ExprPrints e := by
  obtain ⟨ws, hws, hs⟩ := h
  have htext : (Stmt.expr span e false).print.toList = e.print.toList := by simp [Stmt.print]
  rw [htext] at hws
  cases hs with
  | exprStmt he => exact ⟨ws, hws, he⟩

theorem blockOf_prints {id : NodeId} {span : Span} {es : List Entry} {ts : List Token}
    (ih : Lossless (es.flatMap fun entry => entry.node.nodes) → EntriesPrint es)
    (hlossless : Lossless (blockOf id span es ts).nodes) : BlockPrints (blockOf id span es ts) := by
  rcases blockOf_cases id span es ts with ⟨front, place, e, rfl, heq⟩ | heq
  · rw [heq] at hlossless ⊢
    simp only [Block.nodes, lossless_cons, lossless_append] at hlossless
    obtain ⟨-, ⟨hitems, hstmts⟩, he⟩ := hlossless
    have hes := ih (by
      rw [List.flatMap_append, lossless_append]
      exact ⟨lossless_entries hitems hstmts, by simpa [Entry.node, Node.nodes, Stmt.nodes, Node.lossless] using he⟩)
    refine braced_prints (fun i hi => hes.items i ?_) (fun s hs => hes.stmts s ?_) (fun s hs => hes.finished s ?_)
      (fun e' he' => ?_) (.inl rfl)
    · exact List.mem_append_left _ (mem_filterMap_item.mp hi)
    · exact List.mem_append_left _ (mem_filterMap_stmt.mp hs)
    · rw [List.dropLast_concat]
      exact mem_filterMap_stmt.mp hs
    · cases he'
      exact (hes.stmts _ (List.mem_append_right _ List.mem_cons_self)).expr
  · rw [heq] at hlossless ⊢
    simp only [Block.nodes, lossless_cons, lossless_append] at hlossless
    obtain ⟨hblock, hitems, hstmts⟩ := hlossless
    have hes := ih (lossless_entries hitems hstmts)
    have hlast : (es.filterMap Entry.stmt?).getLast?.all Stmt.closed = true := hblock
    refine braced_prints (fun i hi => hes.items i (mem_filterMap_item.mp hi))
      (fun s hs => hes.stmts s (mem_filterMap_stmt.mp hs)) (fun s hs => ?_) (by simp) (.inr hlast)
    rcases List.eq_nil_or_concat' es with rfl | ⟨front, entry, rfl⟩
    · cases hs
    rcases List.mem_append.mp (mem_filterMap_stmt.mp hs) with hfront | hentry
    · exact hes.finished s (by rwa [List.dropLast_concat])
    · rw [← List.mem_singleton.mp hentry, List.filterMap_append] at hlast
      simp only [List.filterMap_cons, Entry.stmt?, List.filterMap_nil, List.getLast?_concat] at hlast
      cases s with
      | bind => trivial
      | expr _ _ semi =>
        cases hlast
        trivial

theorem entries_ne_nil {located : Prop} {es : List Entry} {ts : List Token}
    (h : Spells located (.entries es) ts) (hes : es ≠ []) : ts ≠ [] := by
  have hne : ∀ {us vs : List Token}, first us ≠ .endOfInput → us ++ vs ≠ [] := fun hfirst hnil =>
    hfirst (by rw [(List.append_eq_nil_iff.mp hnil).1]; rfl)
  cases h with
  | entriesNil => exact absurd rfl hes
  | entriesSemi => exact List.cons_ne_nil _ _
  | @entriesItem i _ us _ hi _ =>
    have hrun : ItemRun i us := hi.taken
    exact hne hrun.ne_end
  | @entriesStmt s _ us _ hs _ _ =>
    have hrun : StmtRun s us := hs.taken
    exact hne hrun.starts.ne_end

theorem finished_of_endsBefore {s : Stmt} {us : List Token} (h : s.EndsBefore us) (hus : us ≠ []) : Finished s := by
  match s, h with
  | .bind .., _ => trivial
  | .expr _ _ true, _ => trivial
  | .expr _ e false, h => exact Bool.eq_true_of_not_eq_false fun hno => hus (h.2 hno)

theorem abi_written {abi : String} {as : List Token} (h : AbiSpelled abi as) (has : Written as) :
    (Literal.text abi).Written := by
  rcases h with ⟨-, rfl⟩ | ⟨t, ht, rfl⟩
  · intro r
    simp [Lexer.stringBody.eq_def]
  · rw [written_cons, ht] at has
    exact has.1

/-- What is spelled and loses nothing in print is printed with parentheses around each operator. -/
theorem Spells.printed {located : Prop} {phrase : Phrase} {ts : List Token} (h : Spells located phrase ts)
    (hts : Written ts) (hlossless : phrase.Lossless) : phrase.Printed := by
  induction h with
  | literal h =>
    rw [written_cons, h] at hts
    simp only [Phrase.Lossless, Expr.nodes, lossless_cons] at hlossless
    exact literal_prints hts.1 hlossless.1 _ _
  | path h =>
    rw [written_cons, h] at hts
    exact path_prints hts.1 _ _
  | grouped _ _ _ _ ih =>
    simp only [written_cons, written_append] at hts
    simp only [Phrase.Lossless, Expr.nodes, lossless_cons] at hlossless
    exact ih hts.2.1 hlossless.2
  | unary _ _ _ _ ih =>
    rw [written_cons] at hts
    simp only [Phrase.Lossless, Expr.nodes, lossless_cons] at hlossless
    exact unary_prints (ih hts.2 hlossless.2) _ _
  | binary _ _ _ _ _ _ ihl ihr =>
    simp only [written_cons, written_append] at hts
    simp only [Phrase.Lossless, Expr.nodes, lossless_cons, lossless_append, Node.lossless,
      Bool.not_eq_true'] at hlossless
    exact binary_prints (ihl hts.1 hlossless.2.1) (ihr hts.2.2 hlossless.2.2) hlossless.1 _ _
  | call hn _ _ _ _ ih =>
    simp only [written_cons, written_append, hn] at hts
    simp only [Phrase.Lossless, Expr.nodes, lossless_cons] at hlossless
    exact call_prints hts.1 (ih hts.2.2.1 hlossless.2) _ _
  | retNone => exact ⟨_, Says.keyword .return, .retNone rfl False.elim⟩
  | retSome _ _ _ ih =>
    rw [written_cons] at hts
    simp only [Phrase.Lossless, Expr.nodes, lossless_cons] at hlossless
    exact ret_prints (ih hts.2 hlossless.2) _ _
  | block _ _ ih =>
    simp only [Phrase.Lossless, Expr.nodes, lossless_cons] at hlossless
    exact block_prints (ih hts hlossless.2) _ _
  | loop _ _ _ ih =>
    rw [written_cons] at hts
    simp only [Phrase.Lossless, Expr.nodes, lossless_cons] at hlossless
    exact loop_prints (ih hts.2 hlossless.2) _ _
  | «while» _ _ _ _ _ ihc ihb =>
    simp only [written_cons, written_append] at hts
    simp only [Phrase.Lossless, Expr.nodes, lossless_cons, lossless_append, Node.lossless,
      Bool.not_eq_true'] at hlossless
    exact while_prints (ihc hts.2.1 hlossless.2.1) hlossless.1 (ihb hts.2.2 hlossless.2.2) _ _
  | cond _ _ ih =>
    simp only [Phrase.Lossless, Expr.nodes, lossless_cons, Node.lossless, List.all_eq_true,
      Bool.not_eq_true'] at hlossless
    obtain ⟨ws, hws, hc⟩ := ih hts hlossless
    exact ⟨ws, hws, .cond hc False.elim⟩
  | argsNil => simp [Phrase.Printed]
  | argsLast _ ih =>
    simp only [Phrase.Lossless, exprNodes, List.append_nil] at hlossless
    simpa [Phrase.Printed] using ih hts hlossless
  | argsCons _ _ _ ih ihs =>
    simp only [written_cons, written_append] at hts
    simp only [Phrase.Lossless, exprNodes, lossless_append] at hlossless
    exact List.forall_mem_cons.mpr ⟨ih hts.1 hlossless.1, ihs hts.2.2 hlossless.2⟩
  | only _ _ _ _ ihc ihy =>
    simp only [written_cons, written_append] at hts
    simp only [Phrase.Lossless, Cond.conds, Cond.nodes, lossless_append, List.forall_mem_singleton] at hlossless
    exact only_prints (ihc hts.2.1 hlossless.2.1) hlossless.1 (ihy hts.2.2 hlossless.2.2)
  | orElse _ _ _ _ _ _ ihc ihy ihn =>
    simp only [written_cons, written_append] at hts
    simp only [Phrase.Lossless, Cond.conds, Cond.nodes, lossless_append, List.forall_mem_singleton] at hlossless
    obtain ⟨hopens, ⟨hc, hy⟩, hn⟩ := hlossless
    exact orElse_prints (ihc hts.2.1.1 hc) hopens (ihy hts.2.1.2 hy) (ihn hts.2.2.2 hn)
  | orIf _ _ _ _ _ _ ihc ihy ihn =>
    simp only [written_cons, written_append] at hts
    simp only [Phrase.Lossless, Cond.conds, Cond.nodes, lossless_append, List.forall_mem_cons] at hlossless
    obtain ⟨⟨hopens, hconds⟩, ⟨hc, hy⟩, hn⟩ := hlossless
    exact orIf_prints (ihc hts.2.1.1 hc) hopens (ihy hts.2.1.2 hy) (ihn hts.2.2.2 ⟨hconds, hn⟩)
  | braced _ _ _ ih =>
    simp only [written_cons, written_append] at hts
    exact blockOf_prints (fun hes => ih hts.2.1 hes) hlossless
  | entriesNil => exact .nil
  | entriesSemi _ _ ih =>
    rw [written_cons] at hts
    exact ih hts.2 hlossless
  | entriesItem _ _ ih ihs =>
    rw [written_append] at hts
    simp only [Phrase.Lossless, List.flatMap_cons, lossless_append] at hlossless
    exact .item (ih hts.1 hlossless.1) (ihs hts.2 hlossless.2)
  | entriesStmt _ hends hback ih ihs =>
    rw [written_append] at hts
    simp only [Phrase.Lossless, List.flatMap_cons, lossless_append] at hlossless
    refine .stmt (ih hts.1 hlossless.1) (fun hes => ?_) (ihs hts.2 hlossless.2)
    exact finished_of_endsBefore hends (entries_ne_nil hback hes)
  | bind _ _ hn htype _ _ _ ih =>
    simp only [written_cons, written_append, hn] at hts
    obtain ⟨-, -, hname, hdeclared, -, hinit, -⟩ := hts
    simp only [Phrase.Lossless, Stmt.nodes, lossless_cons] at hlossless
    refine bind_prints hname (fun t ht => ?_) (ih hinit hlossless.2) _ _
    rcases htype with ⟨rfl, -⟩ | ⟨ty, c, us, rfl, -, hty, rfl⟩
    · cases ht
    · cases ht
      exact hty.prints (written_cons.mp hdeclared).2
  | exprStmt _ _ ih =>
    simp only [Phrase.Lossless, Stmt.nodes, lossless_cons] at hlossless
    exact expr_prints (ih hts hlossless.2) _ _
  | semiStmt _ _ _ ih =>
    rw [written_append] at hts
    simp only [Phrase.Lossless, Stmt.nodes, lossless_cons] at hlossless
    exact expr_prints (ih hts.1 hlossless.2) _ _
  | function hh _ ih =>
    rw [written_append] at hts
    simp only [Phrase.Lossless, Item.nodes, lossless_cons] at hlossless
    exact function_prints (hh.prints hts.1) (ih hts.2 hlossless.2)
  | «foreign» _ habi _ hhs _ =>
    simp only [written_cons, written_append] at hts
    exact foreign_prints (abi_written habi hts.2.1) (hhs.prints hts.2.2.2.1) _

theorem ItemsSpelled.printed {located : Prop} {is : List Item} {ts : List Token} (h : ItemsSpelled located is ts)
    (hts : Written ts) (hlossless : Lossless (itemNodes is)) : ∀ i ∈ is, ItemPrints i := by
  induction h with
  | nil => simp
  | cons h _ ih =>
    rw [written_append] at hts
    rw [itemNodes, lossless_append] at hlossless
    exact List.forall_mem_cons.mpr ⟨h.printed hts.1 hlossless.1, ih hts.2 hlossless.2⟩

theorem program_prints {is : List Item} (h : ∀ i ∈ is, ItemPrints i) :
    Prints ("\n".intercalate (is.map Item.print)).toList
      (ItemsSpelled False (is.map (Item.regroup .parenthesize))) := by
  induction is with
  | nil => exact ⟨[], .nil, .nil⟩
  | cons i is ih =>
    rw [List.forall_mem_cons] at h
    obtain ⟨ws, hws, hi⟩ := h.1
    cases is with
    | nil =>
      have htext : ("\n".intercalate ([i].map Item.print)).toList = i.print.toList := by simp
      rw [htext]
      have hitems := ItemsSpelled.cons hi .nil
      rw [List.append_nil] at hitems
      exact ⟨ws, hws, hitems⟩
    | cons j is =>
      obtain ⟨vs, hvs, his⟩ := ih h.2
      have htext : ("\n".intercalate ((i :: j :: is).map Item.print)).toList =
          i.print.toList ++ '\n' :: ("\n".intercalate ((j :: is).map Item.print)).toList := by
        rw [List.map_cons, List.map_cons, String.intercalate_cons_cons]
        simp [String.toList_append]
      rw [htext]
      refine ⟨_, hws.append (apart_cons (by simp) _) (.blank rfl hvs), ?_⟩
      rw [bareTokens_append]
      exact .cons hi his

/-! ## Whole texts -/

theorem terminal_tokensAt (file : FileId) (offset : Nat) (ls : List Lexer.Lexeme) :
    (Lexer.tokensAt file offset ls).map Token.terminal = ls.filterMap Lexer.Lexeme.terminal? ++ [.endOfInput] := by
  induction ls generalizing offset with
  | nil => rfl
  | cons l ls ih =>
    have hrest := ih (offset + l.width)
    rw [Lexer.tokensAt, List.filterMap_cons, Lexer.Lexeme.terminal?]
    cases l.token? with
    | none => exact hrest
    | some token => exact congrArg (token.1 :: ·) hrest

theorem faults_of_problemsAt {file : FileId} {offset : Nat} {ls : List Lexer.Lexeme} :
    Lexer.problemsAt file offset ls = [] ↔ ∀ l ∈ ls, l.faults = [] := by
  rw [← List.map_eq_nil_iff (f := Located.value), Lexer.problemsAt_value, List.flatMap_eq_nil_iff]
  simp only [List.map_eq_nil_iff]

/-- A text that says the words is read as them. -/
theorem read_of_says {text : String} {ws : List Terminal} (h : Says text.toList ws) (file : FileId) :
    (Lexer.read file text).problems = [] ∧
      (Lexer.read file text).tokens.map (Token.relabel .unplaced) = bareTokens (ws ++ [.endOfInput]) := by
  obtain ⟨ls, hls, hfaults, hws⟩ := h [] apart_nil
  rw [List.append_nil, Lexer.lexemes, List.append_nil] at hls
  refine ⟨faults_of_problemsAt.mpr (hls ▸ hfaults), ?_⟩
  rw [← hws, ← hls, ← terminal_tokensAt file 0, bareTokens, List.map_map]
  rfl

/-- The tokens of a text without problems. -/
theorem written_of_read {file : FileId} {text : String} (h : (Lexer.read file text).problems = []) :
    Written (Lexer.read file text).tokens := by
  have hwritten := Lexer.lexemes_written (faults_of_problemsAt.mp h)
  intro t ht
  have hmem := List.mem_map_of_mem (f := Token.terminal) ht
  rw [Lexer.read, terminal_tokensAt] at hmem
  rcases List.mem_append.mp hmem with hmem | hmem
  · obtain ⟨l, hl, hterminal⟩ := List.mem_filterMap.mp hmem
    obtain ⟨token, htoken, heq⟩ := Option.map_eq_some_iff.mp hterminal
    exact heq ▸ hwritten l hl token htoken
  · rw [List.mem_singleton.mp hmem]
    trivial

theorem log_eq_nil_iff {α : Type} {parser : Parser α} {file : FileId} {text : String} :
    (ofText parser file text).log.toList = [] ↔
      (Lexer.read file text).problems = [] ∧ (run parser (Lexer.read file text).tokens).problems = [] := by
  simp [ofText, Lexer.Reading.diagnostics, Outcome.diagnostics]

/-- A text that says words by which a program is spelled is that program. -/
theorem ofText_of_says {text : String} {ws : List Terminal} {is : List Item} (h : Says text.toList ws)
    (his : ItemsSpelled False is (bareTokens ws)) (file : FileId) :
    ∃ p, (ofText program file text).result = .ok p ∧ (ofText program file text).log.toList = [] ∧
      p.items.map (Item.relabel .bare) = is.map (Item.relabel .bare) := by
  obtain ⟨hread, htokens⟩ := read_of_says h file
  obtain ⟨q, hrun, hq⟩ := program_of_spells (t := ⟨.endOfInput, default⟩) his rfl
  have hplaced := run_relabel (program_equivariant Relabel.unplaced_lawful) rfl (Lexer.read file text).tokens
    (.inl rfl)
  rw [htokens, bareTokens_append, bareTokens_cons, bareTokens_nil, hrun] at hplaced
  rw [log_eq_nil_iff]
  cases hown : run program (Lexer.read file text).tokens with
  | mk result problems =>
    rw [hown] at hplaced
    obtain ⟨hresult, hproblems⟩ := Outcome.mk.inj hplaced
    cases result with
    | error e => cases hresult
    | ok p =>
      cases hresult
      refine ⟨p, by simp [ofText, hown, Except.mapError], ⟨hread, List.map_eq_nil_iff.mp hproblems.symm⟩, ?_⟩
      rw [← hq, Program.relabel, List.map_map]
      exact List.map_congr_left fun i _ => (i.relabel_relabel .unplaced .bare).symm

/-- A program in which no node loses anything in print is printed as a text that holds it again. -/
theorem ofText_print {file : FileId} {text : String} {p : Program}
    (hresult : (ofText program file text).result = .ok p) (hlog : (ofText program file text).log.toList = [])
    (hlossless : ∀ n ∈ p.nodes, n.lossless = true) (file' : FileId) :
    ∃ p', (ofText program file' p.print).result = .ok p' ∧ (ofText program file' p.print).log.toList = [] ∧
      p'.shape = p.shape := by
  have herrors : (ofText program file text).log.hasErrors = false := by rw [Log.hasErrors_toList, hlog, List.any_nil]
  obtain ⟨hrun, -⟩ := run_of_text hresult herrors
  obtain ⟨ts, rest, htokens, hitems⟩ := items_of_run hrun
  have hwritten : Written (Lexer.read file text).tokens := written_of_read (log_eq_nil_iff.mp hlog).1
  rw [htokens, written_append] at hwritten
  obtain ⟨ws, hws, his⟩ := program_prints (hitems.printed hwritten.1 hlossless)
  obtain ⟨p', hp', hlog', hsame⟩ := ofText_of_says hws his file'
  refine ⟨p', hp', hlog', ?_⟩
  have hungroup := congrArg (List.map Item.ungroup) hsame
  simp only [List.map_map, Function.comp_def, Item.ungroup_regroup] at hungroup
  exact hungroup

/-- Parentheses that are not needed, and two `return`s that need none. -/
theorem ofText_print_grouped : ∃ p p',
    (ofText program 0 "fn f(a: i32) { if (a > 1) { return -a } ((2)) * (a + return) }").result = .ok p ∧
      (ofText program 0 "fn f(a: i32) { if (a > 1) { return -a } ((2)) * (a + return) }").log.toList = [] ∧
      (∀ n ∈ p.nodes, n.lossless = true) ∧ (ofText program 0 p.print).result = .ok p' ∧
      (ofText program 0 p.print).log.toList = [] ∧ p'.shape = p.shape := by
  have hlossless : ((ofText program 0
      "fn f(a: i32) { if (a > 1) { return -a } ((2)) * (a + return) }").result.toOption.map fun p =>
        p.nodes.all Node.lossless) = some true := by
    decide +kernel
  have hlog : (ofText program 0
      "fn f(a: i32) { if (a > 1) { return -a } ((2)) * (a + return) }").log.toList = [] := by
    decide +kernel
  obtain ⟨p, hp, hlossless⟩ := Option.map_eq_some_iff.mp hlossless
  rw [List.all_eq_true] at hlossless
  cases hresult : (ofText program 0
      "fn f(a: i32) { if (a > 1) { return -a } ((2)) * (a + return) }").result with
  | error f =>
    rw [hresult] at hp
    cases hp
  | ok q =>
    rw [hresult] at hp
    cases hp
    obtain ⟨p', h⟩ := ofText_print hresult hlog hlossless 0
    exact ⟨p, p', rfl, hlog, hlossless, h⟩

/-! ## What is lost -/

/-- What a node is, whatever stands in it. -/
def nodeKind : Node → String
  | .expr (.literal ..) => "literal"
  | .expr (.path ..) => "name"
  | .expr (.grouped ..) => "group"
  | .expr (.unary ..) => "sign"
  | .expr (.binary ..) => "operator"
  | .expr (.call ..) => "call"
  | .expr (.ret ..) => "return"
  | .expr (.block ..) => "block"
  | .expr (.loop ..) => "loop"
  | .expr (.while ..) => "while"
  | .expr (.cond ..) => "condition"
  | .block _ => "body"
  | .stmt _ => "statement"
  | .item _ => "item"

/-- The text holds a program, but what is printed of it does not hold the same one. -/
def Misprinted (text : String) : Prop :=
  ∃ p, (ofText program 0 text).result = .ok p ∧ (ofText program 0 text).log.toList = [] ∧
    ¬∃ p', (ofText program 0 p.print).result = .ok p' ∧ (ofText program 0 p.print).log.toList = [] ∧
      p'.shape = p.shape

/-- What is printed of the program has a problem, or other nodes. -/
def nodesDiffer (p : Program) : Bool :=
  match (ofText program 0 p.print).result with
  | .error _ => true
  | .ok p' => !(ofText program 0 p.print).log.toList.isEmpty ||
      (itemNodes p'.shape).map nodeKind ≠ (itemNodes p.shape).map nodeKind

theorem misprinted_of_nodesDiffer {text : String} (hlog : (ofText program 0 text).log.toList = [])
    (h : (ofText program 0 text).result.toOption.any nodesDiffer = true) : Misprinted text := by
  cases hresult : (ofText program 0 text).result with
  | error f =>
    rw [hresult] at h
    cases h
  | ok p =>
    rw [hresult] at h
    refine ⟨p, hresult, hlog, ?_⟩
    rintro ⟨p', hp', hlog', hshape⟩
    have hdiffer : nodesDiffer p = true := h
    simp [nodesDiffer, hp', hlog', hshape] at hdiffer

/-- An infinite number, a `return` in front of an operator, a block as a condition, and a loop with only
a function behind it. -/
theorem print_lossy : Misprinted "fn f() { 1e999 }" ∧ Misprinted "fn f() { (return 1) + 2 }" ∧
    Misprinted "fn f() { if ({ true }) { } }" ∧ Misprinted "fn f() { loop { } fn g() { } }" := by
  refine ⟨?_, ?_, ?_, ?_⟩ <;>
    exact misprinted_of_nodesDiffer (by decide +kernel) (by decide +kernel)

end Parse
end Ferrite
