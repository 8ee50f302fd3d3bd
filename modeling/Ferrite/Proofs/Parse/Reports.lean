import Ferrite.Parse.Text
import Ferrite.Proofs.Parse.Agree
import Ferrite.Proofs.Parse.Numbered
import Ferrite.Proofs.Parse.Silent

/-!
Giving up at a mistake reports it. No parser of the grammar gives up for a mistake without a report, so
an expression or a list of statements is never refused for no error at all.
-/

namespace Ferrite.Parse

/-- Problems are never taken back, and giving up at a mistake reports one. -/
abbrev Reporting {α : Type} (m : Parser α) : Prop := Reads m fun _ _ _ => True

/-- What follows the counter of numbers also tells what is reported. -/
theorem Mints.reporting {α : Type} {m : Parser α} {taken : α → List NodeId} {good : α → Prop}
    (h : Mints [] True m taken good) : Reporting m := by
  intro s
  refine (h s s (.refl s)).mono ?_ ?_
  · intro a s' _ ha
    exact ⟨ha.problems, fun _ => trivial⟩
  · intro e s' _ he
    exact ⟨he.problems, he.reported⟩

theorem Reads.reporting {α : Type} {m : Parser α} {silent : State → α → State → Prop} (h : Reads m silent) :
    Reporting m := h.mono fun _ _ _ _ => trivial

theorem Reporting.bind {α β : Type} {m : Parser α} {f : α → Parser β} (h : Reporting m)
    (hf : ∀ a, Reporting (f a)) : Reporting (m >>= f) := (Reads.bind h hf).reporting

/-- The productions of the grammar, each at every depth, with any marks and any bounds. -/
inductive Production : {α : Type} → Parser α → Prop
  | expect (p : Punct) : Production (expect p)
  | expectName : Production expectName
  | typeWithin (bound : Nat) : Production (typeWithin bound)
  | type : Production type
  | param : Production param
  | header (start : Span) : Production (header start)
  | declaration : Production declaration
  | declarations (bound : Nat) : Production (declarations bound)
  | foreign : Production foreign
  | call (depth : Nat) (start : Span) (callee : Ident) : Production ((level depth).call start callee)
  | group (depth : Nat) (start : Span) : Production ((level depth).group start)
  | returning (depth : Nat) (start : Span) (marks : List Punct) :
      Production ((level depth).returning start marks)
  | blockLike (depth : Nat) : Production (level depth).blockLike
  | primary (depth : Nat) (marks : List Punct) : Production ((level depth).primary marks)
  | unary (depth : Nat) (marks : List Punct) : Production ((level depth).unary marks)
  | binary (depth : Nat) (marks : List Punct) (power : Nat) : Production ((level depth).binary marks power)
  | expr (depth : Nat) (marks : List Punct) : Production ((level depth).expr marks)
  | conditions (depth : Nat) : Production (level depth).conditions
  | function (depth : Nat) : Production (level depth).function
  | item? (depth : Nat) : Production (level depth).item?
  | binding (depth : Nat) : Production (level depth).binding
  | exprStatement (depth : Nat) : Production (level depth).exprStatement
  | statement (depth : Nat) : Production (level depth).statement
  | entries (depth bound : Nat) : Production ((level depth).entries bound)
  | braced (depth : Nat) : Production (level depth).braced
  | items (depth bound : Nat) : Production (items (level depth) bound)
  | program : Production program
  | statements (depth bound : Nat) : Production (statements (level depth) bound)
  | statementList : Production statementList
  | expression : Production expression

theorem strayItems_reporting (is : List Item) : Reporting (is.forM fun i => report .strayItem i.span) := by
  induction is with
  | nil => exact (Reads.pure ()).reporting
  | cons i is ih => exact .bind (report_mints _ _).reporting fun _ => ih

theorem statements_reporting {nested : Nested} (hn : nested.AllNumbered) (bound : Nat) :
    Reporting (statements nested bound) := by
  induction bound with
  | zero => exact (Reads.throw Abort.noConfusion).reporting
  | succ bound ih =>
    unfold statements
    refine .bind remaining_reads.reporting fun n => ?_
    refine .bind (Nested.entries_numbered hn _).reporting fun es => ?_
    refine .bind (strayItems_reporting _) fun _ => ?_
    refine .bind isAtEnd_reads.reporting fun ended => ?_
    split
    · exact (Reads.pure _).reporting
    · refine .bind (unexpected_mints _).reporting fun _ => ?_
      refine .bind advance_reads.reporting fun _ => ?_
      exact .bind ih fun _ => (Reads.pure _).reporting

theorem statementList_reporting : Reporting statementList :=
  .bind remaining_reads.reporting fun _ => statements_reporting (level_numbered _) _

theorem expression_reporting : Reporting expression := by
  unfold expression
  refine .bind remaining_reads.reporting fun _ => ?_
  refine .bind (Nested.expr_numbered (level_numbered _) _).reporting fun e => ?_
  refine .bind isAtEnd_reads.reporting fun ended => ?_
  split
  · exact (Reads.pure _).reporting
  · have hfail : Mints [] True (failAt (.unexpected .endOfInput) : Parser Expr) (fun _ => []) fun _ => True :=
      failAt_mints _ _ _
    exact hfail.reporting

/-- Every production reports what it gives up for. -/
theorem Production.reporting {α : Type} {m : Parser α} (h : Production m) : Reporting m := by
  cases h with
  | expect p => exact (plain_expect p).reporting
  | expectName => exact plain_expectName.reporting
  | typeWithin bound => exact (typeWithin_known bound).reporting
  | type => exact type_known.reporting
  | param => exact param_mints.reporting
  | header start => exact (header_mints start).reporting
  | declaration => exact declaration_mints.reporting
  | declarations bound => exact (declarations_mints bound).reporting
  | «foreign» => exact foreign_numbered.reporting
  | call depth start callee => exact (Nested.call_numbered (level_numbered depth) start callee).reporting
  | group depth start => exact (Nested.group_numbered (level_numbered depth) start).reporting
  | returning depth start marks =>
    exact (Nested.returning_numbered (level_numbered depth) start marks).reporting
  | blockLike depth => exact (Nested.blockLike_numbered (level_numbered depth)).reporting
  | primary depth marks => exact (Nested.primary_numbered (level_numbered depth) marks).reporting
  | unary depth marks => exact (Nested.unary_numbered (level_numbered depth) marks).reporting
  | binary depth marks power => exact (Nested.binary_numbered (level_numbered depth) marks power).reporting
  | expr depth marks => exact (Nested.expr_numbered (level_numbered depth) marks).reporting
  | conditions depth => exact (Nested.conditions_numbered (level_numbered depth)).reporting
  | function depth => exact (Nested.function_numbered (level_numbered depth)).reporting
  | item? depth => exact (Nested.item?_mints (level_numbered depth)).reporting
  | binding depth => exact (Nested.binding_numbered (level_numbered depth)).reporting
  | exprStatement depth => exact (Nested.exprStatement_numbered (level_numbered depth)).reporting
  | statement depth => exact (Nested.statement_numbered (level_numbered depth)).reporting
  | entries depth bound => exact (Nested.entries_numbered (level_numbered depth) bound).reporting
  | braced depth => exact (Nested.braced_numbered (level_numbered depth)).reporting
  | items depth bound => exact (items_numbered (level_numbered depth) bound).reporting
  | program => exact program_numbered.reporting
  | statements depth bound => exact statements_reporting (level_numbered depth) bound
  | statementList => exact statementList_reporting
  | expression => exact expression_reporting

/-- What is new among the problems where a parser gave up for a mistake. -/
theorem Reporting.new {α : Type} {m : Parser α} (h : Reporting m) {s s' : State}
    (hrun : m s = .error .reported s') :
    ∃ new, s'.problems = new ++ s.problems ∧ ∃ q ∈ new, (Problem.diagnostic q).isError = true := by
  obtain ⟨⟨new, hnew⟩, hreported⟩ := (h s).error hrun
  refine ⟨new, hnew.symm, ?_⟩
  cases new with
  | nil => exact absurd hnew.symm (hreported rfl)
  | cons q new => exact ⟨q, List.mem_cons_self, diagnostic_isError q⟩

/-- What agrees with itself meets no bound. -/
theorem Agree.ne_exhausted {α : Type} {m : Parser α} {least : Nat} {same : α → α → Prop}
    (h : ∀ size, Agree Parse.anywhere size least same m m) (s : State) : ∀ s', m s ≠ .error .exhausted s' := by
  intro s' hrun
  rcases (h s.rest.length s s (.refl s) trivial (Nat.le_refl _)).ends with
    ⟨a, -, t, -, ha, -⟩ | ⟨e, -, t, -, he, -, ⟨hne, -⟩, -⟩
  · rw [hrun] at ha
    cases ha
  · rw [hrun] at he
    cases he
    exact hne rfl

/-- A refusal counts at least one error, whatever was reported before. -/
theorem Reporting.refused {α : Type} {m : Parser α} (h : Reporting m)
    (hbound : ∀ s s', m s ≠ .error .exhausted s') {tokens : List Token} {log : Log} {n : Nat}
    (hrefused : (run m tokens).result.mapError (·.failure (log.append (run m tokens).diagnostics).errors) =
      .error (.compilationFailed n)) : 0 < n := by
  unfold run at hrefused
  cases hrun : m { rest := tokens } with
  | ok a s =>
    rw [hrun] at hrefused
    cases hrefused
  | error e s =>
    rw [hrun] at hrefused
    cases e with
    | unsupported construct place => cases hrefused
    | exhausted => exact absurd hrun (hbound _ _)
    | reported =>
      obtain ⟨new, hnew, q, hq, herror⟩ := h.new hrun
      cases hrefused
      have hmem : Problem.diagnostic q ∈ (s.problems.reverse.map Problem.diagnostic) := by
        rw [hnew, List.append_nil]
        exact List.mem_map_of_mem (List.mem_reverse.mpr hq)
      rw [Log.errors_toList, Log.toList_append, List.countP_pos_iff]
      exact ⟨_, List.mem_append_right _ hmem, herror⟩

end Ferrite.Parse
