import Mathlib.Data.List.Perm.Subperm
import Ferrite.Parse.Text
import Ferrite.Proofs.Parse.Fresh
import Ferrite.Proofs.Tree.Parts

/-!
Every node of a parsed tree has a number of its own, also behind mistakes; and a tree that was
parsed without a problem is sound.
-/

namespace Ferrite.Parse

/-- What the parser gives has new numbers, and is sound if nothing is reported. -/
abbrev Numbered {α : Type} (m : Parser α) (nodes : α → List Node) : Prop :=
  Mints [] True m (fun a => Ferrite.numbers (nodes a)) (fun a => AllSound (nodes a))

/-! ## Types and headers -/

/-- A type carries no numbers, and is known unless a problem is reported. -/
abbrev Known (m : Parser Ty) : Prop :=
  Mints [] True m (fun _ => []) (fun t => t.hasUnknown = false)

theorem ofName?_known {name : String} {t : Ty} (h : Ty.ofName? name = some t) :
    t.hasUnknown = false := by
  have hall : ∀ e ∈ Ty.named, e.2.hasUnknown = false := by decide
  obtain ⟨before, behind, heq, -⟩ := List.lookup_eq_some_iff.mp h
  refine hall (name, t) ?_
  rw [heq]
  exact List.mem_append_right _ List.mem_cons_self

theorem resultOf_known {m : Parser Ty} (h : Known m) : Known (resultOf m) := by
  unfold resultOf
  refine .plain_bind (plain_accept _) ?_
  intro arrow
  exact .ite h (.pure (.refl _) fun _ => rfl)

theorem tupleOf_known {ts : List Ty} {comma : Bool} (h : ∀ t ∈ ts, t.hasUnknown = false) :
    (tupleOf (ts, comma)).hasUnknown = false := by
  unfold tupleOf
  split
  · exact h _ (by simp_all)
  · simp_all [Ty.hasUnknown, Ty.anyUnknown_eq_any]

theorem typeWithin_known (bound : Nat) : Known (typeWithin bound) := by
  induction bound with
  | zero => exact .throw Abort.noConfusion
  | succ bound ih =>
    have hlist := parenthesized_mints ih
    unfold typeWithin
    refine .plain_bind plain_span ?_
    intro start
    refine .plain_bind plain_terminal ?_
    intro t
    split
    · refine .plain_bind plain_advance ?_
      intro _
      split
      · rename_i found
        exact .pure (.refl _) fun _ => ofName?_known found
      · refine .bind (report_mints _ _) ?_
        intro _
        exact .pure (by simp) fun h => h.2.elim
    · exact .plain_bind plain_advance fun _ => .pure (.refl _) fun _ => rfl
    · refine .bind hlist ?_
      rintro ⟨ts, comma⟩
      exact .pure (by simp) fun h => tupleOf_known h.2
    · refine .plain_bind plain_advance ?_
      intro _
      refine .bind hlist ?_
      rintro ⟨ts, comma⟩
      refine .bind (resultOf_known ih) ?_
      intro result
      refine .pure (by simp) ?_
      rintro ⟨⟨-, hts⟩, hr⟩
      simp_all [Ty.hasUnknown, Ty.anyUnknown_eq_any]
    · exact .throw Abort.noConfusion
    · exact .throw Abort.noConfusion
    · exact failAt_mints _ _ _

theorem type_known : Known type := by
  unfold type
  exact .plain_bind plain_remaining fun _ => typeWithin_known _

theorem param_mints : Mints [] True param (fun _ => []) (fun p => p.2.hasUnknown = false) := by
  unfold param
  refine .plain_bind (plain_acceptKeyword _) ?_
  intro _
  refine .plain_bind plain_expectName ?_
  intro name
  refine .plain_bind (plain_expect _) ?_
  intro _
  refine .bind type_known ?_
  intro t
  exact .pure (by simp) And.right

theorem header_mints (start : Span) :
    Mints [] True (header start) (fun h => [h.id]) Header.Sound := by
  unfold header
  refine .bind freshId_mints ?_
  intro id
  refine .plain_bind plain_advance ?_
  intro _
  refine .plain_bind plain_expectName ?_
  intro name
  refine .bind (parenthesized_mints param_mints) ?_
  rintro ⟨params, comma⟩
  refine .bind (resultOf_known type_known) ?_
  intro result
  refine .plain_bind plain_lastSpan ?_
  intro last
  refine .pure (by simp) ?_
  rintro ⟨⟨-, hparams⟩, hresult⟩
  refine ⟨by simp, ?_⟩
  simp only [Signature.type, Ty.hasUnknown, Ty.anyUnknown_eq_any, hresult, Bool.or_false]
  rw [List.any_eq_false]
  intro t ht
  obtain ⟨p, hp, rfl⟩ := List.mem_map.mp ht
  simp [hparams p hp]

theorem declaration_mints : Mints [] True declaration (fun h => [h.id]) Header.Sound := by
  unfold declaration
  refine .plain_bind plain_span ?_
  intro start
  refine .bind (header_mints start) ?_
  intro h
  refine .plain_bind (plain_expect _) ?_
  intro _
  refine .plain_bind plain_lastSpan ?_
  intro last
  refine .pure (by simp) ?_
  rintro ⟨-, hs⟩
  exact ⟨hs.params, hs.known⟩

theorem declarations_mints (bound : Nat) :
    Mints [] True (declarations bound) (fun hs => hs.map Header.id) (fun hs => ∀ h ∈ hs, h.Sound) := by
  have hnone : Mints [] True (pure [] : Parser (List Header)) (fun hs => hs.map Header.id)
      (fun hs => ∀ h ∈ hs, h.Sound) := by
    refine .pure (.refl _) ?_
    intro _ h hh
    cases hh
  induction bound with
  | zero => exact .throw Abort.noConfusion
  | succ bound ih =>
    unfold declarations
    refine .plain_bind plain_terminal ?_
    intro t
    split
    · exact hnone
    · exact hnone
    · refine .plain_bind plain_remaining ?_
      intro before
      refine .bind (attempt_mints declaration_mints) ?_
      rintro (_ | h)
      · exact .forget (.plain_bind (plain_recoverStatement before) fun _ => ih) And.right
      · refine .bind ih ?_
        intro hs
        refine .pure (by simp) ?_
        rintro ⟨⟨-, hh⟩, hhs⟩ g hg
        rcases List.mem_cons.mp hg with rfl | hg
        · exact hh
        · exact hhs g hg
    · exact failAt_mints _ _ _

theorem foreign_numbered : Numbered foreign Item.nodes := by
  unfold foreign
  refine .plain_bind plain_span ?_
  intro start
  refine .plain_bind plain_advance ?_
  intro _
  refine .plain_bind plain_terminal ?_
  intro t
  extract_lets rest
  have hrest : ∀ abi, Numbered (rest abi) Item.nodes := by
    intro abi
    refine .plain_bind (plain_expect _) ?_
    intro _
    refine .plain_bind plain_remaining ?_
    intro n
    refine .bind (declarations_mints _) ?_
    intro functions
    refine .plain_bind (plain_expect _) ?_
    intro _
    refine .plain_bind plain_lastSpan ?_
    intro last
    refine .pure ?_ ?_
    · simp [Item.nodes, Node.numbers, Item.headers]
    · rintro ⟨-, hs⟩
      simpa [Item.nodes, Node.Sound, Item.headers] using hs
  split
  · exact .plain_bind plain_advance fun _ => hrest _
  · exact hrest _

/-! ## Expressions -/

/-- An expression is closed by taking its own number, behind those of its parts. -/
theorem numbered_of_parts {before : List NodeId} {sound : Prop} {e : NodeId → Span → Expr}
    (parts : List Node) (hb : before.Perm (Ferrite.numbers parts)) (hs : sound → AllSound parts)
    (hn : ∀ id place, (e id place).nodes = .expr (e id place) :: parts)
    (hi : ∀ id place, (e id place).id = id) :
    Mints before sound (do let id ← freshId; return e id (← lastSpan))
      (fun e => Ferrite.numbers e.nodes) (fun e => AllSound e.nodes) := by
  refine .bind freshId_mints ?_
  intro id
  refine .plain_bind plain_lastSpan ?_
  intro last
  refine .pure ?_ ?_
  · rw [hn, numbers_cons, Node.numbers, hi]
    exact (hb.append_right [id]).trans List.perm_append_comm
  · rintro ⟨h, -⟩
    rw [hn, allSound_cons]
    exact ⟨trivial, hs h⟩

/-- The parsers one level deeper give what is numbered. -/
structure Nested.AllNumbered (nested : Nested) : Prop where
  block : Numbered nested.block Block.nodes
  operand : ∀ marks power, Numbered (nested.operand marks power) Expr.nodes
  cond : Numbered nested.cond Cond.nodes

namespace Nested

variable {nested : Nested}

theorem operators_mints (hn : nested.AllNumbered) (marks : List Punct) (power bound : Nat)
    (lhs : Expr) {sound : Prop} (hs : sound → AllSound lhs.nodes) :
    Mints (Ferrite.numbers lhs.nodes) sound (nested.operators marks power bound lhs)
      (fun e => Ferrite.numbers e.nodes) (fun e => AllSound e.nodes) := by
  induction bound generalizing lhs sound with
  | zero => exact .throw Abort.noConfusion
  | succ bound ih =>
    unfold operators
    refine .plain_bind plain_terminal ?_
    intro t
    refine .ite (.pure (.refl _) hs) ?_
    split
    · exact failAt_mints _ _ _
    · exact failAt_mints _ _ _
    · exact .plain_bind plain_span fun _ => .throw Abort.noConfusion
    · split
      · exact .pure (.refl _) hs
      · rename_i op _
        refine .ite (.pure (.refl _) hs) ?_
        refine .plain_bind plain_advance ?_
        intro _
        refine .bind (hn.operand marks op.rightPower) ?_
        intro rhs
        refine .bind freshId_mints ?_
        intro id s₀ s h
        refine ih _ (fun hboth : sound ∧ AllSound rhs.nodes => ?_) s₀ s (h.perm ?_ And.left)
        · obtain ⟨hl, hr⟩ := hboth
          simp [Expr.nodes, Node.Sound, hs hl, hr]
        · simp only [Expr.nodes, numbers_cons, numbers_append, Node.numbers, Expr.id]
          exact List.perm_append_comm

theorem expr_numbered (hn : nested.AllNumbered) (marks : List Punct) :
    Numbered (nested.expr marks) Expr.nodes := hn.operand marks 0

theorem call_numbered (hn : nested.AllNumbered) (start : Span) (callee : Ident) :
    Numbered (nested.call start callee) Expr.nodes := by
  unfold call
  refine .bind (parenthesized_mints (expr_numbered hn _)) ?_
  rintro ⟨args, comma⟩
  refine numbered_of_parts (exprNodes args) ?_ ?_ ?_ ?_
  · rw [exprNodes_eq, Ferrite.numbers, List.flatMap_assoc]
    exact .refl _
  · rintro ⟨-, hargs⟩ n hn
    rw [exprNodes_eq] at hn
    obtain ⟨e, he, hne⟩ := List.mem_flatMap.mp hn
    exact hargs e he n hne
  · intro id place
    rw [Expr.nodes]
  · intro id place
    rfl

theorem group_numbered (hn : nested.AllNumbered) (start : Span) :
    Numbered (nested.group start) Expr.nodes := by
  unfold group
  refine .plain_bind plain_advance ?_
  intro _
  refine .plain_bind (plain_isAt _) ?_
  intro empty
  refine .ite (.plain_bind plain_span fun _ => .throw_bind Abort.noConfusion) ?_
  refine .bind (expr_numbered hn _) ?_
  intro inner
  refine .plain_bind (plain_isAt _) ?_
  intro comma
  refine .ite (.plain_bind plain_span fun _ => .throw_bind Abort.noConfusion) ?_
  refine .plain_bind (plain_expect _) ?_
  intro _
  exact numbered_of_parts inner.nodes (.refl _) And.right (fun _ _ => by rw [Expr.nodes]) fun _ _ => rfl

theorem returning_numbered (hn : nested.AllNumbered) (start : Span) (marks : List Punct) :
    Numbered (nested.returning start marks) Expr.nodes := by
  unfold returning
  refine .plain_bind plain_advance ?_
  intro _
  refine .plain_bind plain_terminal ?_
  intro t
  refine .ite ?_ (.map_bind (expr_numbered hn marks) ?_)
  · refine .pure_bind ?_
    exact numbered_of_parts [] (.refl _) (by simp) (fun _ _ => by rw [Expr.nodes]) fun _ _ => rfl
  · intro e
    exact numbered_of_parts e.nodes (.refl _) And.right (fun _ _ => by rw [Expr.nodes]) fun _ _ => rfl

theorem blockLike_numbered (hn : nested.AllNumbered) : Numbered nested.blockLike Expr.nodes := by
  unfold blockLike
  refine .plain_bind plain_span ?_
  intro start
  refine .plain_bind plain_terminal ?_
  intro t
  split
  · refine .bind hn.block ?_
    intro body
    exact numbered_of_parts body.nodes (.refl _) And.right (fun _ _ => by rw [Expr.nodes]) fun _ _ => rfl
  · refine .bind hn.cond ?_
    intro branches
    exact numbered_of_parts branches.nodes (.refl _) And.right (fun _ _ => by rw [Expr.nodes])
      fun _ _ => rfl
  · refine .plain_bind plain_advance ?_
    intro _
    refine .bind hn.block ?_
    intro body
    exact numbered_of_parts body.nodes (.refl _) And.right (fun _ _ => by rw [Expr.nodes]) fun _ _ => rfl
  · refine .plain_bind plain_advance ?_
    intro _
    refine .bind (expr_numbered hn _) ?_
    intro cond
    refine .bind hn.block ?_
    intro body
    refine numbered_of_parts (cond.nodes ++ body.nodes) (by simp) ?_ (fun _ _ => by rw [Expr.nodes])
      fun _ _ => rfl
    rintro ⟨⟨-, hc⟩, hb⟩
    exact (allSound_append _ _).mpr ⟨hc, hb⟩
  · exact failAt_mints _ _ _

theorem primary_numbered (hn : nested.AllNumbered) (marks : List Punct) :
    Numbered (nested.primary marks) Expr.nodes := by
  unfold primary
  refine .plain_bind plain_span ?_
  intro start
  refine .plain_bind plain_terminal ?_
  intro t
  refine .ite (failAt_mints _ _ _) (.ite (blockLike_numbered hn) ?_)
  split
  · refine .plain_bind plain_advance ?_
    intro _
    refine .bind freshId_mints ?_
    intro id
    exact .pure (by simp [Expr.nodes, Node.numbers, Expr.id]) (by simp [Expr.nodes, Node.Sound])
  · refine .plain_bind plain_advance ?_
    intro _
    refine .plain_bind (plain_isAt _) ?_
    intro open?
    refine .ite (call_numbered hn _ _) (.bind freshId_mints ?_)
    intro id
    exact .pure (by simp [Expr.nodes, Node.numbers, Expr.id]) (by simp [Expr.nodes, Node.Sound])
  · exact group_numbered hn _
  · exact returning_numbered hn _ _
  · exact .throw Abort.noConfusion
  · exact .throw Abort.noConfusion
  · exact .throw Abort.noConfusion
  · exact .throw Abort.noConfusion
  · exact failAt_mints _ _ _

theorem unary_numbered (hn : nested.AllNumbered) (marks : List Punct) :
    Numbered (nested.unary marks) Expr.nodes := by
  unfold unary
  refine .plain_bind plain_terminal ?_
  intro t
  split
  · exact primary_numbered hn marks
  · refine .plain_bind plain_span ?_
    intro start
    refine .plain_bind plain_advance ?_
    intro _
    refine .bind (hn.operand _ _) ?_
    intro operand
    refine .bind freshId_mints ?_
    intro id
    refine .pure ?_ ?_
    · simp only [List.nil_append, Expr.nodes, numbers_cons, Node.numbers, Expr.id]
      exact List.perm_append_comm
    · rintro ⟨⟨-, ho⟩, -⟩
      simp [Expr.nodes, Node.Sound, ho]

theorem binary_numbered (hn : nested.AllNumbered) (marks : List Punct) (power : Nat) :
    Numbered (nested.binary marks power) Expr.nodes := by
  unfold binary
  refine .bind (unary_numbered hn marks) ?_
  intro lhs
  refine .plain_bind plain_remaining ?_
  intro n
  exact operators_mints hn marks power _ lhs And.right

theorem conditions_numbered (hn : nested.AllNumbered) : Numbered nested.conditions Cond.nodes := by
  unfold conditions
  refine .plain_bind plain_advance ?_
  intro _
  refine .bind (expr_numbered hn _) ?_
  intro cond
  refine .bind hn.block ?_
  intro yes
  refine .plain_bind (plain_acceptKeyword _) ?_
  intro more
  refine .ite (.plain_bind plain_terminal fun t => .ite (.bind hn.cond ?_) (.bind hn.block ?_)) ?_
  · intro no
    refine .pure (by simp [Cond.nodes]) ?_
    rintro ⟨⟨⟨-, hc⟩, hy⟩, hno⟩
    simp [Cond.nodes, hc, hy, hno]
  · intro no
    refine .pure (by simp [Cond.nodes]) ?_
    rintro ⟨⟨⟨-, hc⟩, hy⟩, hno⟩
    simp [Cond.nodes, hc, hy, hno]
  · refine .pure (by simp [Cond.nodes]) ?_
    rintro ⟨⟨-, hc⟩, hy⟩
    simp [Cond.nodes, hc, hy]

/-! ## Blocks -/

theorem function_numbered (hn : nested.AllNumbered) : Numbered nested.function Item.nodes := by
  unfold function
  refine .plain_bind plain_span ?_
  intro start
  refine .bind (header_mints start) ?_
  intro h
  refine .bind hn.block ?_
  intro body
  refine .plain_bind plain_lastSpan ?_
  intro last
  refine .pure ?_ ?_
  · simp [Item.nodes, Node.numbers, Item.headers]
  · rintro ⟨⟨-, hh⟩, hb⟩
    have hs : Header.Sound { h with span := start.join last } := ⟨hh.params, hh.known⟩
    simp [Item.nodes, Node.Sound, Item.headers, hs, hb]

theorem item?_mints (hn : nested.AllNumbered) :
    Mints [] True nested.item? (fun o => o.elim [] fun i => Ferrite.numbers i.nodes)
      (fun o => ∀ i, o = some i → AllSound i.nodes) := by
  have hnone : Mints [] True (pure none : Parser (Option Item))
      (fun o => o.elim [] fun i => Ferrite.numbers i.nodes)
      (fun o => ∀ i, o = some i → AllSound i.nodes) := by
    refine .pure (.refl _) ?_
    rintro - i ⟨⟩
  unfold item?
  refine .plain_bind plain_terminal ?_
  intro t
  split
  · refine .map ((function_numbered hn).weaken (fun _ => .refl _) ?_)
    rintro i hi _ ⟨⟩
    exact hi
  · refine .map (foreign_numbered.weaken (fun _ => .refl _) ?_)
    rintro i hi _ ⟨⟩
    exact hi
  · exact .plain_bind plain_span fun _ => .throw Abort.noConfusion
  · exact .ite (.plain_bind plain_span fun _ => .throw Abort.noConfusion) hnone
  · exact hnone

theorem binding_numbered (hn : nested.AllNumbered) : Numbered nested.binding Stmt.nodes := by
  unfold binding
  refine .plain_bind plain_span ?_
  intro start
  refine .bind freshId_mints ?_
  intro id
  refine .plain_bind plain_advance ?_
  intro _
  refine .plain_bind (plain_acceptKeyword _) ?_
  intro _
  refine .plain_bind plain_expectName ?_
  intro name
  refine .plain_bind (plain_accept _) ?_
  intro typed
  extract_lets rest
  have hrest : ∀ declared : Option Ty, Mints [id] (∀ t, declared = some t → t.hasUnknown = false)
      (rest declared) (fun s => Ferrite.numbers s.nodes) (fun s => AllSound s.nodes) := by
    intro declared
    refine .plain_bind (plain_expect _) ?_
    intro _
    refine .bind (expr_numbered hn _) ?_
    intro init
    refine .plain_bind (plain_expect _) ?_
    intro _
    refine .plain_bind plain_lastSpan ?_
    intro last
    refine .pure (by simp [Stmt.nodes, Node.numbers]) ?_
    rintro ⟨hd, hi⟩
    simp only [Stmt.nodes, allSound_cons]
    exact ⟨hd, hi⟩
  refine .ite (.map_bind type_known ?_) (.pure_bind ?_)
  · intro t s₀ s h
    refine hrest (some t) s₀ s (h.perm (by simp) ?_)
    rintro ⟨-, ht⟩ _ ⟨⟩
    exact ht
  · intro s₀ s h
    refine hrest none s₀ s (h.perm (by simp) ?_)
    rintro - _ ⟨⟩

theorem exprStatement_numbered (hn : nested.AllNumbered) :
    Numbered nested.exprStatement Stmt.nodes := by
  unfold exprStatement
  refine .plain_bind plain_span ?_
  intro start
  refine .plain_bind plain_terminal ?_
  intro t
  extract_lets rest
  have hrest : ∀ e : Expr, Mints ([] ++ Ferrite.numbers e.nodes) (True ∧ AllSound e.nodes) (rest e)
      (fun s => Ferrite.numbers s.nodes) (fun s => AllSound s.nodes) := by
    intro e
    refine .plain_bind (plain_accept _) ?_
    intro semi
    refine .plain_bind (plain_isAt _) ?_
    intro closed
    refine .ite (failAt_mints _ _ _) (.plain_bind plain_lastSpan fun last => .pure ?_ ?_)
    · simp [Stmt.nodes, Node.numbers]
    · rintro ⟨-, he⟩
      simp [Stmt.nodes, Node.Sound, he]
  exact .ite (.bind (blockLike_numbered hn) hrest) (.bind (expr_numbered hn _) hrest)

theorem statement_numbered (hn : nested.AllNumbered) : Numbered nested.statement Stmt.nodes := by
  unfold statement
  refine .plain_bind plain_terminal ?_
  intro t
  exact .ite (binding_numbered hn) (exprStatement_numbered hn)

end Nested

namespace Entry

def nodes : Entry → List Node
  | item i => i.nodes
  | stmt s => s.nodes

end Entry

/-- The nodes of entries in the order of the text. -/
def entryNodes (es : List Entry) : List Node := es.flatMap Entry.nodes

/-- A block keeps its items and its statements apart. -/
theorem entryNodes_perm (es : List Entry) :
    (entryNodes es).Perm
      (itemNodes (es.filterMap Entry.item?) ++ stmtNodes (es.filterMap Entry.stmt?)) := by
  induction es with
  | nil => exact .refl _
  | cons e es ih =>
    rw [entryNodes, List.flatMap_cons, ← entryNodes]
    cases e with
    | item i =>
      simp only [Entry.nodes, List.filterMap_cons, Entry.item?, Entry.stmt?, itemNodes,
        List.append_assoc]
      exact ih.append_left _
    | stmt s =>
      simp only [Entry.nodes, List.filterMap_cons, Entry.item?, Entry.stmt?, stmtNodes]
      exact (ih.append_left _).trans (List.perm_append_comm_assoc _ _ _)

theorem tail?_eq_some {es : List Entry} {semi : Bool} {e : Expr} (h : Nested.tail? es semi = some e) :
    ∃ place, es.filterMap Entry.stmt? =
      (es.filterMap Entry.stmt?).dropLast ++ [.expr place e false] := by
  unfold Nested.tail? at h
  split at h
  · rename_i place e' hlast
    split at h
    · cases h
    · injection h with h
      subst h
      obtain ⟨es, rfl⟩ := List.getLast?_eq_some_iff.mp hlast
      exact ⟨place, by simp [Entry.stmt?]⟩
  · cases h

namespace Nested

variable {nested : Nested}

theorem entries_numbered (hn : nested.AllNumbered) (bound : Nat) :
    Numbered (nested.entries bound) entryNodes := by
  have hnone : Numbered (pure []) entryNodes := .pure (.refl _) fun _ => allSound_nil
  induction bound with
  | zero => exact .throw Abort.noConfusion
  | succ bound ih =>
    unfold entries
    refine .plain_bind plain_terminal ?_
    intro t
    split
    · exact hnone
    · exact hnone
    · exact .plain_bind plain_advance fun _ => ih
    · refine .plain_bind plain_remaining ?_
      intro before
      refine .bind (attempt_mints (item?_mints hn)) ?_
      rintro (_ | _ | i)
      · exact .forget (.plain_bind (plain_recoverStatement before) fun _ => ih) And.right
      · refine .bind (attempt_mints (statement_numbered hn)) ?_
        rintro (_ | s)
        · exact .forget (.plain_bind (plain_recoverStatement before) fun _ => ih) And.right
        · refine .bind ih ?_
          intro es
          refine .pure (by simp [entryNodes, Entry.nodes]) ?_
          rintro ⟨⟨-, hs⟩, hes⟩
          exact (allSound_append _ _).mpr ⟨hs, hes⟩
      · refine .bind ih ?_
        intro es
        refine .pure (by simp [entryNodes, Entry.nodes]) ?_
        rintro ⟨⟨-, hi⟩, hes⟩
        exact (allSound_append _ _).mpr ⟨hi i rfl, hes⟩

/-- The nodes of a block are those of its entries, in another order. Where its value was one of the
entries, it is no longer a statement. -/
theorem block_nodes_perm (id : NodeId) (place : Span) (es : List Entry) (semi : Bool) :
    let stmts := es.filterMap Entry.stmt?
    let b : Block := .mk id place (es.filterMap Entry.item?)
      (if (tail? es semi).isSome then stmts.dropLast else stmts) (tail? es semi)
    ∃ inner, b.nodes = .block b :: inner ∧ ((entryNodes es).Perm inner ∨
      ∃ place e, (entryNodes es).Perm (.stmt (.expr place e false) :: inner)) := by
  intro stmts b
  have hperm := entryNodes_perm es
  refine ⟨_, b.nodes_eq, ?_⟩
  cases htail : tail? es semi with
  | none =>
    have hs : b.stmts = stmts := by simp [b, Block.stmts, htail]
    have ht : b.tail = none := htail
    rw [hs, ht, Option.elim, List.append_nil]
    exact .inl hperm
  | some e =>
    obtain ⟨place, hlast⟩ := tail?_eq_some htail
    have hs : b.stmts = stmts.dropLast := by simp [b, Block.stmts, htail]
    have ht : b.tail = some e := htail
    have hstmts : stmtNodes stmts = stmtNodes stmts.dropLast ++ (.stmt (.expr place e false) :: e.nodes) := by
      have h := congrArg stmtNodes hlast
      rw [stmtNodes_append] at h
      simpa [stmtNodes, Stmt.nodes] using h
    rw [hs, ht, Option.elim]
    refine .inr ⟨place, e, hperm.trans ?_⟩
    change (itemNodes (es.filterMap Entry.item?) ++ stmtNodes stmts).Perm _
    rw [hstmts, ← List.append_assoc]
    exact List.perm_middle

/-- What a block carries by itself and in its entries, it carries, if the place of its value does not
matter. -/
theorem block_flatMap_perm {α : Type} {f : Node → List α} (hf : ∀ place e, f (.stmt (.expr place e false)) = [])
    {b : Block} {es : List Entry} {inner : List Node} (hb : b.nodes = .block b :: inner)
    (h : (entryNodes es).Perm inner ∨ ∃ place e, (entryNodes es).Perm (.stmt (.expr place e false) :: inner)) :
    (f (.block b) ++ (entryNodes es).flatMap f).Perm (b.nodes.flatMap f) := by
  rw [hb, List.flatMap_cons]
  refine List.Perm.append_left _ ?_
  rcases h with h | ⟨place, e, h⟩
  · exact h.flatMap_right f
  · have hsame := h.flatMap_right f
    rwa [List.flatMap_cons, hf, List.nil_append] at hsame

theorem block_allSound {b : Block} {es : List Entry} {inner : List Node} (hb : b.nodes = .block b :: inner)
    (h : (entryNodes es).Perm inner ∨ ∃ place e, (entryNodes es).Perm (.stmt (.expr place e false) :: inner))
    (hes : AllSound (entryNodes es)) : AllSound b.nodes := by
  rw [hb, allSound_cons]
  refine ⟨trivial, ?_⟩
  intro n hn
  rcases h with h | ⟨place, e, h⟩
  · exact hes n (h.mem_iff.mpr hn)
  · exact hes n (h.mem_iff.mpr (List.mem_cons_of_mem _ hn))

theorem braced_numbered (hn : nested.AllNumbered) : Numbered nested.braced Block.nodes := by
  unfold braced
  refine .plain_bind plain_span ?_
  intro start
  refine .bind freshId_mints ?_
  intro id
  refine .plain_bind (plain_expect _) ?_
  intro _
  refine .plain_bind plain_remaining ?_
  intro n
  refine .bind (entries_numbered hn _) ?_
  intro es
  refine .plain_bind plain_get ?_
  intro now
  refine .plain_bind (plain_expect _) ?_
  intro _
  refine .plain_bind plain_lastSpan ?_
  intro last
  obtain ⟨inner, hb, hes⟩ := block_nodes_perm id (start.join last) es
    (now.last.map Token.terminal = some (.punct .semi))
  have hnumbers := block_flatMap_perm (f := Node.numbers) (fun _ _ => rfl) hb hes
  exact .pure hnumbers fun h => block_allSound hb hes h.2

end Nested

/-! ## Whole texts -/

theorem level_numbered (bound : Nat) : (level bound).AllNumbered := by
  induction bound with
  | zero => exact ⟨.throw Abort.noConfusion, fun _ _ => .throw Abort.noConfusion, .throw Abort.noConfusion⟩
  | succ bound ih =>
    exact {
      block := Nested.braced_numbered ih
      operand := Nested.binary_numbered ih
      cond := Nested.conditions_numbered ih }

theorem items_numbered {nested : Nested} (hn : nested.AllNumbered) (bound : Nat) :
    Numbered (items nested bound) itemNodes := by
  induction bound with
  | zero => exact .throw Abort.noConfusion
  | succ bound ih =>
    unfold items
    refine .plain_bind plain_isAtEnd ?_
    intro ended
    refine .ite (.pure (.refl _) fun _ => allSound_nil) ?_
    refine .plain_bind plain_remaining ?_
    intro before
    refine .bind (attempt_mints (Nested.item?_mints hn)) ?_
    rintro (_ | _ | i)
    · exact .forget (.plain_bind (plain_recoverItem before) fun _ => ih) And.right
    · refine .bind (unexpected_mints _) ?_
      intro _
      exact .forget (.plain_bind (plain_recoverItem before) fun _ => ih) And.right
    · refine .bind ih ?_
      intro is
      refine .pure (by simp [itemNodes]) ?_
      rintro ⟨⟨-, hi⟩, his⟩
      exact (allSound_append _ _).mpr ⟨hi i rfl, his⟩

theorem program_numbered : Numbered program Program.nodes := by
  unfold program
  refine .plain_bind plain_span ?_
  intro start
  refine .plain_bind plain_remaining ?_
  intro bound
  refine .bind (items_numbered (level_numbered _) _) ?_
  intro is
  refine .plain_bind plain_span ?_
  intro last
  exact .pure (.refl _) And.right

/-- What a whole text was parsed to, as seen from the counter. -/
theorem fresh_of_run {tokens : List Token} {p : Program} {problems : List (Located Problem)}
    (h : run program tokens = ⟨.ok p, problems⟩) :
    ∃ s : State, s.problems.reverse = problems ∧
      Fresh (Ferrite.numbers p.nodes) (AllSound p.nodes) { rest := tokens } s := by
  have hp := program_numbered { rest := tokens } _ (.refl _)
  unfold run at h
  split at h
  · rename_i q s hrun
    cases h
    exact ⟨s, rfl, hp.ok hrun⟩
  · cases h

/-- No two nodes of a parsed program carry the same number. -/
theorem numbers_nodup {tokens : List Token} {p : Program} {problems : List (Located Problem)}
    (h : run program tokens = ⟨.ok p, problems⟩) : (Ferrite.numbers p.nodes).Nodup := by
  obtain ⟨s, -, hfresh⟩ := fresh_of_run h
  exact hfresh.nodup

/-- A program that is parsed without a problem is sound. -/
theorem allSound_of_run {tokens : List Token} {p : Program}
    (h : run program tokens = ⟨.ok p, []⟩) : AllSound p.nodes := by
  obtain ⟨s, hs, hfresh⟩ := fresh_of_run h
  exact hfresh.sound (List.reverse_eq_nil_iff.mp hs)

theorem diagnostic_isError (p : Located Problem) : (Problem.diagnostic p).isError = true := by
  obtain ⟨value, place⟩ := p
  cases value <;> rfl

/-- A parser that reports no error reports nothing. -/
theorem problems_eq_nil {problems : List (Located Problem)}
    (h : ∀ p ∈ problems, (Problem.diagnostic p).isError = false) : problems = [] := by
  refine List.eq_nil_iff_forall_not_mem.mpr ?_
  intro p hp
  exact Bool.noConfusion ((diagnostic_isError p).symm.trans (h p hp))

/-- Different numbers below a bound that is no greater than their count are all of the numbers there. -/
theorem perm_range {ns : List Nat} (hn : ns.Nodup) (hlt : ∀ i ∈ ns, i < ns.length) :
    ns.Perm (List.range ns.length) := by
  have hsub : ns.Subperm (List.range ns.length) := by
    refine List.subperm_of_subset hn ?_
    intro i hi
    exact List.mem_range.mpr (hlt i hi)
  exact hsub.perm_of_length_le (Nat.le_of_eq List.length_range)

/-- The numbers of the functions, blocks, bindings and expressions of a parsed program are pairwise
distinct. If no error was reported, none was lost: they are those below their count. -/
theorem numbers_distinct_dense {tokens : List Token} {p : Program} {problems : List (Located Problem)}
    (h : run program tokens = ⟨.ok p, problems⟩) :
    (Ferrite.numbers p.nodes).Nodup ∧
      ((∀ q ∈ problems, (Problem.diagnostic q).isError = false) →
        (Ferrite.numbers p.nodes).Perm (List.range (Ferrite.numbers p.nodes).length)) := by
  obtain ⟨s, hs, hfresh⟩ := fresh_of_run h
  refine ⟨hfresh.nodup, ?_⟩
  intro hquiet
  have hnone : s.problems = [] := List.reverse_eq_nil_iff.mp (hs.trans (problems_eq_nil hquiet))
  refine perm_range hfresh.nodup ?_
  intro i hi
  have hnext : s.nextId = 0 + (Ferrite.numbers p.nodes).length := hfresh.dense hnone
  rw [← Nat.zero_add (List.length _), ← hnext]
  exact (hfresh.range i hi).2

/-- Numbers of operands come before those of what they are operands of, and after those of the blocks
and functions around them. -/
theorem numbers_distinct_dense_nested : ∃ p,
    run program (Lexer.read 0
        "extern \x7b fn h(x: i32); \x7d fn f() \x7b let a = -1; fn g() \x7b \x7d a \x7d").tokens = ⟨.ok p, []⟩ ∧
      Ferrite.numbers p.nodes = [0, 1, 2, 6, 7, 3, 5, 4, 8] ∧
      (Ferrite.numbers p.nodes).Perm (List.range (Ferrite.numbers p.nodes).length) := by
  have hnumbers : (run program (Lexer.read 0
      "extern \x7b fn h(x: i32); \x7d fn f() \x7b let a = -1; fn g() \x7b \x7d a \x7d").tokens).result.toOption.map
        (fun p => Ferrite.numbers p.nodes) = some [0, 1, 2, 6, 7, 3, 5, 4, 8] := by
    decide +kernel
  have hquiet : (run program (Lexer.read 0
      "extern \x7b fn h(x: i32); \x7d fn f() \x7b let a = -1; fn g() \x7b \x7d a \x7d").tokens).problems = [] := by
    decide +kernel
  cases hrun : run program (Lexer.read 0
      "extern \x7b fn h(x: i32); \x7d fn f() \x7b let a = -1; fn g() \x7b \x7d a \x7d").tokens with
  | mk result problems =>
    rw [hrun] at hnumbers hquiet
    cases hquiet
    cases result with
    | error e => cases hnumbers
    | ok p =>
      refine ⟨p, rfl, Option.some.inj hnumbers, ?_⟩
      exact (numbers_distinct_dense hrun).2 fun q hq => nomatch hq

end Ferrite.Parse
