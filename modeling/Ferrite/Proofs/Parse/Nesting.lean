import Ferrite.Proofs.Lexer.Cover
import Ferrite.Proofs.Parse.Depth
import Ferrite.Proofs.Tree.Number

/-!
What stands in a block was inside the braces of the block, and nothing else's: the recoveries behind
mistakes neither leave the braces they have started in nor stay inside those they have opened. So every
item of a program begins outside all braces, and what stands right inside a block begins one brace
deeper than the block itself.
-/

namespace Ferrite

/-- The places of the items, the statements and the value of a block. -/
def Block.inside (b : Block) : List Span :=
  b.items.map Item.span ++ b.stmts.map Stmt.span ++ b.tail.toList.map Expr.span

namespace Parse

/-- What stands right inside the block begins one brace deeper than the block. -/
def Laid (tokens : List Token) (b : Block) : Prop :=
  ∃ d, depthAt tokens b.span.start = some d ∧ ∀ place ∈ b.inside, depthAt tokens place.start = some (d + 1)

def Orderly (tokens : List Token) (ns : List Node) : Prop := ∀ b, .block b ∈ ns → Laid tokens b

section

variable {tokens : List Token} {ns ms : List Node}

@[simp] theorem orderly_nil : Orderly tokens [] := by simp [Orderly]

@[simp] theorem orderly_expr {e : Expr} : Orderly tokens (.expr e :: ns) ↔ Orderly tokens ns := by simp [Orderly]

@[simp] theorem orderly_stmt {s : Stmt} : Orderly tokens (.stmt s :: ns) ↔ Orderly tokens ns := by simp [Orderly]

@[simp] theorem orderly_item {i : Item} : Orderly tokens (.item i :: ns) ↔ Orderly tokens ns := by simp [Orderly]

@[simp] theorem orderly_block {b : Block} :
    Orderly tokens (.block b :: ns) ↔ Laid tokens b ∧ Orderly tokens ns := by
  simp [Orderly]

@[simp] theorem orderly_append : Orderly tokens (ns ++ ms) ↔ Orderly tokens ns ∧ Orderly tokens ms := by
  simp [Orderly, or_imp, forall_and]

@[simp] theorem orderly_flatMap {α : Type} {as : List α} {nodes : α → List Node} :
    Orderly tokens (as.flatMap nodes) ↔ ∀ a ∈ as, Orderly tokens (nodes a) := by
  simp only [Orderly, List.mem_flatMap]
  exact ⟨fun h a ha b hb => h b ⟨a, ha, hb⟩, fun h b ⟨a, ha, hb⟩ => h a ha b hb⟩

end

/-! ## Constructs -/

/-- At least one token further, with as many braces open. -/
structure Further (tokens : List Token) (d : Nat) (s t : State) : Prop where
  reached : t.At tokens d
  less : t.rest.length < s.rest.length

/-- From one state to another, a construct was parsed that begins at the first one. -/
structure Begins (tokens : List Token) (d : Nat) (s t : State) (place : Span) (ns : List Node) : Prop extends
    Further tokens d s t where
  start : place.start = s.span.start
  orderly : Orderly tokens ns

variable {tokens : List Token} {d : Nat} {s t u : State} {place : Span} {ns : List Node}

namespace Further

theorem moves (h : Further tokens d s t) : Moves tokens d s t := ⟨h.reached, Nat.le_of_lt h.less⟩

theorem ne_nil (h : Further tokens d s t) : s.rest ≠ [] := by
  intro hnil
  have hless := h.less
  rw [hnil] at hless
  exact Nat.not_lt_zero _ hless

theorem trans_moves (h : Further tokens d s t) (h' : Moves tokens d t u) : Further tokens d s u :=
  ⟨h'.reached, Nat.lt_of_le_of_lt h'.le h.less⟩

theorem start_join (h : Further tokens d s t) (hb : Balanced tokens) (hs : s.At tokens d) :
    (s.span.join t.lastSpan).start = s.span.start := hs.start_join h.reached hb h.less

end Further

theorem Moves.further (h : Moves tokens d s t) (h' : Further tokens d t u) : Further tokens d s u :=
  ⟨h'.reached, Nat.lt_of_lt_of_le h'.less h.le⟩

theorem Moves.pass (h : Moves tokens d s t) (ht : Braceless t.terminal) : Further tokens d s t.advance :=
  h.further ⟨h.reached.advance ht.1 ht.2.1 ht.2.2, (advance_passes ht.1).2⟩

namespace Begins

/-- Where a construct begins as many braces are open as behind it. -/
theorem depth (h : Begins tokens d s t place ns) (hb : Balanced tokens) (hs : s.At tokens d) :
    depthAt tokens place.start = some d := by
  rw [h.start]
  exact hs.depth hb h.toFurther.ne_nil

/-- A construct behind a state begins behind it. -/
theorem start_le (h : Begins tokens d t u place ns) (hb : Balanced tokens) (hs : s.At tokens d)
    (ht : Moves tokens d s t) : s.span.start ≤ place.start := by
  rw [h.start]
  exact hs.start_le ht.reached hb ht.le h.toFurther.ne_nil

end Begins

variable {α : Type}

/-- Parsers for what is nested that leave the blocks in it orderly. -/
structure Nested.Lays (tokens : List Token) (nested : Nested) : Prop where
  block : ∀ d s, Parse.Lays s (s.At tokens d) nested.block (fun b t => Begins tokens d s t b.span b.nodes)
    (Moves tokens d s)
  operand : ∀ marks power d s, Parse.Lays s (s.At tokens d) (nested.operand marks power)
    (fun e t => Begins tokens d s t e.span e.nodes) (Moves tokens d s)
  cond : ∀ d s, s.terminal = .keyword .if → Parse.Lays s (s.At tokens d) nested.cond
    (fun c t => Further tokens d s t ∧ Orderly tokens c.nodes) (Moves tokens d s)

/-- An expression that is numbered and ends with the token passed last. -/
theorem closed_lays (make : NodeId → Span → Expr) {pre : Prop} {bad : State → Prop}
    (hnodes : ∀ id place, (make id place).nodes = .expr (make id place) :: ns)
    (hspan : ∀ id place, (make id place).span = place) (hb : Balanced tokens)
    (hpre : pre → s.At tokens d ∧ Further tokens d s t ∧ Orderly tokens ns) :
    Lays t pre (do let id ← freshId; return make id (s.span.join (← lastSpan)))
      (fun e u => Begins tokens d s u e.span e.nodes) bad := by
  refine .fresh (.read (.pure fun h => ?_))
  obtain ⟨hs, ht, hns⟩ := hpre h
  exact {
    reached := ht.reached
    less := ht.less
    start := by
      rw [hspan]
      exact ht.start_join hb hs
    orderly := by
      rw [hnodes, orderly_expr]
      exact hns }

variable {nested : Nested}

namespace Nested

theorem braceless_binary {t : Terminal} {op : BinaryOp} (h : BinaryOp.ofTerminal? t = some op) : Braceless t := by
  refine ⟨?_, ?_, ?_⟩ <;> rintro rfl <;> cases h

theorem braceless_unary {t : Terminal} {op : UnaryOp} (h : UnaryOp.ofTerminal? t = some op) : Braceless t := by
  refine ⟨?_, ?_, ?_⟩ <;> rintro rfl <;> cases h

/-- The operators and right operands behind a left operand, which begins at a state. -/
theorem operators_lays (hb : Balanced tokens) (hn : nested.Lays tokens) (marks : List Punct) (power bound : Nat)
    {d : Nat} {s : State} {t : State} {lhs : Expr} {pre : Prop}
    (hpre : pre → s.At tokens d ∧ Begins tokens d s t lhs.span lhs.nodes) :
    Parse.Lays t pre (nested.operators marks power bound lhs) (fun e u => Begins tokens d s u e.span e.nodes)
      (Moves tokens d s) := by
  induction bound generalizing t lhs pre with
  | zero => exact .throw Abort.noConfusion
  | succ bound ih =>
    have hfail (h : pre) (problems : List (Located Problem)) : Moves tokens d s { t with problems } :=
      (hpre h).2.moves.still
    unfold operators
    refine .read (.ite (fun _ => .pure fun h => (hpre h).2) fun _ => ?_)
    split
    · exact .failAt hfail
    · exact .failAt hfail
    · exact .read (.throw Abort.noConfusion)
    split
    · exact .pure fun h => (hpre h).2
    rename_i op hop
    refine .ite (fun _ => .pure fun h => (hpre h).2) fun _ => .advance ?_
    have ht (h : pre) : Further tokens d s t.advance := (hpre h).2.moves.pass (braceless_binary hop)
    refine .call (hn.operand _ _ d _) (fun h => (ht h).moves) fun rhs u => .fresh (ih ?_)
    rintro ⟨h, hrhs⟩
    obtain ⟨hs, hlhs⟩ := hpre h
    refine ⟨hs, ?_⟩
    exact {
      reached := hrhs.reached
      less := ((ht h).trans_moves hrhs.moves).less
      start := by
        show min lhs.span.start rhs.span.start = s.span.start
        rw [hlhs.start]
        exact Nat.min_eq_left (hrhs.start_le hb hs (ht h).moves)
      orderly := by simpa [Expr.nodes] using ⟨hlhs.orderly, hrhs.orderly⟩ }

theorem operand_stays (hn : nested.Lays tokens) (marks : List Punct) (power : Nat) :
    Stays tokens (nested.operand marks power) fun e => Orderly tokens e.nodes := fun d s =>
  (hn.operand marks power d s).mono (fun h => h) (fun _ _ _ h => ⟨h.moves, h.orderly⟩) fun _ _ h => h

theorem call_lays (hb : Balanced tokens) (hn : nested.Lays tokens) (callee : Ident) {d : Nat} {s t : State}
    {pre : Prop} (hpre : pre → s.At tokens d ∧ Further tokens d s t) :
    Parse.Lays t pre (nested.call s.span callee) (fun e u => Begins tokens d s u e.span e.nodes)
      (Moves tokens d s) := by
  unfold call
  refine .call (parenthesized_stays (operand_stays hn _ _) d t) (fun h => (hpre h).2.moves) fun args u => ?_
  refine closed_lays (fun id place => .call id place callee args.1) (fun _ _ => rfl) (fun _ _ => rfl) hb ?_
  rintro ⟨h, hu, hargs⟩
  obtain ⟨hs, ht⟩ := hpre h
  exact ⟨hs, ht.trans_moves hu, by simpa [exprNodes_eq] using hargs⟩

theorem group_lays (hb : Balanced tokens) (hn : nested.Lays tokens) {d : Nat} {s : State}
    (hopen : s.terminal = .punct .lparen) :
    Parse.Lays s (s.At tokens d) (nested.group s.span) (fun e t => Begins tokens d s t e.span e.nodes)
      (Moves tokens d s) := by
  have hs (h : s.At tokens d) : Moves tokens d s s.advance :=
    (Moves.refl h).advance (hopen ▸ braceless_punct (by decide))
  unfold group
  refine .advance (.read (.ite (fun _ => .read (.throw Abort.noConfusion)) fun _ => ?_))
  refine .call (hn.operand _ _ d _) hs fun inner t => .read (.ite (fun _ => .read (.throw Abort.noConfusion)) ?_)
  intro _
  have ht (h : s.At tokens d ∧ Begins tokens d s.advance t inner.span inner.nodes) : Further tokens d s t :=
    (hs h.1).further h.2.toFurther
  refine .expect (fun hclose => ?_) fun _ h _ => (ht h).moves.still
  refine closed_lays (fun id place => .grouped id place inner) (fun _ _ => rfl) (fun _ _ => rfl) hb fun h => ?_
  exact ⟨h.1, (ht h).moves.pass (hclose ▸ braceless_punct (by decide)), h.2.orderly⟩

theorem returning_lays (hb : Balanced tokens) (hn : nested.Lays tokens) (marks : List Punct) {d : Nat} {s : State}
    (hreturn : s.terminal = .keyword .return) :
    Parse.Lays s (s.At tokens d) (nested.returning s.span marks) (fun e t => Begins tokens d s t e.span e.nodes)
      (Moves tokens d s) := by
  have hs (h : s.At tokens d) : Further tokens d s s.advance := (Moves.refl h).pass (hreturn ▸ braceless_keyword _)
  unfold returning
  refine .advance (.read (.ite (fun _ => ?_) fun _ => ?_))
  · refine closed_lays (fun id place => .ret id place none) (fun _ _ => rfl) (fun _ _ => rfl) hb fun h => ?_
    exact ⟨h, hs h, orderly_nil⟩
  · rw [bind_map_left]
    refine .call (hn.operand _ _ d _) (fun h => (hs h).moves) fun value t => ?_
    refine closed_lays (fun id place => .ret id place (some value)) (fun _ _ => rfl) (fun _ _ => rfl) hb fun h => ?_
    exact ⟨h.1, (hs h.1).trans_moves h.2.moves, h.2.orderly⟩

theorem blockLike_lays (hb : Balanced tokens) (hn : nested.Lays tokens) (d : Nat) (s : State) :
    Parse.Lays s (s.At tokens d) nested.blockLike (fun e t => Begins tokens d s t e.span e.nodes)
      (Moves tokens d s) := by
  unfold blockLike
  refine .read (.read ?_)
  split
  · refine .call (hn.block d s) .refl fun body t => ?_
    refine closed_lays (fun id place => .block id place body) (fun _ _ => rfl) (fun _ _ => rfl) hb ?_
    exact fun h => ⟨h.1, h.2.toFurther, h.2.orderly⟩
  · rename_i hif
    refine .call (hn.cond d s hif) .refl fun branches t => ?_
    refine closed_lays (fun id place => .cond id place branches) (fun _ _ => rfl) (fun _ _ => rfl) hb ?_
    exact fun h => ⟨h.1, h.2.1, h.2.2⟩
  · rename_i hloop
    have hs (h : s.At tokens d) : Moves tokens d s s.advance := (Moves.refl h).advance (hloop ▸ braceless_keyword _)
    refine .advance (.call (hn.block d _) hs fun body t => ?_)
    refine closed_lays (fun id place => .loop id place body) (fun _ _ => rfl) (fun _ _ => rfl) hb ?_
    exact fun h => ⟨h.1, (hs h.1).further h.2.toFurther, h.2.orderly⟩
  · rename_i hwhile
    have hs (h : s.At tokens d) : Moves tokens d s s.advance := (Moves.refl h).advance (hwhile ▸ braceless_keyword _)
    refine .advance (.call (hn.operand _ _ d _) hs fun cond t => ?_)
    refine .call (hn.block d t) (fun h => (hs h.1).trans h.2.moves) fun body u => ?_
    refine closed_lays (fun id place => .while id place cond body) (fun _ _ => rfl) (fun _ _ => rfl) hb ?_
    rintro ⟨⟨h, hcond⟩, hbody⟩
    exact ⟨h, ((hs h).trans hcond.moves).further hbody.toFurther,
      orderly_append.mpr ⟨hcond.orderly, hbody.orderly⟩⟩
  · exact .failAt fun h _ => (Moves.refl h).still

theorem primary_lays (hb : Balanced tokens) (hn : nested.Lays tokens) (marks : List Punct) (d : Nat) (s : State) :
    Parse.Lays s (s.At tokens d) (nested.primary marks) (fun e t => Begins tokens d s t e.span e.nodes)
      (Moves tokens d s) := by
  have hfail (h : s.At tokens d) (problems : List (Located Problem)) : Moves tokens d s { s with problems } :=
    (Moves.refl h).still
  unfold primary
  refine .read (.read (.ite (fun _ => .failAt hfail) fun _ => .ite (fun _ => blockLike_lays hb hn d s) fun _ => ?_))
  split
  · rename_i value hvalue
    have hs (h : s.At tokens d) : Further tokens d s s.advance := (Moves.refl h).pass (hvalue ▸ braceless_literal _)
    exact .advance (.fresh (.pure fun h => { hs h with start := rfl, orderly := by simp [Expr.nodes] }))
  · rename_i text hname
    have hs (h : s.At tokens d) : Further tokens d s s.advance := (Moves.refl h).pass (hname ▸ braceless_name _)
    refine .advance (.read (.ite (fun _ => call_lays hb hn _ fun h => ⟨h, hs h⟩) fun _ => ?_))
    exact .fresh (.pure fun h => { hs h with start := rfl, orderly := by simp [Expr.nodes] })
  · exact group_lays hb hn ‹_›
  · exact returning_lays hb hn marks ‹_›
  · exact .throw Abort.noConfusion
  · exact .throw Abort.noConfusion
  · exact .throw Abort.noConfusion
  · exact .throw Abort.noConfusion
  · exact .failAt hfail

theorem unary_lays (hb : Balanced tokens) (hn : nested.Lays tokens) (marks : List Punct) (d : Nat) (s : State) :
    Parse.Lays s (s.At tokens d) (nested.unary marks) (fun e t => Begins tokens d s t e.span e.nodes)
      (Moves tokens d s) := by
  unfold unary
  refine .read ?_
  split
  · exact primary_lays hb hn marks d s
  · rename_i op hop
    have hs (h : s.At tokens d) : Further tokens d s s.advance := (Moves.refl h).pass (braceless_unary hop)
    refine .read (.advance (.call (hn.operand _ _ d _) (fun h => (hs h).moves) fun operand t => ?_))
    refine .fresh (.pure ?_)
    rintro ⟨h, ht⟩
    exact {
      reached := ht.reached
      less := ((hs h).trans_moves ht.moves).less
      start := Nat.min_eq_left (ht.start_le hb h (hs h).moves)
      orderly := by simpa [Expr.nodes] using ht.orderly }

theorem binary_lays (hb : Balanced tokens) (hn : nested.Lays tokens) (marks : List Punct) (power d : Nat) (s : State) :
    Parse.Lays s (s.At tokens d) (nested.binary marks power) (fun e t => Begins tokens d s t e.span e.nodes)
      (Moves tokens d s) := by
  unfold binary
  refine .call (unary_lays hb hn marks d s) .refl fun lhs t => .read ?_
  exact operators_lays hb hn marks power _ fun h => h

theorem conditions_lays (hn : nested.Lays tokens) (d : Nat) (s : State) (hif : s.terminal = .keyword .if) :
    Parse.Lays s (s.At tokens d) nested.conditions (fun c t => Further tokens d s t ∧ Orderly tokens c.nodes)
      (Moves tokens d s) := by
  have hs (h : s.At tokens d) : Further tokens d s s.advance := (Moves.refl h).pass (hif ▸ braceless_keyword _)
  unfold conditions
  refine .advance (.call (hn.operand _ _ d _) (fun h => (hs h).moves) fun cond t => ?_)
  refine .call (hn.block d t) (fun h => (hs h.1).moves.trans h.2.moves) fun yes u => ?_
  have hu (h : (s.At tokens d ∧ Begins tokens d s.advance t cond.span cond.nodes) ∧
      Begins tokens d t u yes.span yes.nodes) : Further tokens d s u :=
    ((hs h.1.1).trans_moves h.1.2.moves).trans_moves h.2.moves
  refine .acceptKeyword (fun helse => ?_) fun _ => ?_
  · have helse : Braceless u.terminal := helse ▸ braceless_keyword _
    refine .read (.ite (fun hmore => ?_) fun _ => ?_)
    · refine .call (hn.cond d _ hmore) (fun h => (hu h).moves.advance helse) fun no v => .pure fun h => ?_
      refine ⟨((hu h.1).moves.advance helse).further h.2.1, ?_⟩
      simpa [Cond.nodes] using ⟨h.1.1.2.orderly, h.1.2.orderly, h.2.2⟩
    · refine .call (hn.block d _) (fun h => (hu h).moves.advance helse) fun no v => .pure fun h => ?_
      refine ⟨((hu h.1).moves.advance helse).further h.2.toFurther, ?_⟩
      simpa [Cond.nodes] using ⟨h.1.1.2.orderly, h.1.2.orderly, h.2.orderly⟩
  · exact .pure fun h => ⟨hu h, by simpa [Cond.nodes] using ⟨h.1.2.orderly, h.2.orderly⟩⟩

/-! ## Items, statements and blocks -/

theorem function_lays (hb : Balanced tokens) (hn : nested.Lays tokens) (d : Nat) (s : State)
    (hfn : s.terminal = .keyword .fn) :
    Parse.Lays s (s.At tokens d) nested.function (fun i t => Begins tokens d s t i.span i.nodes)
      (Moves tokens d s) := by
  unfold function
  refine .read (.call (header_lays _ hfn) .refl fun h t => ?_)
  refine .call (hn.block d t) (fun h => h.2) fun body u => .read (.pure ?_)
  rintro ⟨⟨h, ht⟩, hu⟩
  have hfurther := ht.further hu.toFurther
  exact {
    reached := hu.reached
    less := hfurther.less
    start := hfurther.start_join hb h
    orderly := by simpa [Item.nodes] using hu.orderly }

end Nested

/-- The functions of a foreign block. Nothing else among them is passed over. -/
theorem declarations_lays (hb : Balanced tokens) (bound d : Nat) (s : State) :
    Lays s (s.At tokens d) (declarations bound)
      (fun _ t => Moves tokens d s t ∧ (t.terminal = .punct .rbrace ∨ t.terminal = .endOfInput)) fun _ => False := by
  induction bound generalizing s with
  | zero => exact .throw Abort.noConfusion
  | succ bound ih =>
    unfold declarations
    refine .read ?_
    split
    · exact .pure fun h => ⟨.refl h, .inl ‹_›⟩
    · exact .pure fun h => ⟨.refl h, .inr ‹_›⟩
    · rename_i hfn
      have hfunction : Lays s (s.At tokens d) declaration (fun _ t => Moves tokens d s t) (Moves tokens d s) :=
        declaration_lays hfn
      refine .read (.step hfunction.attempt (fun h => h) (fun _ _ => False.elim) fun found t => ?_)
      cases found with
      | some h =>
        refine .step (ih t) (fun h => h.2.reached) (fun _ _ => False.elim) fun hs u => .pure fun h => ?_
        exact ⟨h.1.2.trans h.2.1, h.2.2⟩
      | none =>
        refine .recoverStatement hb (by simp [hfn]) (by simp [hfn]) And.left And.right fun u => ?_
        exact (ih u).mono (fun h => h.2.reached) (fun _ _ h hv => ⟨h.2.trans hv.1, hv.2⟩) fun _ _ => False.elim
    · -- the only mistake that is given up between braces
      intro hcalm
      exact absurd rfl (hcalm _ List.mem_cons_self _)

/-- Braces that are open are not left open: the end of input stands outside all of them. -/
theorem Lays.close (hb : Balanced tokens) {β : Type} {pre : Prop} {f : Unit → Parser β} {good : β → State → Prop}
    {bad : State → Prop}
    (hpre : pre → t.At tokens (d + 1) ∧ (t.terminal = .punct .rbrace ∨ t.terminal = .endOfInput))
    (hf : t.terminal = .punct .rbrace → Lays t.advance pre (f ()) good bad) :
    Lays t pre (Parse.expect .rbrace >>= f) good bad := by
  refine .expect hf fun hno h _ => ?_
  obtain ⟨ht, hend⟩ := hpre h
  exact absurd (ht.atEnd hb (hend.resolve_left hno)) (Nat.succ_ne_zero d)

/-- From before an opening brace to behind the closing one. -/
theorem Further.of_braces (hopen : t.terminal = .punct .lbrace) (hclose : u.terminal = .punct .rbrace)
    (hle : t.rest.length ≤ s.rest.length) (hu : Moves tokens (d + 1) t.advance u) : Further tokens d s u.advance := by
  have hopened := (advance_passes (s := t) (by simp [hopen])).2
  have hclosed := (advance_passes (s := u) (by simp [hclose])).2
  have hbetween := hu.le
  exact ⟨hu.reached.leave hclose, by omega⟩

theorem foreign_lays (hb : Balanced tokens) (d : Nat) (s : State) (hforeign : s.terminal = .keyword .foreign) :
    Lays s (s.At tokens d) foreign (fun i t => Begins tokens d s t i.span i.nodes) (Moves tokens d s) := by
  have hs (h : s.At tokens d) : Moves tokens d s s.advance := (Moves.refl h).advance (hforeign ▸ braceless_keyword _)
  have hrest (abi : String) (t : State) : Lays t (s.At tokens d ∧ Moves tokens d s t)
      (do
        expect .lbrace
        let functions ← declarations ((← remaining) + 1)
        expect .rbrace
        return Item.foreign (s.span.join (← lastSpan)) abi functions)
      (fun i u => Begins tokens d s u i.span i.nodes) (Moves tokens d s) := by
    refine .expect (fun hopen => .read ?_) fun _ h _ => h.2.still
    refine .step (declarations_lays hb _ (d + 1) _) (fun h => h.2.reached.enter hopen) (fun _ _ => False.elim)
      fun functions u => ?_
    refine .close hb (fun h => ⟨h.2.1.reached, h.2.2⟩) fun hclose => .read (.pure ?_)
    rintro ⟨⟨h, ht⟩, hu, -⟩
    have hfurther : Further tokens d s u.advance := .of_braces hopen hclose ht.le hu
    exact { hfurther with start := hfurther.start_join hb h, orderly := by simp [Item.nodes] }
  unfold foreign
  refine .read (.advance (.read ?_))
  split
  · rename_i abi habi
    exact .advance ((hrest abi _).mono (fun h => ⟨h, (hs h).advance (habi ▸ braceless_literal _)⟩) (fun _ _ _ h => h)
      fun _ _ h => h)
  · exact (hrest "C" _).mono (fun h => ⟨h, hs h⟩) (fun _ _ _ h => h) fun _ _ h => h

namespace Nested

theorem item?_lays (hb : Balanced tokens) (hn : nested.Lays tokens) (d : Nat) (s : State) :
    Parse.Lays s (s.At tokens d) nested.item?
      (fun found t => found.elim (t = s) fun i => Begins tokens d s t i.span i.nodes) (Moves tokens d s) := by
  unfold item?
  refine .read ?_
  split
  · exact .map (function_lays hb hn d s ‹_›)
  · exact .map (foreign_lays hb d s ‹_›)
  · exact .read (.throw Abort.noConfusion)
  · exact .ite (fun _ => .read (.throw Abort.noConfusion)) fun _ => .pure fun _ => rfl
  · exact .pure fun _ => rfl

/-- A statement begins at the state; if it is an expression, that does too. -/
def Placed (tokens : List Token) (d : Nat) (s : State) (st : Stmt) (t : State) : Prop :=
  Begins tokens d s t st.span st.nodes ∧ ∀ place e semi, st = .expr place e semi → e.span.start = s.span.start

theorem binding_lays (hb : Balanced tokens) (hn : nested.Lays tokens) (d : Nat) (s : State)
    (hlet : s.terminal = .keyword .let) :
    Parse.Lays s (s.At tokens d) nested.binding (Placed tokens d s) (Moves tokens d s) := by
  have hs (h : s.At tokens d) {n : NodeId} : Moves tokens d s (State.advance { s with nextId := n }) :=
    (Moves.refl h).still.advance (show Braceless s.terminal from hlet ▸ braceless_keyword _)
  have hrest (id : NodeId) (name : Ident) (type : Option Ty) (t : State) :
      Parse.Lays t (s.At tokens d ∧ Moves tokens d s t)
      (do
        expect .eq
        let init ← nested.expr [.semi]
        expect .semi
        return Stmt.bind id (s.span.join (← lastSpan)) name type init)
      (Placed tokens d s) (Moves tokens d s) := by
    refine .expect (fun heq => ?_) fun _ h _ => h.2.still
    have ht (h : s.At tokens d ∧ Moves tokens d s t) : Moves tokens d s t.advance :=
      h.2.advance (heq ▸ braceless_punct (by decide))
    refine .call (hn.operand _ _ d _) ht fun init u => .expect (fun hsemi => .read (.pure fun h => ?_)) ?_
    · have hu : Further tokens d s u.advance :=
        ((ht h.1).trans h.2.moves).pass (hsemi ▸ braceless_punct (by decide))
      refine ⟨{ hu with start := hu.start_join hb h.1.1, orderly := ?_ }, fun _ _ _ => Stmt.noConfusion⟩
      simpa [Stmt.nodes] using h.2.orderly
    · exact fun _ h _ => ((ht h.1).trans h.2.moves).still
  have declared (t : State) : Parse.Lays t (t.At tokens d) (some <$> type) (fun _ u => Moves tokens d t u)
      (Moves tokens d t) :=
    .map ((type_stays d t).mono (fun h => h) (fun _ _ _ h => h.1) fun _ _ h => h)
  have hnamed (id : NodeId) (t : State) : Parse.Lays t (s.At tokens d ∧ Moves tokens d s t)
      (do
        let name ← expectName
        let type ← if ← accept .colon then some <$> type else pure none
        expect .eq
        let init ← nested.expr [.semi]
        expect .semi
        return Stmt.bind id (s.span.join (← lastSpan)) name type init)
      (Placed tokens d s) (Moves tokens d s) := by
    refine .call (expectName_stays d t) And.right fun name u => ?_
    have hu (h : (s.At tokens d ∧ Moves tokens d s t) ∧ Moves tokens d t u ∧ True) : Moves tokens d s u :=
      h.1.2.trans h.2.1
    refine .accept (fun hcolon => ?_) fun _ => ?_
    · refine .call (declared _) (fun h => (hu h).advance (hcolon ▸ braceless_punct (by decide))) fun type v => ?_
      refine (hrest id name type v).mono (fun h => ⟨h.1.1.1, ?_⟩) (fun _ _ _ h => h) fun _ _ h => h
      exact ((hu h.1).advance (hcolon ▸ braceless_punct (by decide))).trans h.2
    · exact (hrest id name none u).mono (fun h => ⟨h.1.1, hu h⟩) (fun _ _ _ h => h) fun _ _ h => h
  unfold binding
  refine .read (.fresh (.advance (.acceptKeyword (fun hmut => ?_) fun _ => ?_)))
  · refine (hnamed s.nextId _).mono (fun h => ⟨h, (hs h).advance (hmut ▸ braceless_keyword _)⟩) ?_ fun _ _ h => h
    exact fun _ _ _ h => h
  · exact (hnamed s.nextId _).mono (fun h => ⟨h, hs h⟩) (fun _ _ _ h => h) fun _ _ h => h

theorem exprStatement_lays (hb : Balanced tokens) (hn : nested.Lays tokens) (d : Nat) (s : State) :
    Parse.Lays s (s.At tokens d) nested.exprStatement (Placed tokens d s) (Moves tokens d s) := by
  have hrest (e : Expr) (t : State) : Parse.Lays t (s.At tokens d ∧ Begins tokens d s t e.span e.nodes)
      (do
        let semi ← accept .semi
        if !semi && !e.endsInBlock && !(← isAt .rbrace) then failAt (.unexpected .statementEnd)
        else return .expr (s.span.join (← lastSpan)) e semi)
      (Placed tokens d s) (Moves tokens d s) := by
    have hdone (semi : Bool) (u : State)
        (hu : s.At tokens d ∧ Begins tokens d s t e.span e.nodes → Further tokens d s u) :
        Parse.Lays u (s.At tokens d ∧ Begins tokens d s t e.span e.nodes)
          (do
            if !semi && !e.endsInBlock && !(← isAt .rbrace) then failAt (.unexpected .statementEnd)
            else return .expr (s.span.join (← lastSpan)) e semi)
          (Placed tokens d s) (Moves tokens d s) := by
      refine .read (.ite (fun _ => .failAt fun h _ => (hu h).moves.still) fun _ => .read (.pure fun h => ?_))
      refine ⟨{ hu h with start := (hu h).start_join hb h.1, orderly := by simpa [Stmt.nodes] using h.2.orderly }, ?_⟩
      rintro _ _ _ ⟨⟩
      exact h.2.start
    refine .accept (fun hsemi => hdone true _ fun h => ?_) fun _ => hdone false t fun h => h.2.toFurther
    exact h.2.moves.pass (hsemi ▸ braceless_punct (by decide))
  unfold exprStatement
  refine .read (.read (.ite (fun _ => ?_) fun _ => ?_))
  · exact .call (blockLike_lays hb hn d s) .refl fun e t => hrest e t
  · exact .call (hn.operand _ _ d s) .refl fun e t => hrest e t

theorem statement_lays (hb : Balanced tokens) (hn : nested.Lays tokens) (d : Nat) (s : State) :
    Parse.Lays s (s.At tokens d) nested.statement (Placed tokens d s) (Moves tokens d s) := by
  unfold statement
  exact .read (.ite (binding_lays hb hn d s) fun _ => exprStatement_lays hb hn d s)

end Nested

/-- What stands in a block begins at the depth, and the blocks in it are orderly. -/
def Entry.Lies (tokens : List Token) (d : Nat) : Entry → Prop
  | .item i => depthAt tokens i.span.start = some d ∧ Orderly tokens i.nodes
  | .stmt st => depthAt tokens st.span.start = some d ∧ Orderly tokens st.nodes ∧
      ∀ place e semi, st = .expr place e semi → depthAt tokens e.span.start = some d

theorem Nested.Placed.lies (hb : Balanced tokens) {st : Stmt} (h : Nested.Placed tokens d s st t) (hs : s.At tokens d) :
    (Entry.stmt st).Lies tokens d := by
  refine ⟨h.1.depth hb hs, h.1.orderly, fun place e semi hst => ?_⟩
  rw [h.2 place e semi hst]
  exact hs.depth hb h.1.toFurther.ne_nil

/-- The entries stand at the depth, up to where the braces around them are closed. -/
def Entries (tokens : List Token) (d : Nat) (s : State) (es : List Entry) (t : State) : Prop :=
  (∀ e ∈ es, e.Lies tokens d) ∧ Moves tokens d s t ∧ (t.terminal = .punct .rbrace ∨ t.terminal = .endOfInput)

namespace Nested

theorem entries_lays (hb : Balanced tokens) (hn : nested.Lays tokens) (bound d : Nat) (s : State) :
    Parse.Lays s (s.At tokens d) (nested.entries bound) (Entries tokens d s) fun _ => False := by
  induction bound generalizing s with
  | zero => exact .throw Abort.noConfusion
  | succ bound ih =>
    unfold entries
    refine .read ?_
    split
    · exact .pure fun h => ⟨by simp, .refl h, .inl ‹_›⟩
    · exact .pure fun h => ⟨by simp, .refl h, .inr ‹_›⟩
    · rename_i hsemi
      have hs (h : s.At tokens d) : Moves tokens d s s.advance :=
        (Moves.refl h).advance (hsemi ▸ braceless_punct (by decide))
      refine .advance ((ih _).mono (fun h => (hs h).reached) ?_ fun _ _ h => h)
      exact fun es t h ht => ⟨ht.1, (hs h).trans ht.2.1, ht.2.2⟩
    · rename_i hclose hend hsemi
      -- behind an entry, and behind a mistake
      have hmore {pre : Prop} (e : Entry) (t : State) (hpre : pre → e.Lies tokens d ∧ Moves tokens d s t) :
          Parse.Lays t pre (do return e :: (← nested.entries bound)) (Entries tokens d s) fun _ => False := by
        refine .step (ih t) (fun h => (hpre h).2.reached) (fun _ _ => False.elim) fun es u => .pure ?_
        rintro ⟨h, hes, hu, hdone⟩
        exact ⟨List.forall_mem_cons.mpr ⟨(hpre h).1, hes⟩, (hpre h).2.trans hu, hdone⟩
      have hagain {pre : Prop} (t : State) (hpre : pre → s.At tokens d ∧ Moves tokens d s t) :
          Parse.Lays t pre
            (do
              recoverStatement s.rest.length
              nested.entries bound) (Entries tokens d s) fun _ => False := by
        refine .recoverStatement hb hend hclose (fun h => (hpre h).1) (fun h => (hpre h).2) fun u => ?_
        refine (ih u).mono (fun h => h.2.reached) ?_ fun _ _ => False.elim
        exact fun es v h hv => ⟨hv.1, h.2.trans hv.2.1, hv.2.2⟩
      refine .read (.step (item?_lays hb hn d s).attempt (fun h => h) (fun _ _ => False.elim) fun found t => ?_)
      rcases found with _ | _ | i
      · exact hagain t fun h => h
      · refine .step (statement_lays hb hn d t).attempt (fun h => h.2 ▸ h.1) (fun _ _ => False.elim) fun found u => ?_
        cases found with
        | none => exact hagain u fun ⟨⟨h, ht⟩, hu⟩ => ⟨h, ht ▸ hu⟩
        | some st =>
          refine hmore (.stmt st) u ?_
          rintro ⟨⟨h, ht⟩, hu⟩
          change t = s at ht
          subst ht
          exact ⟨hu.lies hb h, hu.1.moves⟩
      · exact hmore (.item i) t fun h => ⟨⟨h.2.depth hb h.1, h.2.orderly⟩, h.2.moves⟩

end Nested

/-- A block whose entries stand one brace deeper than it does. -/
theorem orderly_of_entries {es : List Entry} {semi : Bool} {id : NodeId} (hplace : depthAt tokens place.start = some d)
    (hes : ∀ e ∈ es, e.Lies tokens (d + 1)) :
    Orderly tokens (Block.mk id place (es.filterMap Entry.item?)
      (if (Nested.tail? es semi).isSome then (es.filterMap Entry.stmt?).dropLast else es.filterMap Entry.stmt?)
      (Nested.tail? es semi)).nodes := by
  have hitems : ∀ i ∈ es.filterMap Entry.item?, (Entry.item i).Lies tokens (d + 1) := fun i hi =>
    hes _ (item_mem_entries hi)
  have hstmts : ∀ st ∈ (if (Nested.tail? es semi).isSome then (es.filterMap Entry.stmt?).dropLast
      else es.filterMap Entry.stmt?), (Entry.stmt st).Lies tokens (d + 1) := fun st hst => hes _ (kept_mem_entries hst)
  have htail : ∀ e ∈ Nested.tail? es semi, depthAt tokens e.span.start = some (d + 1) ∧ Orderly tokens e.nodes := by
    intro e he
    obtain ⟨place, hmem⟩ := mem_of_tail? he
    obtain ⟨-, hnodes, hstart⟩ := hes _ hmem
    exact ⟨hstart _ _ _ rfl, by simpa [Stmt.nodes] using hnodes⟩
  generalize Nested.tail? es semi = tail at hstmts htail
  rw [Block.nodes_eq, orderly_block]
  refine ⟨⟨d, hplace, ?_⟩, ?_⟩
  · intro inner hinner
    simp only [Block.inside, Block.items, Block.stmts, Block.tail, List.mem_append, List.mem_map,
      Option.mem_toList] at hinner
    rcases hinner with (⟨i, hi, rfl⟩ | ⟨st, hst, rfl⟩) | ⟨e, he, rfl⟩
    · exact (hitems i hi).1
    · exact (hstmts st hst).1
    · exact (htail e he).1
  · rw [itemNodes_eq, stmtNodes_eq, orderly_append, orderly_append, orderly_flatMap, orderly_flatMap]
    refine ⟨⟨fun i hi => (hitems i hi).2, fun st hst => (hstmts st hst).2.1⟩, ?_⟩
    cases tail with
    | none => exact orderly_nil
    | some e => exact (htail e rfl).2

namespace Nested

theorem braced_lays (hb : Balanced tokens) (hn : nested.Lays tokens) (d : Nat) (s : State) :
    Parse.Lays s (s.At tokens d) nested.braced (fun b t => Begins tokens d s t b.span b.nodes) (Moves tokens d s) := by
  unfold braced
  refine .read (.fresh (.expect (fun hopen => .read ?_) fun _ h _ => (Moves.refl h).still))
  refine .step (entries_lays hb hn _ (d + 1) _) (fun h => State.At.enter h hopen) (fun _ _ => False.elim)
    fun es t => .get ?_
  refine .close hb (fun h => ⟨h.2.2.1.reached, h.2.2.2⟩) fun hclose => .read (.pure ?_)
  rintro ⟨h, hes, ht, -⟩
  have hfurther : Further tokens d s t.advance := .of_braces hopen hclose (Nat.le_refl _) ht
  have hstart : (s.span.join t.advance.lastSpan).start = s.span.start := hfurther.start_join hb h
  exact { hfurther with start := hstart, orderly := orderly_of_entries (hstart ▸ h.depth hb hfurther.ne_nil) hes }

end Nested

theorem level_lays (hb : Balanced tokens) (bound : Nat) : (level bound).Lays tokens := by
  induction bound with
  | zero =>
    exact {
      block := fun _ _ => .throw Abort.noConfusion
      operand := fun _ _ _ _ => .throw Abort.noConfusion
      cond := fun _ _ _ => .throw Abort.noConfusion }
  | succ bound ih =>
    exact {
      block := Nested.braced_lays hb ih
      operand := Nested.binary_lays hb ih
      cond := Nested.conditions_lays ih }

/-! ## Programs -/

theorem items_lays (hb : Balanced tokens) (hn : nested.Lays tokens) (bound : Nat) (s : State) :
    Lays s (s.At tokens 0) (items nested bound)
      (fun is _ => ∀ i ∈ is, depthAt tokens i.span.start = some 0 ∧ Orderly tokens i.nodes) fun _ => False := by
  induction bound generalizing s with
  | zero => exact .throw Abort.noConfusion
  | succ bound ih =>
    have hagain {pre : Prop} {before : Nat} (t : State) (hpre : pre → t.At tokens 0) :
        Lays t pre
          (do
            recoverItem before
            items nested bound)
          (fun is _ => ∀ i ∈ is, depthAt tokens i.span.start = some 0 ∧ Orderly tokens i.nodes) fun _ => False :=
      .recoverItem hb hpre fun u => (ih u).mono And.right (fun _ _ _ h => h) fun _ _ h => h
    unfold items
    refine .read (.ite (fun _ => .pure fun _ => by simp) fun _ => .read ?_)
    refine .step (Nested.item?_lays hb hn 0 s).attempt (fun h => h) (fun _ _ => False.elim) fun found t => ?_
    rcases found with _ | _ | i
    · exact hagain t fun h => h.2.reached
    · refine .unexpected (hagain _ ?_)
      rintro ⟨h, ht⟩
      change t = s at ht
      exact ht ▸ h
    · refine .step (ih t) (fun h => h.2.reached) (fun _ _ => False.elim) fun is u => .pure ?_
      rintro ⟨⟨h, hi⟩, his⟩
      exact List.forall_mem_cons.mpr ⟨⟨hi.depth hb h, hi.orderly⟩, his⟩

/-- What is read of a text is balanced as soon as its braces are. -/
theorem Balanced.of_read {file : FileId} {text : String} (h : braces 0 (Lexer.read file text).tokens = some 0) :
    Balanced (Lexer.read file text).tokens where
  ordered := Lexer.read_starts file text
  inner := by
    obtain ⟨ts, finish, htokens, -, hts⟩ := Lexer.read_ends file text
    rw [htokens, List.dropLast_concat]
    exact hts
  closed := h

theorem program_lays (hb : Balanced tokens) (s : State) : Lays s (s.At tokens 0) program
    (fun p _ => ∀ i ∈ p.items, depthAt tokens i.span.start = some 0 ∧ Orderly tokens i.nodes) fun _ => False := by
  unfold program
  refine .read (.read (.bind (items_lays hb (level_lays hb _) _ s) fun is t => .read (.pure ?_)))
  exact fun h => h.2

/-- Whatever mistakes a program has, none of its nested functions, statements and values is taken for a
part of what stands around the braces it is in; as long as no foreign block holds anything but
functions. -/
theorem program_nesting {p : Program} {problems : List (Located Problem)} (hb : Balanced tokens)
    (hrun : run program tokens = ⟨.ok p, problems⟩)
    (hcalm : ∀ q ∈ problems, ∀ found, q.value ≠ .unexpected .declaration found) :
    (∀ i ∈ p.items, depthAt tokens i.span.start = some 0) ∧
      ∀ b, .block b ∈ p.nodes → ∃ d, depthAt tokens b.span.start = some d ∧
        ∀ place ∈ b.inside, depthAt tokens place.start = some (d + 1) := by
  have hlays := program_lays hb { rest := tokens }
  unfold run at hrun
  split at hrun
  · rename_i q t h
    cases hrun
    obtain ⟨-, hitems⟩ := hlays.ok h fun q hq => hcalm q (List.mem_reverse.mpr hq)
    have hitems := hitems (Reached.start tokens)
    refine ⟨fun i hi => (hitems i hi).1, fun b hmem => ?_⟩
    rw [Program.nodes, itemNodes_eq] at hmem
    obtain ⟨i, hi, hmem⟩ := List.mem_flatMap.mp hmem
    exact (hitems i hi).2 b hmem
  · cases hrun

/-- Mistakes in a statement, in a nested function, in a foreign one and outside all braces. -/
theorem program_nesting_mistakes : ∃ tokens p problems,
    tokens = (Lexer.read 0
        "fn f() \x7b let = 1; fn g() \x7b ) \x7d extern \x7b fn h(; fn k(); \x7d 2 \x7d ) fn m() \x7b \x7d").tokens ∧
      Balanced tokens ∧ run program tokens = ⟨.ok p, problems⟩ ∧
      problems.map Located.value = [.unexpected .name (.punct .eq), .noExpr (.punct .rparen),
        .unexpected .name (.punct .semi), .unexpected .item (.punct .rparen)] ∧
      (∀ i ∈ p.items, depthAt tokens i.span.start = some 0) ∧
      ∀ b, .block b ∈ p.nodes → ∃ d, depthAt tokens b.span.start = some d ∧
        ∀ place ∈ b.inside, depthAt tokens place.start = some (d + 1) := by
  have hbalanced : Balanced (Lexer.read 0
      "fn f() \x7b let = 1; fn g() \x7b ) \x7d extern \x7b fn h(; fn k(); \x7d 2 \x7d ) fn m() \x7b \x7d").tokens :=
    .of_read (by decide +kernel)
  have hok : (run program (Lexer.read 0
      "fn f() \x7b let = 1; fn g() \x7b ) \x7d extern \x7b fn h(; fn k(); \x7d 2 \x7d ) fn m() \x7b \x7d").tokens
        ).result.toOption.isSome := by
    decide +kernel
  have hvalues : (run program (Lexer.read 0
      "fn f() \x7b let = 1; fn g() \x7b ) \x7d extern \x7b fn h(; fn k(); \x7d 2 \x7d ) fn m() \x7b \x7d").tokens
        ).problems.map Located.value =
        [.unexpected .name (.punct .eq), .noExpr (.punct .rparen), .unexpected .name (.punct .semi),
          .unexpected .item (.punct .rparen)] := by
    decide +kernel
  cases hrun : run program (Lexer.read 0
      "fn f() \x7b let = 1; fn g() \x7b ) \x7d extern \x7b fn h(; fn k(); \x7d 2 \x7d ) fn m() \x7b \x7d").tokens with
  | mk result problems =>
    rw [hrun] at hok hvalues
    cases result with
    | error e => cases hok
    | ok p =>
      refine ⟨_, p, problems, rfl, hbalanced, hrun, hvalues, program_nesting hbalanced hrun fun q hq found heq => ?_⟩
      have hmem : q.value ∈ problems.map Located.value := List.mem_map_of_mem hq
      rw [hvalues, heq] at hmem
      simp at hmem

/-- A foreign block that holds a literal is given up between its braces. What closes it is then taken for
the end of the function around it, and a function nested in that one for an item of the program. -/
theorem program_promotes : ∃ tokens p problems,
    tokens = (Lexer.read 0 "fn f() \x7b extern \x7b 1 \x7d fn g() \x7b \x7d \x7d").tokens ∧ Balanced tokens ∧
      run program tokens = ⟨.ok p, problems⟩ ∧ ∃ i ∈ p.items, depthAt tokens i.span.start = some 1 := by
  have hbalanced : Balanced (Lexer.read 0 "fn f() \x7b extern \x7b 1 \x7d fn g() \x7b \x7d \x7d").tokens :=
    .of_read (by decide +kernel)
  have hdepths : ((run program (Lexer.read 0
      "fn f() \x7b extern \x7b 1 \x7d fn g() \x7b \x7d \x7d").tokens).result.toOption.map fun p =>
        p.items.map fun i => depthAt (Lexer.read 0 "fn f() \x7b extern \x7b 1 \x7d fn g() \x7b \x7d \x7d").tokens
          i.span.start) = some [some 0, some 1] := by
    decide +kernel
  cases hrun : run program (Lexer.read 0 "fn f() \x7b extern \x7b 1 \x7d fn g() \x7b \x7d \x7d").tokens with
  | mk result problems =>
    rw [hrun] at hdepths
    cases result with
    | error e => cases hdepths
    | ok p =>
      refine ⟨_, p, problems, rfl, hbalanced, hrun, ?_⟩
      have hlist : (p.items.map fun i =>
          depthAt (Lexer.read 0 "fn f() \x7b extern \x7b 1 \x7d fn g() \x7b \x7d \x7d").tokens i.span.start) =
            [some 0, some 1] := Option.some.inj hdepths
      have hmem : some 1 ∈ [some 0, some 1] := by decide
      rw [← hlist] at hmem
      obtain ⟨i, hi, hdepth⟩ := List.mem_map.mp hmem
      exact ⟨i, hi, hdepth⟩

end Parse
end Ferrite
