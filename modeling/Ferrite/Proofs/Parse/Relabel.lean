import Ferrite.Parse.Program
import Ferrite.Proofs.Run
import Ferrite.Proofs.Tree.Relabel

/-!
Parsing the same tokens at other places gives the same tree at other places. No parser looks at a
place, and none but `freshId` at the counter of numbers.
-/

namespace Ferrite.Parse

variable (r : Relabel)

def State.relabel (s : State) : State where
  rest := s.rest.map (Token.relabel r)
  last := s.last.map (Token.relabel r)
  nextId := r.number s.nextId
  problems := s.problems.map (Located.relabel r)

def Abort.relabel : Abort → Abort
  | .unsupported construct span => .unsupported construct (r.place span)
  | e => e

def Entry.relabel : Entry → Entry
  | .item i => .item (i.relabel r)
  | .stmt s => .stmt (s.relabel r)

/-- There is a token to name a place by, or the place named without one stays. -/
def State.Placed (s : State) : Prop := r.place default = default ∨ s.rest ≠ [] ∨ s.last ≠ none

/-- From the relabelled state, the second parser does what the first does from the state itself. -/
def Carries {α β : Type} (map : α → β) (p : Parser α) (q : Parser β) : Prop :=
  ∀ s, s.Placed r → Ends p s
    (fun a s' => s'.Placed r ∧ q (s.relabel r) = .ok (map a) (s'.relabel r))
    (fun e s' => s'.Placed r ∧ q (s.relabel r) = .error (e.relabel r) (s'.relabel r))

namespace Carries

variable {r} {α β γ δ : Type} {map : α → β} {map' : γ → δ}

theorem pure {a : α} {b : β} (h : map a = b) :
    Carries r map (pure a : Parser α) (pure b : Parser β) := by
  intro s hs
  subst h
  exact ⟨hs, rfl⟩

theorem throw {e f : Abort} (h : e.relabel r = f) :
    Carries r map (throw e : Parser α) (throw f : Parser β) := by
  intro s hs
  subst h
  exact ⟨hs, rfl⟩

theorem bind {p : Parser α} {q : Parser β} {f : α → Parser γ} {f' : β → Parser δ}
    (hp : Carries r map p q) (hf : ∀ a, Carries r map' (f a) (f' (map a))) :
    Carries r map' (p >>= f) (q >>= f') := by
  intro s hs
  rw [Ends.bind_iff]
  simp only [Bind.bind, EStateM.bind]
  refine (hp s hs).mono ?_ ?_
  · rintro a t - ⟨ht, hq⟩
    rw [hq]
    exact hf a t ht
  · rintro e t - ⟨ht, hq⟩
    rw [hq]
    exact ⟨ht, rfl⟩

theorem map_map {p : Parser α} {q : Parser β} {f : α → γ} {f' : β → δ} (hp : Carries r map p q)
    (hf : ∀ a, map' (f a) = f' (map a)) : Carries r map' (f <$> p) (f' <$> q) :=
  bind hp fun a => pure (hf a)

/-- Both parsers take the same one of two ways. -/
theorem ite {c : Prop} [Decidable c] {p p' : Parser α} {q q' : Parser β} (hp : Carries r map p q)
    (hp' : Carries r map p' q') : Carries r map (if c then p else p') (if c then q else q') := by
  split
  · exact hp
  · exact hp'

end Carries

/-- The parser does the same at other places. -/
abbrev Equivariant {α : Type} (map : α → α) (p : Parser α) : Prop := Carries r map p p

/-! ## The current token -/

@[simp] theorem State.terminal_relabel (s : State) : (s.relabel r).terminal = s.terminal := by
  unfold State.terminal relabel
  cases s.rest <;> rfl

@[simp] theorem State.length_relabel (s : State) : (s.relabel r).rest.length = s.rest.length :=
  List.length_map _

theorem State.advance_relabel (s : State) : (s.relabel r).advance = s.advance.relabel r := by
  unfold State.advance
  cases h : s.rest with
  | nil => simp [relabel, h]
  | cons t ts =>
    have hrest : (s.relabel r).rest = t.relabel r :: ts.map (Token.relabel r) := by simp [relabel, h]
    have hend : (t.relabel r).isEnd = t.isEnd := rfl
    simp only [hrest, hend]
    cases t.isEnd <;> rfl

theorem State.advance_placed {s : State} (hs : s.Placed r) : s.advance.Placed r := by
  refine hs.imp_right fun htokens => ?_
  unfold State.advance
  cases h : s.rest with
  | nil => simpa [h] using htokens
  | cons t ts => cases hend : t.isEnd <;> simp [hend, h]

/-- What is read off the state is read off the relabelled one. -/
theorem reads_equivariant {α : Type} {map : α → α} {f : State → α}
    (h : ∀ s, s.Placed r → f (s.relabel r) = map (f s)) : Equivariant r map (do return f (← get)) := by
  intro s hs
  exact ⟨hs, congrArg (EStateM.Result.ok · _) (h s hs)⟩

theorem modifies_equivariant {f g : State → State} (h : ∀ s, g (s.relabel r) = (f s).relabel r)
    (hplaced : ∀ s, s.Placed r → (f s).Placed r) :
    Carries r id (modify f : Parser Unit) (modify g : Parser Unit) := by
  intro s hs
  exact ⟨hplaced s hs, congrArg (EStateM.Result.ok () ·) (h s)⟩

theorem terminal_equivariant : Equivariant r id terminal :=
  reads_equivariant r fun s _ => s.terminal_relabel r

theorem remaining_equivariant : Equivariant r id remaining :=
  reads_equivariant r fun s _ => s.length_relabel r

theorem isAt_equivariant (p : Punct) : Equivariant r id (isAt p) :=
  reads_equivariant r fun s _ => by rw [s.terminal_relabel, id]

theorem isAtEnd_equivariant : Equivariant r id isAtEnd :=
  reads_equivariant r fun s _ => by rw [s.terminal_relabel, id]

theorem advance_equivariant : Equivariant r id advance :=
  modifies_equivariant r (State.advance_relabel r) fun _ => State.advance_placed r

theorem accept_equivariant (p : Punct) : Equivariant r id (accept p) :=
  .bind (isAt_equivariant r p) fun _ => .ite (.bind (advance_equivariant r) fun _ => .pure rfl) (.pure rfl)

theorem acceptKeyword_equivariant (k : Keyword) : Equivariant r id (acceptKeyword k) :=
  .bind (terminal_equivariant r) fun _ =>
    .ite (.bind (advance_equivariant r) fun _ => .pure rfl) (.pure rfl)

theorem report_carries (problem : Problem) (place : Span) :
    Carries r id (report problem place) (report problem (r.place place)) :=
  modifies_equivariant r (fun _ => rfl) fun _ hs => hs

theorem attempt_equivariant {α : Type} {map : α → α} {p : Parser α} (hp : Equivariant r map p) :
    Equivariant r (Option.map map) (attempt p) := by
  intro s hs
  have hrun := hp s hs
  unfold Ends at hrun
  unfold Ends attempt
  cases h : p s with
  | ok a t =>
    rw [h] at hrun
    exact ⟨hrun.1, by rw [hrun.2]; rfl⟩
  | error e t =>
    rw [h] at hrun
    cases e <;> exact ⟨hrun.1, by rw [hrun.2]; rfl⟩

variable {r}

theorem State.span_relabel {s : State} (hs : s.Placed r) : (s.relabel r).span = r.place s.span := by
  unfold State.Placed at hs
  unfold State.span relabel
  cases hrest : s.rest with
  | cons t ts => rfl
  | nil =>
    cases hlast : s.last with
    | some t => rfl
    | none =>
      have hdefault : r.place default = default := by simpa [hrest, hlast] using hs
      exact hdefault.symm

theorem State.lastSpan_relabel {s : State} (hs : s.Placed r) :
    (s.relabel r).lastSpan = r.place s.lastSpan := by
  unfold State.lastSpan
  have hlast : (s.relabel r).last = s.last.map (Token.relabel r) := rfl
  rw [hlast]
  cases s.last with
  | some t => rfl
  | none => exact State.span_relabel hs

theorem span_equivariant : Equivariant r r.place span :=
  reads_equivariant r fun _ => State.span_relabel

theorem lastSpan_equivariant : Equivariant r r.place lastSpan :=
  reads_equivariant r fun _ => State.lastSpan_relabel

theorem freshId_equivariant (hr : r.Lawful) : Equivariant r r.number freshId := by
  intro s hs
  refine ⟨hs, congrArg (EStateM.Result.ok (r.number s.nextId) ·) ?_⟩
  simp only [State.relabel, hr.succ]

theorem unexpected_equivariant (wanted : Wanted) : Equivariant r id (unexpected wanted) :=
  .bind (terminal_equivariant r) fun _ => .bind span_equivariant fun _ => report_carries r _ _

theorem failAt_equivariant {α β : Type} {map : α → β} (problem : Terminal → Problem) :
    Carries r map (failAt problem : Parser α) (failAt problem : Parser β) :=
  .bind (terminal_equivariant r) fun _ =>
    .bind span_equivariant fun _ => .bind (report_carries r _ _) fun _ => .throw rfl

theorem expect_equivariant (p : Punct) : Equivariant r id (expect p) :=
  .bind (accept_equivariant r p) fun _ => .ite (.pure rfl) (failAt_equivariant _)

theorem expectName_equivariant : Equivariant r (Ident.relabel r) expectName := by
  refine .bind (terminal_equivariant r) ?_
  intro t
  dsimp only [id]
  split
  · exact .bind span_equivariant fun _ => .bind (advance_equivariant r) fun _ => .pure rfl
  · exact failAt_equivariant _

/-! ## Lists in parentheses -/

theorem commaList_equivariant {α : Type} {map : α → α} {element : Parser α}
    (he : Equivariant r map element) (bound : Nat) (comma : Bool) :
    Equivariant r (Prod.map (List.map map) id) (commaList element bound comma) := by
  induction bound generalizing comma with
  | zero => exact .throw rfl
  | succ bound ih =>
    unfold commaList
    refine .bind (isAt_equivariant r _) fun _ => .bind (isAtEnd_equivariant r) fun _ => ?_
    refine .ite (.pure rfl) (.bind he fun x => .bind (accept_equivariant r _) fun _ => ?_)
    exact .ite (.bind (ih true) fun _ => .pure rfl) (.pure rfl)

theorem parenthesized_equivariant {α : Type} {map : α → α} {element : Parser α}
    (he : Equivariant r map element) :
    Equivariant r (Prod.map (List.map map) id) (parenthesized element) :=
  .bind (expect_equivariant _) fun _ => .bind (remaining_equivariant r) fun _ =>
    .bind (commaList_equivariant he _ _) fun _ => .bind (expect_equivariant _) fun _ => .pure rfl

/-! ## Types -/

theorem resultOf_equivariant {type : Parser Ty} (ht : Equivariant r id type) :
    Equivariant r id (resultOf type) :=
  .bind (accept_equivariant r _) fun _ => .ite ht (.pure rfl)

theorem typeWithin_equivariant (bound : Nat) : Equivariant r id (typeWithin bound) := by
  induction bound with
  | zero => exact .throw rfl
  | succ bound ih =>
    have hmap : Prod.map (List.map id) id = (id : List Ty × Bool → List Ty × Bool) := by simp
    have hparams := hmap ▸ parenthesized_equivariant ih
    unfold typeWithin
    refine .bind span_equivariant fun start => .bind (terminal_equivariant r) fun t => ?_
    dsimp only [id]
    split
    · refine .bind (advance_equivariant r) fun _ => ?_
      split
      · exact .pure rfl
      · exact .bind (report_carries r _ _) fun _ => .pure rfl
    · exact .bind (advance_equivariant r) fun _ => .pure rfl
    · exact .bind hparams fun _ => .pure rfl
    · exact .bind (advance_equivariant r) fun _ => .bind hparams fun _ =>
        .bind (resultOf_equivariant ih) fun _ => .pure rfl
    · exact .throw rfl
    · exact .throw rfl
    · exact failAt_equivariant _

theorem type_equivariant : Equivariant r id type :=
  .bind (remaining_equivariant r) fun _ => typeWithin_equivariant _

/-! ## Expressions -/

/-- Parsers that do the same at other places for all that is nested. -/
structure Nested.Equivariant (r : Relabel) (nested : Nested) : Prop where
  block : Parse.Equivariant r (Block.relabel r) nested.block
  operand : ∀ marks power, Parse.Equivariant r (Expr.relabel r) (nested.operand marks power)
  cond : Parse.Equivariant r (Cond.relabel r) nested.cond

namespace Nested

variable {nested : Nested}

theorem operators_carries (hr : r.Lawful) (hn : nested.Equivariant r) (marks : List Punct) (power bound : Nat)
    (lhs : Expr) : Carries r (Expr.relabel r) (nested.operators marks power bound lhs)
      (nested.operators marks power bound (lhs.relabel r)) := by
  induction bound generalizing lhs with
  | zero => exact .throw rfl
  | succ bound ih =>
    unfold operators
    refine .bind (terminal_equivariant r) fun t => .ite (.pure rfl) ?_
    dsimp only [id]
    split
    · exact failAt_equivariant _
    · exact failAt_equivariant _
    · exact .bind span_equivariant fun _ => .throw rfl
    · split
      · exact .pure rfl
      · refine .ite (.pure rfl) (.bind (advance_equivariant r) fun _ => ?_)
        refine .bind (hn.operand marks _) fun rhs => .bind (freshId_equivariant hr) fun id => ?_
        have hspan : (lhs.relabel r).span.join (rhs.relabel r).span =
            r.place (lhs.span.join rhs.span) := by
          rw [Expr.relabel_span, Expr.relabel_span, hr.join]
        rw [hspan]
        exact ih (.binary id (lhs.span.join rhs.span) _ lhs rhs)

/-- A construct that is numbered and ends with the token passed last. -/
theorem closed_carries (hr : r.Lawful) {make make' : NodeId → Span → Expr}
    (hmake : ∀ id last, (make id last).relabel r = make' (r.number id) (r.place last)) :
    Carries r (Expr.relabel r) (do let id ← freshId; return make id (← lastSpan))
      (do let id ← freshId; return make' id (← lastSpan)) :=
  .bind (freshId_equivariant hr) fun id => .bind lastSpan_equivariant fun last =>
    .pure (hmake id last)

theorem call_carries (hr : r.Lawful) (hn : nested.Equivariant r) (start : Span) (callee : Ident) :
    Carries r (Expr.relabel r) (nested.call start callee)
      (nested.call (r.place start) (callee.relabel r)) := by
  refine .bind (parenthesized_equivariant (hn.operand _ _)) fun (args, comma) => ?_
  dsimp only [Prod.map]
  exact closed_carries hr fun id last => by rw [Expr.relabel, hr.join, relabelExprs_eq]

/-- A tuple is met, whatever would come behind it. -/
theorem tuple_carries (hr : r.Lawful) (start : Span) {α : Type} {map : α → α} (rest rest' : Unit → Parser α) :
    Carries r map (do let place ← span; throw (.unsupported .tuple (start.join place)) >>= rest)
      (do let place ← span; throw (.unsupported .tuple ((r.place start).join place)) >>= rest') := by
  refine .bind span_equivariant fun place s hs => ?_
  rw [← hr.join]
  exact ⟨hs, rfl⟩

theorem group_carries (hr : r.Lawful) (hn : nested.Equivariant r) (start : Span) :
    Carries r (Expr.relabel r) (nested.group start) (nested.group (r.place start)) := by
  refine .bind (advance_equivariant r) fun _ => .bind (isAt_equivariant r _) fun _ => ?_
  refine .ite (tuple_carries hr start _ _) ?_
  refine .bind (hn.operand _ _) fun inner => .bind (isAt_equivariant r _) fun _ => ?_
  refine .ite (tuple_carries hr start _ _) (.bind (expect_equivariant _) fun _ => ?_)
  exact closed_carries hr fun _ _ => by rw [Expr.relabel, hr.join]

theorem returning_carries (hr : r.Lawful) (hn : nested.Equivariant r) (start : Span) (marks : List Punct) :
    Carries r (Expr.relabel r) (nested.returning start marks)
      (nested.returning (r.place start) marks) := by
  have hnone : Parse.Equivariant r (Option.map (Expr.relabel r)) (pure none) := .pure rfl
  have hsome : Parse.Equivariant r (Option.map (Expr.relabel r)) (some <$> nested.expr marks) :=
    .map_map (hn.operand _ _) fun _ => rfl
  refine .bind (advance_equivariant r) fun _ => .bind (terminal_equivariant r) fun _ => ?_
  refine .ite (.bind hnone fun value => ?_) (.bind hsome fun value => ?_)
  · exact closed_carries hr fun _ _ => by rw [Expr.relabel_ret, hr.join]
  · exact closed_carries hr fun _ _ => by rw [Expr.relabel_ret, hr.join]

theorem blockLike_equivariant (hr : r.Lawful) (hn : nested.Equivariant r) :
    Parse.Equivariant r (Expr.relabel r) nested.blockLike := by
  refine .bind span_equivariant fun start => .bind (terminal_equivariant r) fun t => ?_
  dsimp only [id]
  split
  · exact .bind hn.block fun _ => closed_carries hr fun _ _ => by rw [Expr.relabel, hr.join]
  · exact .bind hn.cond fun _ => closed_carries hr fun _ _ => by rw [Expr.relabel, hr.join]
  · exact .bind (advance_equivariant r) fun _ => .bind hn.block fun _ =>
      closed_carries hr fun _ _ => by rw [Expr.relabel, hr.join]
  · exact .bind (advance_equivariant r) fun _ => .bind (hn.operand _ _) fun _ => .bind hn.block fun _ =>
      closed_carries hr fun _ _ => by rw [Expr.relabel, hr.join]
  · exact failAt_equivariant _

theorem primary_equivariant (hr : r.Lawful) (hn : nested.Equivariant r) (marks : List Punct) :
    Parse.Equivariant r (Expr.relabel r) (nested.primary marks) := by
  refine .bind span_equivariant fun start => .bind (terminal_equivariant r) fun t => ?_
  dsimp only [id]
  refine .ite (failAt_equivariant _) (.ite (blockLike_equivariant hr hn) ?_)
  split
  · exact .bind (advance_equivariant r) fun _ => .bind (freshId_equivariant hr) fun _ => .pure rfl
  · refine .bind (advance_equivariant r) fun _ => .bind (isAt_equivariant r _) fun _ => ?_
    exact .ite (call_carries hr hn start ⟨_, start⟩) (.bind (freshId_equivariant hr) fun _ => .pure rfl)
  · exact group_carries hr hn start
  · exact returning_carries hr hn start marks
  · exact .throw rfl
  · exact .throw rfl
  · exact .throw rfl
  · exact .throw rfl
  · exact failAt_equivariant _

theorem unary_equivariant (hr : r.Lawful) (hn : nested.Equivariant r) (marks : List Punct) :
    Parse.Equivariant r (Expr.relabel r) (nested.unary marks) := by
  refine .bind (terminal_equivariant r) fun t => ?_
  dsimp only [id]
  split
  · exact primary_equivariant hr hn marks
  · refine .bind span_equivariant fun start => .bind (advance_equivariant r) fun _ => ?_
    refine .bind (hn.operand _ _) fun operand => .bind (freshId_equivariant hr) fun id => .pure ?_
    rw [Expr.relabel, hr.join, Expr.relabel_span]

theorem binary_equivariant (hr : r.Lawful) (hn : nested.Equivariant r) (marks : List Punct) (power : Nat) :
    Parse.Equivariant r (Expr.relabel r) (nested.binary marks power) :=
  .bind (unary_equivariant hr hn marks) fun _ => .bind (remaining_equivariant r) fun _ =>
    operators_carries hr hn marks power _ _

theorem conditions_equivariant (hn : nested.Equivariant r) :
    Parse.Equivariant r (Cond.relabel r) nested.conditions := by
  refine .bind (advance_equivariant r) fun _ => .bind (hn.operand _ _) fun cond => ?_
  refine .bind hn.block fun yes => .bind (acceptKeyword_equivariant r _) fun _ => ?_
  refine .ite (.bind (terminal_equivariant r) fun _ => ?_) (.pure rfl)
  exact .ite (.bind hn.cond fun _ => .pure rfl) (.bind hn.block fun _ => .pure rfl)

end Nested

/-! ## Behind mistakes -/

theorem skipStatement_relabel (depth : Nat) (last : Option Token) (ts : List Token) :
    skipStatement depth (last.map (Token.relabel r)) (ts.map (Token.relabel r)) =
      ((skipStatement depth last ts).1.map (Token.relabel r),
        (skipStatement depth last ts).2.map (Token.relabel r)) := by
  fun_induction skipStatement depth last ts with
  | case1 => rfl
  | _ => simp_all [skipStatement, Token.relabel]

theorem skipItem_relabel (depth : Nat) (last : Option Token) (ts : List Token) :
    skipItem depth (last.map (Token.relabel r)) (ts.map (Token.relabel r)) =
      ((skipItem depth last ts).1.map (Token.relabel r),
        (skipItem depth last ts).2.map (Token.relabel r)) := by
  fun_induction skipItem depth last ts with
  | case1 => rfl
  | _ => simp_all [skipItem, Token.relabel]

/-- A skip passes tokens, or leaves what was there. -/
theorem skipStatement_placed {depth : Nat} {last : Option Token} {ts : List Token} (h : ts ≠ [] ∨ last ≠ none) :
    (skipStatement depth last ts).2 ≠ [] ∨ (skipStatement depth last ts).1 ≠ none := by
  fun_induction skipStatement depth last ts with
  | case1 | case2 | case5 => exact h
  | case3 | case6 => exact .inr (Option.some_ne_none _)
  | _ =>
    rename_i ih
    exact ih (.inr (Option.some_ne_none _))

theorem skipItem_placed {depth : Nat} {last : Option Token} {ts : List Token} (h : ts ≠ [] ∨ last ≠ none) :
    (skipItem depth last ts).2 ≠ [] ∨ (skipItem depth last ts).1 ≠ none := by
  fun_induction skipItem depth last ts with
  | case1 | case2 | case3 | case4 => exact h
  | _ =>
    rename_i ih
    exact ih (.inr (Option.some_ne_none _))

theorem ensureProgress_equivariant (before : Nat) : Equivariant r id (ensureProgress before) :=
  .bind (remaining_equivariant r) fun _ => .ite (advance_equivariant r) (.pure rfl)

theorem recoverStatement_equivariant (before : Nat) : Equivariant r id (recoverStatement before) := by
  refine .bind (modifies_equivariant r (fun s => ?_) fun s hs => ?_) fun _ => ensureProgress_equivariant before
  · simp only [State.relabel, skipStatement_relabel]
  · exact hs.imp_right skipStatement_placed

theorem recoverItem_equivariant (before : Nat) : Equivariant r id (recoverItem before) := by
  refine .bind (modifies_equivariant r (fun s => ?_) fun s hs => ?_) fun _ => ensureProgress_equivariant before
  · simp only [State.relabel, skipItem_relabel]
  · exact hs.imp_right skipItem_placed

/-! ## Items -/

theorem param_equivariant : Equivariant r (Prod.map (Ident.relabel r) id) param :=
  .bind (acceptKeyword_equivariant r _) fun _ => .bind expectName_equivariant fun _ =>
    .bind (expect_equivariant _) fun _ => .bind type_equivariant fun _ => .pure rfl

theorem header_carries (hr : r.Lawful) (start : Span) :
    Carries r (Header.relabel r) (header start) (header (r.place start)) := by
  refine .bind (freshId_equivariant hr) fun id => .bind (advance_equivariant r) fun _ => ?_
  refine .bind expectName_equivariant fun name => ?_
  refine .bind (parenthesized_equivariant param_equivariant) fun (params, comma) => ?_
  refine .bind (resultOf_equivariant type_equivariant) fun result => ?_
  refine .bind lastSpan_equivariant fun last => .pure ?_
  simp [Header.relabel, hr.join]

theorem declaration_equivariant (hr : r.Lawful) : Equivariant r (Header.relabel r) declaration := by
  refine .bind span_equivariant fun start => .bind (header_carries hr start) fun h => ?_
  refine .bind (expect_equivariant _) fun _ => .bind lastSpan_equivariant fun last => .pure ?_
  rw [Header.relabel, hr.join]
  rfl

theorem declarations_equivariant (hr : r.Lawful) (bound : Nat) :
    Equivariant r (List.map (Header.relabel r)) (declarations bound) := by
  induction bound with
  | zero => exact .throw rfl
  | succ bound ih =>
    unfold declarations
    refine .bind (terminal_equivariant r) fun t => ?_
    dsimp only [id]
    split
    · exact .pure rfl
    · exact .pure rfl
    · refine .bind (remaining_equivariant r) fun before => ?_
      refine .bind (attempt_equivariant r (declaration_equivariant hr)) fun found => ?_
      cases found with
      | some h => exact .bind ih fun _ => .pure rfl
      | none => exact .bind (recoverStatement_equivariant before) fun _ => ih
    · exact failAt_equivariant _

theorem foreign_equivariant (hr : r.Lawful) : Equivariant r (Item.relabel r) foreign := by
  have hname : ∀ abi : String, Equivariant r id (pure abi) := fun _ => .pure rfl
  have hrest : ∀ (start : Span) (abi : String), Carries r (Item.relabel r)
      (do
        expect .lbrace
        let functions ← declarations ((← remaining) + 1)
        expect .rbrace
        return .foreign (start.join (← lastSpan)) abi functions)
      (do
        expect .lbrace
        let functions ← declarations ((← remaining) + 1)
        expect .rbrace
        return .foreign ((r.place start).join (← lastSpan)) abi functions) := by
    intro start abi
    refine .bind (expect_equivariant _) fun _ => .bind (remaining_equivariant r) fun _ => ?_
    refine .bind (declarations_equivariant hr _) fun _ => .bind (expect_equivariant _) fun _ => ?_
    refine .bind lastSpan_equivariant fun _ => .pure ?_
    rw [Item.relabel, hr.join]
  refine .bind span_equivariant fun start => .bind (advance_equivariant r) fun _ => ?_
  refine .bind (terminal_equivariant r) fun t => ?_
  dsimp only [id]
  split
  · exact .bind (advance_equivariant r) fun _ => .bind (hname _) fun _ => hrest start _
  · exact .bind (hname _) fun _ => hrest start _

namespace Nested

variable {nested : Nested}

theorem function_equivariant (hr : r.Lawful) (hn : nested.Equivariant r) :
    Parse.Equivariant r (Item.relabel r) nested.function := by
  refine .bind span_equivariant fun start => .bind (header_carries hr start) fun h => ?_
  refine .bind hn.block fun body => .bind lastSpan_equivariant fun last => .pure ?_
  rw [Item.relabel, Header.relabel, hr.join]
  rfl

theorem item?_equivariant (hr : r.Lawful) (hn : nested.Equivariant r) :
    Parse.Equivariant r (Option.map (Item.relabel r)) nested.item? := by
  refine .bind (terminal_equivariant r) fun t => ?_
  dsimp only [id]
  split
  · exact .map_map (function_equivariant hr hn) fun _ => rfl
  · exact .map_map (foreign_equivariant hr) fun _ => rfl
  · exact .bind span_equivariant fun _ => .throw rfl
  · exact .ite (.bind span_equivariant fun _ => .throw rfl) (.pure rfl)
  · exact .pure rfl

/-! ## Statements and blocks -/

theorem binding_equivariant (hr : r.Lawful) (hn : nested.Equivariant r) :
    Parse.Equivariant r (Stmt.relabel r) nested.binding := by
  have hnone : Parse.Equivariant r (id : Option Ty → Option Ty) (pure none) := .pure rfl
  have hsome : Parse.Equivariant r (id : Option Ty → Option Ty) (some <$> type) :=
    .map_map type_equivariant fun _ => rfl
  refine .bind span_equivariant fun start => .bind (freshId_equivariant hr) fun id => ?_
  refine .bind (advance_equivariant r) fun _ => .bind (acceptKeyword_equivariant r _) fun _ => ?_
  refine .bind expectName_equivariant fun name => .bind (accept_equivariant r _) fun _ => ?_
  have hrest : ∀ declared : Option Ty, Carries r (Stmt.relabel r)
      (do
        expect .eq
        let init ← nested.expr [.semi]
        expect .semi
        return .bind id (start.join (← lastSpan)) name declared init)
      (do
        expect .eq
        let init ← nested.expr [.semi]
        expect .semi
        return .bind (r.number id) ((r.place start).join (← lastSpan)) (name.relabel r) declared init) := by
    intro declared
    refine .bind (expect_equivariant _) fun _ => .bind (hn.operand _ _) fun init => ?_
    refine .bind (expect_equivariant _) fun _ => .bind lastSpan_equivariant fun last => .pure ?_
    rw [Stmt.relabel, hr.join]
  exact .ite (.bind hsome hrest) (.bind hnone hrest)

theorem exprStatement_equivariant (hr : r.Lawful) (hn : nested.Equivariant r) :
    Parse.Equivariant r (Stmt.relabel r) nested.exprStatement := by
  refine .bind span_equivariant fun start => .bind (terminal_equivariant r) fun _ => ?_
  have hrest : ∀ e : Expr, Carries r (Stmt.relabel r)
      (do
        let semi ← accept .semi
        if !semi && !e.endsInBlock && !(← isAt .rbrace) then failAt (.unexpected .statementEnd)
        else return .expr (start.join (← lastSpan)) e semi)
      (do
        let semi ← accept .semi
        if !semi && !(e.relabel r).endsInBlock && !(← isAt .rbrace) then
          failAt (.unexpected .statementEnd)
        else return .expr ((r.place start).join (← lastSpan)) (e.relabel r) semi) := by
    intro e
    refine .bind (accept_equivariant r _) fun _ => .bind (isAt_equivariant r _) fun _ => ?_
    rw [e.relabel_endsInBlock]
    refine .ite (failAt_equivariant _) (.bind lastSpan_equivariant fun _ => .pure ?_)
    rw [Stmt.relabel, hr.join]
    rfl
  exact .ite (.bind (blockLike_equivariant hr hn) hrest) (.bind (hn.operand _ _) hrest)

theorem statement_equivariant (hr : r.Lawful) (hn : nested.Equivariant r) :
    Parse.Equivariant r (Stmt.relabel r) nested.statement :=
  .bind (terminal_equivariant r) fun _ => .ite (binding_equivariant hr hn) (exprStatement_equivariant hr hn)

theorem entries_equivariant (hr : r.Lawful) (hn : nested.Equivariant r) (bound : Nat) :
    Parse.Equivariant r (List.map (Entry.relabel r)) (nested.entries bound) := by
  induction bound with
  | zero => exact .throw rfl
  | succ bound ih =>
    unfold entries
    refine .bind (terminal_equivariant r) fun t => ?_
    dsimp only [id]
    split
    · exact .pure rfl
    · exact .pure rfl
    · exact .bind (advance_equivariant r) fun _ => ih
    · refine .bind (remaining_equivariant r) fun before => ?_
      refine .bind (attempt_equivariant r (item?_equivariant hr hn)) fun found => ?_
      rcases found with _ | _ | i
      · exact .bind (recoverStatement_equivariant before) fun _ => ih
      · refine .bind (attempt_equivariant r (statement_equivariant hr hn)) fun found => ?_
        cases found with
        | some s => exact .bind ih fun _ => .pure rfl
        | none => exact .bind (recoverStatement_equivariant before) fun _ => ih
      · exact .bind ih fun _ => .pure rfl

theorem tail?_relabel (es : List Entry) (lastIsSemi : Bool) :
    tail? (es.map (Entry.relabel r)) lastIsSemi = (tail? es lastIsSemi).map (Expr.relabel r) := by
  unfold tail?
  rw [List.getLast?_map]
  rcases es.getLast? with _ | (i | (_ | ⟨place, e, _ | _⟩)) <;> try rfl
  cases lastIsSemi <;> rfl

theorem entries_items_relabel (es : List Entry) :
    (es.map (Entry.relabel r)).filterMap Entry.item? = (es.filterMap Entry.item?).map (Item.relabel r) := by
  have heach : Entry.item? ∘ Entry.relabel r = fun entry => entry.item?.map (Item.relabel r) := by
    funext entry
    cases entry <;> rfl
  rw [List.filterMap_map, List.map_filterMap, heach]

theorem entries_stmts_relabel (es : List Entry) :
    (es.map (Entry.relabel r)).filterMap Entry.stmt? = (es.filterMap Entry.stmt?).map (Stmt.relabel r) := by
  have heach : Entry.stmt? ∘ Entry.relabel r = fun entry => entry.stmt?.map (Stmt.relabel r) := by
    funext entry
    cases entry <;> rfl
  rw [List.filterMap_map, List.map_filterMap, heach]

theorem braced_equivariant (hr : r.Lawful) (hn : nested.Equivariant r) :
    Parse.Equivariant r (Block.relabel r) nested.braced := by
  have hget : Carries r (State.relabel r) (get : Parser State) (get : Parser State) :=
    fun _ hs => ⟨hs, rfl⟩
  refine .bind span_equivariant fun start => .bind (freshId_equivariant hr) fun id => ?_
  refine .bind (expect_equivariant _) fun _ => .bind (remaining_equivariant r) fun _ => ?_
  refine .bind (entries_equivariant hr hn _) fun es => .bind hget fun s => ?_
  refine .bind (expect_equivariant _) fun _ => .bind lastSpan_equivariant fun last => .pure ?_
  have hlast : (s.relabel r).last.map Token.terminal = s.last.map Token.terminal := by
    rw [State.relabel, Option.map_map]
    rfl
  simp only [Block.relabel_mk, hr.join, hlast, tail?_relabel, entries_items_relabel, entries_stmts_relabel,
    Option.isSome_map, List.map_dropLast, apply_ite (List.map (Stmt.relabel r))]

end Nested

/-! ## Whole texts -/

theorem level_equivariant (hr : r.Lawful) (bound : Nat) : (level bound).Equivariant r := by
  induction bound with
  | zero => exact ⟨.throw rfl, fun _ _ => .throw rfl, .throw rfl⟩
  | succ bound ih =>
    exact {
      block := Nested.braced_equivariant hr ih
      operand := Nested.binary_equivariant hr ih
      cond := Nested.conditions_equivariant ih }

theorem items_equivariant (hr : r.Lawful) {nested : Nested} (hn : nested.Equivariant r) (bound : Nat) :
    Equivariant r (List.map (Item.relabel r)) (items nested bound) := by
  induction bound with
  | zero => exact .throw rfl
  | succ bound ih =>
    unfold items
    refine .bind (isAtEnd_equivariant r) fun _ => .ite (.pure rfl) ?_
    refine .bind (remaining_equivariant r) fun before => ?_
    refine .bind (attempt_equivariant r (Nested.item?_equivariant hr hn)) fun found => ?_
    rcases found with _ | _ | i
    · exact .bind (recoverItem_equivariant before) fun _ => ih
    · exact .bind (unexpected_equivariant _) fun _ =>
        .bind (recoverItem_equivariant before) fun _ => ih
    · exact .bind ih fun _ => .pure rfl

theorem program_equivariant (hr : r.Lawful) : Equivariant r (Program.relabel r) program := by
  refine .bind span_equivariant fun start => .bind (remaining_equivariant r) fun bound => ?_
  refine .bind (items_equivariant hr (level_equivariant hr _) _) fun is => ?_
  refine .bind span_equivariant fun last => .pure ?_
  rw [Program.relabel, hr.join]

theorem expression_equivariant (hr : r.Lawful) : Equivariant r (Expr.relabel r) expression := by
  refine .bind (remaining_equivariant r) fun bound => ?_
  refine .bind ((level_equivariant hr _).operand _ _) fun e => .bind (isAtEnd_equivariant r) fun ended => ?_
  exact .ite (.pure rfl) (failAt_equivariant _)

def Outcome.relabel {α : Type} (r : Relabel) (map : α → α) (o : Outcome α) : Outcome α :=
  ⟨(o.result.map map).mapError (Abort.relabel r), o.problems.map (Located.relabel r)⟩

/-- What a run of a parser came to. -/
def Outcome.of {α : Type} : EStateM.Result Abort State α → Outcome α
  | .ok a s => ⟨.ok a, s.problems.reverse⟩
  | .error e s => ⟨.error e, s.problems.reverse⟩

theorem run_eq {α : Type} (p : Parser α) (tokens : List Token) : run p tokens = .of (p { rest := tokens }) := by
  unfold run
  cases p { rest := tokens } <;> rfl

theorem Outcome.of_relabel {α : Type} {map : α → α} {p : Parser α} (hp : Equivariant r map p) {s : State}
    (hs : s.Placed r) : Outcome.of (p (s.relabel r)) = (Outcome.of (p s)).relabel r map := by
  have hrun := hp s hs
  unfold Ends at hrun
  cases h : p s with
  | ok a t =>
    rw [h] at hrun
    rw [hrun.2]
    simp [Outcome.of, Outcome.relabel, State.relabel, Except.map, Except.mapError]
  | error e t =>
    rw [h] at hrun
    rw [hrun.2]
    simp [Outcome.of, Outcome.relabel, State.relabel, Except.map, Except.mapError]

/-- What comes of a parse of relabelled tokens. -/
theorem run_relabel {α : Type} {map : α → α} {p : Parser α} (hp : Equivariant r map p)
    (hnumber : r.number 0 = 0) (tokens : List Token) (hplaced : State.Placed r { rest := tokens }) :
    run p (tokens.map (Token.relabel r)) = (run p tokens).relabel r map := by
  have hstart : State.relabel r { rest := tokens } = { rest := tokens.map (Token.relabel r) } := by
    simp [State.relabel, hnumber]
  rw [run_eq, run_eq, ← Outcome.of_relabel hp hplaced, hstart]

end Ferrite.Parse
