import Ferrite.Proofs.Parse.Relabel
import Ferrite.Proofs.Parse.Takes

/-!
What the grammar spells is parsed: each phrase is taken as a whole, up to numbers and places, by a
parser of enough levels. A phrase of so many tokens needs at most twice as many levels.
-/

namespace Ferrite.Parse

/-! ## Types -/

/-- The tokens are taken for the type, where no arrow comes behind them. -/
structure TypeRun (t : Ty) (ts : List Token) : Prop where
  starts : first ts ≠ .punct .rparen ∧ first ts ≠ .endOfInput
  takes : ∀ bound rest, ts.length ≤ bound → first rest ≠ .punct .arrow →
    Takes (typeWithin bound) ts rest (· = t)

def TypeTaken : TypePhrase → List Token → Prop
  | .type t, ts => TypeRun t ts
  | .result t, ts => ∀ bound rest, ts.length ≤ bound → first rest ≠ .punct .arrow →
      Takes (resultOf (typeWithin bound)) ts rest (· = t)
  | .types comma list, ts => Commas TypeRun comma list ts

/-- Types in parentheses. -/
theorem types_takes {list : List Ty × Bool} {l r : Token} {ts : List Token} (hl : l.terminal = .punct .lparen)
    (h : Commas TypeRun false list ts) (hr : r.terminal = .punct .rparen) {bound : Nat}
    (hbound : ts.length ≤ bound) (rest : List Token) :
    Takes (parenthesized (typeWithin bound)) (l :: (ts ++ [r])) rest (· = list) := by
  refine (parenthesized_takes Eq (fun _ _ h => h.starts) hl h hr fun t us rest h hus hrest => ?_).mono ?_
  · have harrow : first rest ≠ .punct .arrow := by rcases hrest with hrest | hrest <;> simp [hrest]
    exact (h.takes bound rest (Nat.le_trans hus hbound) harrow).mono fun _ => Eq.symm
  · rintro found ⟨hsame, hlast⟩
    exact Prod.ext (List.forall₂_eq_eq_eq ▸ hsame).symm hlast

theorem TypeSpelled.taken {phrase : TypePhrase} {ts : List Token} (h : TypeSpelled phrase ts) :
    TypeTaken phrase ts := by
  induction h with
  | @name tok text ty htok hty =>
    refine ⟨by simp [htok], fun bound rest hbound hrest => ?_⟩
    obtain ⟨bound, rfl⟩ := Nat.exists_eq_succ_of_ne_zero (Nat.ne_zero_of_lt hbound)
    refine .silent .span fun start _ => .dispatch ?_
    rw [show first ([tok] ++ rest) = .name text from htok]
    refine (Takes.advance (htok ▸ Terminal.noConfusion)).last fun _ _ => ?_
    simp only [hty]
    exact .pure rfl
  | @never tok htok =>
    refine ⟨by simp [htok], fun bound rest hbound hrest => ?_⟩
    obtain ⟨bound, rfl⟩ := Nat.exists_eq_succ_of_ne_zero (Nat.ne_zero_of_lt hbound)
    refine .silent .span fun start _ => .dispatch ?_
    rw [show first ([tok] ++ rest) = .punct .not from htok]
    exact (Takes.advance (htok ▸ Terminal.noConfusion)).last fun _ _ => .pure rfl
  | @tuple l r list ts hl _ hr ih =>
    refine ⟨by simp [hl], fun bound rest hbound hrest => ?_⟩
    simp only [List.length_cons, List.length_append] at hbound
    obtain ⟨bound, rfl⟩ := Nat.exists_eq_succ_of_ne_zero (Nat.ne_zero_of_lt hbound)
    refine .silent .span fun start _ => .dispatch ?_
    rw [show first (l :: (ts ++ [r]) ++ rest) = .punct .lparen from hl]
    refine (types_takes hl ih hr (by omega) rest).last fun found hfound => ?_
    exact .pure (by rw [hfound])
  | @function f l r list result ts rs hf hl _ hr _ ih ih' =>
    refine ⟨by simp [hf], fun bound rest hbound hrest => ?_⟩
    simp only [List.length_cons, List.length_append] at hbound
    obtain ⟨bound, rfl⟩ := Nat.exists_eq_succ_of_ne_zero (Nat.ne_zero_of_lt hbound)
    refine .silent .span fun start _ => .dispatch ?_
    rw [show first (f :: l :: (ts ++ r :: rs) ++ rest) = .keyword .fn from hf]
    refine .token (.advance (hf ▸ Terminal.noConfusion)) fun _ _ => ?_
    rw [show l :: (ts ++ r :: rs) = l :: (ts ++ [r]) ++ rs by simp]
    refine (types_takes hl ih hr (by omega) _).bind fun found hfound => ?_
    refine (ih' bound rest (by omega) hrest).last fun t ht => ?_
    exact .pure (by rw [hfound, ht])
  | noResult =>
    intro bound rest _ hrest
    refine .silent (.accept_not hrest) fun b hb => ?_
    rw [if_neg (by simp [hb])]
    exact .pure rfl
  | @result a t ts ha _ ih =>
    intro bound rest hbound hrest
    refine .token (.accept ha) fun b hb => ?_
    rw [if_pos hb]
    exact ih.takes bound rest (Nat.le_of_succ_le hbound) hrest
  | nil => exact .nil
  | last _ ih => exact .last ih
  | cons _ hc _ ih ih' => exact .cons ih hc ih'

theorem type_takes {t : Ty} {ts rest : List Token} (h : TypeSpelled (.type t) ts)
    (hrest : first rest ≠ .punct .arrow) : Takes type ts rest (· = t) :=
  .remaining fun n hn => h.taken.takes (n + 1) rest (Nat.le_succ_of_le hn) hrest

theorem result_takes {t : Ty} {ts rest : List Token} (h : TypeSpelled (.result t) ts)
    (hrest : first rest ≠ .punct .arrow) : Takes (resultOf type) ts rest (· = t) := by
  cases h with
  | noResult =>
    refine .silent (.accept_not hrest) fun b hb => ?_
    rw [if_neg (by simp [hb])]
    exact .pure rfl
  | result ha h =>
    refine .token (.accept ha) fun b hb => ?_
    rw [if_pos hb]
    exact type_takes h hrest

/-! ## Expressions -/

/-- What an expression can start with. -/
def startsExpr : Terminal → Bool
  | .literal _ | .name _ => true
  | .punct p => p ∈ [.lparen, .minus, .not, .lbrace]
  | .keyword k => k ∈ [.return, .if, .loop, .while]
  | .endOfInput => false

theorem stops_eq_false {t : Terminal} {marks : List Punct} (ht : startsExpr t = true) (hm : Closing marks)
    (hbrace : .lbrace ∈ marks → t ≠ .punct .lbrace) : stops marks t = false := by
  cases t with
  | punct p =>
    have hout : p ∉ marks := by
      intro hmem
      have hin := hm p hmem
      simp only [startsExpr, decide_eq_true_eq, List.mem_cons, List.not_mem_nil, or_false] at ht hin
      rcases ht with rfl | rfl | rfl | rfl
      · simp at hin
      · simp at hin
      · simp at hin
      · exact hbrace hmem rfl
    simpa [stops] using hout
  | endOfInput => cases ht
  | _ => rfl

/-- Behind an expression comes a mark that ends it, or an operator that is no part of it. -/
def Behind (marks : List Punct) (e : Expr) (rest : List Token) : Prop :=
  stops marks (first rest) = true ∨ ∃ op : BinaryOp, first rest = .punct op.punct ∧ e.ClosedBefore op

/-- The tokens are taken for the expression. At first they lead to the loop over the operators behind
it, where it is the left operand of those. -/
structure ExprRun (e : Expr) (ts : List Token) : Prop where
  starts : startsExpr (first ts) = true
  brace : first ts = .punct .lbrace → e.OpensBlock
  blockStart : e.endsInBlock = true → Nested.startsBlockLike (first ts) = true
  loop : ∀ n marks power rest (s : State), 2 * ts.length ≤ n → Closing marks → e.AtLeast power →
    (.lbrace ∈ marks → ¬e.OpensBlock) → Behind marks e rest → s.rest = ts ++ rest →
      ∃ lhs s' bound, (level n).binary marks power s = (level n).operators marks power bound lhs s' ∧
        Passes ts s s' ∧ s'.problems = s.problems ∧ rest.length < bound ∧
          lhs.relabel .bare = e.relabel .bare
  blockLike : e.endsInBlock = true → ∀ n rest, 2 * ts.length ≤ n → first rest ≠ .keyword .else →
    Takes (level n).blockLike ts rest fun e' => e'.relabel .bare = e.relabel .bare

theorem operators_stops {nested : Nested} {marks : List Punct} {power bound : Nat} {lhs : Expr} {s : State}
    (h : stops marks s.terminal = true) : nested.operators marks power (bound + 1) lhs s = .ok lhs s := by
  rw [Nested.operators, terminal_bind, if_pos h]
  rfl

/-- At an operator the loop looks at its power. -/
theorem operators_at {nested : Nested} {marks : List Punct} {power bound : Nat} {lhs : Expr} {s : State}
    {op : BinaryOp} (hs : s.terminal = .punct op.punct) (hm : Closing marks) :
    nested.operators marks power (bound + 1) lhs s =
      (if op.leftPower < power then return lhs
      else do
        advance
        let rhs ← nested.operand marks op.rightPower
        let id ← freshId
        nested.operators marks power bound (.binary id (lhs.span.join rhs.span) op lhs rhs)) s := by
  rw [Nested.operators, terminal_bind, hs, if_neg (by simp [hm.stops_op])]
  cases op <;> rfl

theorem atLeast_of_closedBefore {e : Expr} {op : BinaryOp} {power : Nat} (h : e.ClosedBefore op)
    (hpower : power ≤ op.leftPower) : e.AtLeast power := by
  cases e with
  | binary id span inner lhs rhs =>
    have hinner : op.leftPower < inner.rightPower := h.1
    refine Nat.le_trans hpower ?_
    cases inner with
    | assign => cases op <;> simp [BinaryOp.leftPower, BinaryOp.rightPower] at hinner
    | _ => exact Nat.le_of_lt_succ hinner
  | _ => trivial

namespace ExprRun

variable {e : Expr} {ts : List Token}

/-- As an operand, where the operators behind it hold less tightly. -/
theorem operand (h : ExprRun e ts) {n : Nat} {marks : List Punct} {power : Nat} {rest : List Token}
    (hn : 2 * ts.length ≤ n) (hm : Closing marks) (hpower : e.AtLeast power)
    (hopens : .lbrace ∈ marks → ¬e.OpensBlock)
    (hbehind : stops marks (first rest) = true ∨
      ∃ op : BinaryOp, first rest = .punct op.punct ∧ e.ClosedBefore op ∧ op.leftPower < power) :
    Takes ((level (n + 1)).operand marks power) ts rest fun e' => e'.relabel .bare = e.relabel .bare := by
  intro s hs
  have hcloses : Behind marks e rest := hbehind.imp id fun ⟨op, hop, hclosed, _⟩ => ⟨op, hop, hclosed⟩
  obtain ⟨lhs, s', bound, hrun, hpass, hproblems, hbound, hlhs⟩ :=
    h.loop n marks power rest s hn hm hpower hopens hcloses hs
  have hrest : s'.rest = rest := List.append_cancel_left (hpass.rest.symm.trans hs)
  obtain ⟨bound, rfl⟩ := Nat.exists_eq_succ_of_ne_zero (Nat.ne_zero_of_lt hbound)
  refine ⟨lhs, s', hrun.trans ?_, hpass, hproblems, hlhs⟩
  rcases hbehind with hstops | ⟨op, hop, -, hless⟩
  · exact operators_stops (by rwa [terminal_eq_first hrest])
  · rw [operators_at ((terminal_eq_first hrest).trans hop) hm, if_pos hless]
    rfl

/-- An expression between marks. -/
theorem expr (h : ExprRun e ts) {n : Nat} {marks : List Punct} {rest : List Token}
    (hn : 2 * ts.length < n) (hm : Closing marks) (hopens : .lbrace ∈ marks → ¬e.OpensBlock)
    (hstops : stops marks (first rest) = true) :
    Takes ((level n).expr marks) ts rest fun e' => e'.relabel .bare = e.relabel .bare := by
  obtain ⟨n, rfl⟩ := Nat.exists_eq_succ_of_ne_zero (Nat.ne_zero_of_lt hn)
  refine h.operand (Nat.le_of_lt_succ hn) hm ?_ hopens (.inl hstops)
  cases e with
  | binary => exact Nat.zero_le _
  | _ => trivial

end ExprRun

/-- What is no operator of two operands leads to the loop as a whole. -/
theorem loop_of_unary {e : Expr} {ts : List Token} {n power : Nat} {marks : List Punct} {rest : List Token}
    {s : State} (h : Takes ((level n).unary marks) ts rest fun e' => e'.relabel .bare = e.relabel .bare)
    (hs : s.rest = ts ++ rest) :
    ∃ lhs s' bound, (level n).binary marks power s = (level n).operators marks power bound lhs s' ∧
      Passes ts s s' ∧ s'.problems = s.problems ∧ rest.length < bound ∧
        lhs.relabel .bare = e.relabel .bare := by
  obtain ⟨lhs, s', hrun, hpass, hproblems, hlhs⟩ := h s hs
  have hrest : s'.rest = rest := List.append_cancel_left (hpass.rest.symm.trans hs)
  refine ⟨lhs, s', s'.rest.length + 1, ?_, hpass, hproblems, by rw [hrest]; exact Nat.lt_succ_self _, hlhs⟩
  simp only [Nested.binary, Bind.bind, EStateM.bind, hrun]
  rfl

/-- A number, and the place up to the token passed last. -/
theorem closed_takes {make : NodeId → Span → Expr} {rest : List Token} {good : Expr → Prop}
    (h : ∀ id place, good (make id place)) :
    Takes (do let id ← freshId; return make id (← lastSpan)) [] rest good :=
  .silent .freshId fun id _ => .silent .lastSpan fun place _ => .pure (h id place)

/-- What starts like no unary operator is read as a primary expression. -/
theorem primary_takes {nested : Nested} {marks : List Punct} {ts rest : List Token} {good : Expr → Prop}
    {t : Terminal} (ht : first (ts ++ rest) = t) (hunary : UnaryOp.ofTerminal? t = none)
    (h : ∀ start, Takes
      (if stops marks t then failAt .noExpr
      else if Nested.startsBlockLike t then nested.blockLike
      else match t with
        | .literal value => do
            advance
            return .literal (← freshId) start value
        | .name text => do
            advance
            if ← isAt .lparen then nested.call start ⟨text, start⟩
            else return .path (← freshId) start ⟨text, start⟩
        | .punct .lparen => nested.group start
        | .keyword .return => nested.returning start marks
        | .keyword .match => throw (.unsupported (.expr .match) start)
        | .keyword .break => throw (.unsupported (.expr .break) start)
        | .keyword .continue => throw (.unsupported (.expr .continue) start)
        | .punct .lbracket => throw (.unsupported .array start)
        | _ => failAt .noExpr) ts rest good) :
    Takes (nested.unary marks) ts rest good := by
  refine .dispatch ?_
  rw [ht, hunary]
  refine .silent .span fun start _ => .dispatch ?_
  rw [ht]
  exact h start

theorem literal_run {t : Token} {id : NodeId} {span : Span} {value : Literal}
    (ht : t.terminal = .literal value) : ExprRun (.literal id span value) [t] where
  starts := by simp [ht, startsExpr]
  brace h := by simp [ht] at h
  blockStart h := by cases h
  blockLike h := by cases h
  loop n marks power rest s _ _ _ _ _ hs := by
    refine loop_of_unary (primary_takes ht rfl fun start => ?_) hs
    refine (Takes.advance (ht ▸ Terminal.noConfusion)).last fun _ _ => .silent .freshId fun _ _ => ?_
    exact .pure rfl

theorem path_run {t : Token} {id : NodeId} {span : Span} {name : Ident} (ht : t.terminal = .name name.text) :
    ExprRun (.path id span name) [t] where
  starts := by simp [ht, startsExpr]
  brace h := by simp [ht] at h
  blockStart h := by cases h
  blockLike h := by cases h
  loop n marks power rest s _ hm _ _ hbehind hs := by
    have hparen : first rest ≠ .punct .lparen := by
      intro h
      rcases hbehind with hstops | ⟨op, hop, -⟩
      · have hmem : Punct.lparen ∈ marks := by simpa [h, stops] using hstops
        have hin := hm _ hmem
        simp at hin
      · rw [h] at hop
        cases op <;> cases hop
    refine loop_of_unary (primary_takes ht rfl fun start => ?_) hs
    refine (Takes.advance (ht ▸ Terminal.noConfusion)).last fun _ _ => .silent (.isAt _) fun b hb => ?_
    rw [if_neg (by simp [hb, hparen])]
    exact .silent .freshId fun _ _ => .pure rfl

theorem grouped_run {l r : Token} {id : NodeId} {span : Span} {e : Expr} {ts : List Token}
    (hl : l.terminal = .punct .lparen) (h : ExprRun e ts) (hr : r.terminal = .punct .rparen) :
    ExprRun (.grouped id span e) (l :: (ts ++ [r])) where
  starts := by simp [hl, startsExpr]
  brace h := by simp [hl] at h
  blockStart h := by cases h
  blockLike h := by cases h
  loop n marks power rest s hn hm _ _ _ hs := by
    have hmarks : Closing [.rparen, .comma] := by simp [Closing]
    have hlparen : stops marks (.punct .lparen) = false := stops_eq_false rfl hm fun _ => by simp
    simp only [List.length_cons, List.length_append] at hn
    refine loop_of_unary (primary_takes hl rfl fun start => ?_) hs
    rw [if_neg (by simp [hlparen]), if_neg (by simp [Nested.startsBlockLike])]
    refine .token (.advance (hl ▸ Terminal.noConfusion)) fun _ _ => .silent (.isAt _) fun b hb => ?_
    have hne : first ts ≠ .endOfInput := fun hend => by
      have hstarts := h.starts
      rw [hend] at hstarts
      cases hstarts
    have hfirst : first (ts ++ [r] ++ rest) = first ts := by rw [List.append_assoc, first_append hne]
    have hno : b = false := by
      rw [hb, hfirst, decide_eq_false_iff_not]
      intro hparen
      have hstarts := h.starts
      rw [hparen] at hstarts
      cases hstarts
    rw [if_neg (by simp [hno])]
    refine (h.expr (by omega) hmarks (by simp) (by simp [hr, stops])).bind fun inner hinner => ?_
    refine .silent (.isAt _) fun b hb => ?_
    rw [if_neg (by simp [hb, hr])]
    refine (Takes.expect hr).last fun _ _ => closed_takes fun id place => ?_
    rw [Expr.relabel, hinner]
    rfl

theorem unary_run {t : Token} {id : NodeId} {span : Span} {op : UnaryOp} {e : Expr} {ts : List Token}
    (ht : UnaryOp.ofTerminal? t.terminal = some op) (h : ExprRun e ts) (he : e.AtLeast op.power) :
    ExprRun (.unary id span op e) (t :: ts) where
  starts := by
    rw [first_cons]
    cases hterminal : t.terminal with
    | punct p =>
      rw [hterminal] at ht
      cases p with
      | minus | not => simp [startsExpr]
      | _ => cases ht
    | _ => rw [hterminal] at ht; cases ht
  brace h := by
    rw [first_cons] at h
    rw [h] at ht
    cases ht
  blockStart h := by cases h
  blockLike h := by cases h
  loop n marks power rest s hn hm _ hopens hbehind hs := by
    rw [List.length_cons] at hn
    obtain ⟨n, rfl⟩ := Nat.exists_eq_succ_of_ne_zero (by omega : n ≠ 0)
    refine loop_of_unary ?_ hs
    refine .dispatch ?_
    rw [List.cons_append, first_cons, ht]
    have hne : t.terminal ≠ .endOfInput := fun h => by
      rw [h] at ht
      cases ht
    refine .silent .span fun start _ => .token (.advance hne) fun _ _ => ?_
    have hweak : ∀ op' : BinaryOp, op'.leftPower < op.power := by
      intro op'
      cases op' <;> simp [BinaryOp.leftPower, UnaryOp.power]
    refine (h.operand (by omega) hm he hopens ?_).last fun operand hoperand => ?_
    · exact hbehind.imp (fun h => h) fun ⟨op', hop, hclosed⟩ => ⟨op', hop, hclosed, hweak op'⟩
    · refine .silent .freshId fun id _ => .pure ?_
      rw [Expr.relabel, hoperand]
      rfl

theorem ExprRun.ne_end {e : Expr} {ts : List Token} (h : ExprRun e ts) : first ts ≠ .endOfInput := by
  intro hend
  have hstarts := h.starts
  rw [hend] at hstarts
  cases hstarts

theorem binary_run {t : Token} {id : NodeId} {span : Span} {op : BinaryOp} {lhs rhs : Expr}
    {ts us : List Token} (hlhs : ExprRun lhs ts) (ht : t.terminal = .punct op.punct) (hrhs : ExprRun rhs us)
    (hclosed : lhs.ClosedBefore op) (hpower : rhs.AtLeast op.rightPower) :
    ExprRun (.binary id span op lhs rhs) (ts ++ t :: us) where
  starts := by
    rw [first_append hlhs.ne_end]
    exact hlhs.starts
  brace h := by
    rw [first_append hlhs.ne_end] at h
    exact .inl (hlhs.brace h)
  blockStart h := by cases h
  blockLike h := by cases h
  loop n marks power rest s hn hm hp hopens hbehind hs := by
    rw [List.length_append, List.length_cons] at hn
    obtain ⟨n, rfl⟩ := Nat.exists_eq_succ_of_ne_zero (by omega : n ≠ 0)
    have hop : first (t :: us ++ rest) = .punct op.punct := ht
    obtain ⟨lhs', s₁, bound, hrun, hpass, hproblems, hbound, hsame⟩ :=
      hlhs.loop (n + 1) marks power (t :: us ++ rest) s (by omega) hm (atLeast_of_closedBefore hclosed hp)
        (fun hmem h => hopens hmem (.inl h)) (.inr ⟨op, hop, hclosed⟩) (by rw [hs, List.append_assoc])
    have hrest : s₁.rest = t :: us ++ rest :=
      List.append_cancel_left (hpass.rest.symm.trans (hs.trans (List.append_assoc ..)))
    rw [List.length_append, List.length_cons] at hbound
    obtain ⟨bound, rfl⟩ := Nat.exists_eq_succ_of_ne_zero (Nat.ne_zero_of_lt hbound)
    have hbehind' : stops marks (first rest) = true ∨
        ∃ op' : BinaryOp, first rest = .punct op'.punct ∧ rhs.ClosedBefore op' ∧
          op'.leftPower < op.rightPower :=
      hbehind.imp (fun h => h) fun ⟨op', hop', hless, hclosed'⟩ => ⟨op', hop', hclosed', hless⟩
    -- the operator and its right operand are passed, and the loop goes on behind them
    let step : Parser Expr := do
      advance
      let rhs ← (level (n + 1)).operand marks op.rightPower
      let id ← freshId
      return .binary id (lhs'.span.join rhs.span) op lhs' rhs
    have hstep : Takes step (t :: us) rest fun e =>
        e.relabel .bare = (Expr.binary id span op lhs rhs).relabel .bare := by
      refine .token (.advance (ht ▸ Terminal.noConfusion)) fun _ _ => ?_
      refine (hrhs.operand (by omega) hm hpower (fun hmem h => hopens hmem (.inr h)) hbehind').last ?_
      intro rhs' hrhs'
      refine .silent .freshId fun id _ => .pure ?_
      rw [Expr.relabel, hsame, hrhs']
      rfl
    obtain ⟨e', s', hrun', hpass', hproblems', he'⟩ := hstep s₁ hrest
    refine ⟨e', s', bound, hrun.trans ?_, hpass.trans hpass', hproblems'.trans hproblems, by omega, he'⟩
    rw [operators_at ((terminal_eq_first hrest).trans hop) hm, if_neg (Nat.not_lt.mpr hp)]
    have hgo : (step >>= fun e => (level (n + 1)).operators marks power bound e) s₁ =
        (level (n + 1)).operators marks power bound e' s' := by
      simp only [Bind.bind, EStateM.bind, hrun']
    rw [← hgo]
    simp only [step, bind_assoc, pure_bind]

theorem Commas.flag {α : Type} {element : α → List Token → Prop} {comma last : Bool} {xs : List α}
    {ts : List Token} (h : Commas element comma (xs, last) ts) (comma' : Bool) :
    ∃ last', Commas element comma' (xs, last') ts := by
  cases h with
  | nil => exact ⟨comma', .nil⟩
  | last h => exact ⟨false, .last h⟩
  | cons h hc hs => exact ⟨last, .cons h hc hs⟩

theorem map_eq_of_forall₂ {α β : Type} {f : α → β} {xs ys : List α}
    (h : List.Forall₂ (fun x y => f y = f x) xs ys) : ys.map f = xs.map f := by
  induction h with
  | nil => rfl
  | cons h _ ih => rw [List.map_cons, List.map_cons, h, ih]

theorem call_run {n l r : Token} {id : NodeId} {span : Span} {callee : Ident} {args : List Expr}
    {ts : List Token} {last : Bool} (hn : n.terminal = .name callee.text) (hl : l.terminal = .punct .lparen)
    (h : Commas ExprRun false (args, last) ts) (hr : r.terminal = .punct .rparen) :
    ExprRun (.call id span callee args) (n :: l :: (ts ++ [r])) where
  starts := by simp [hn, startsExpr]
  brace h := by simp [hn] at h
  blockStart h := by cases h
  blockLike h := by cases h
  loop m marks power rest s hm _ _ _ _ hs := by
    have hmarks : Closing [.comma, .rparen] := by simp [Closing]
    simp only [List.length_cons, List.length_append] at hm
    refine loop_of_unary (primary_takes hn rfl fun start => ?_) hs
    refine .token (.advance (hn ▸ Terminal.noConfusion)) fun _ _ => .silent (.isAt _) fun b hb => ?_
    rw [if_pos (by simp [hb, hl])]
    refine (parenthesized_takes (fun e e' => e'.relabel .bare = e.relabel .bare) ?_ hl h hr ?_).last ?_
    · intro e us he
      refine ⟨fun hparen => ?_, he.ne_end⟩
      have hstarts := he.starts
      rw [hparen] at hstarts
      cases hstarts
    · intro e us rest he hus hrest
      refine he.expr (by omega) hmarks (by simp) ?_
      rcases hrest with hrest | hrest <;> simp [hrest, stops]
    · rintro ⟨found, _⟩ ⟨hsame, -⟩
      refine closed_takes fun id place => ?_
      rw [Expr.relabel, Expr.relabel, relabelExprs_eq, relabelExprs_eq, map_eq_of_forall₂ hsame]
      rfl

/-- What ends an expression is no `else`. -/
theorem Behind.ne_else {marks : List Punct} {e : Expr} {rest : List Token} (h : Behind marks e rest) :
    first rest ≠ .keyword .else := by
  intro helse
  rcases h with hstops | ⟨op, hop, -⟩
  · rw [helse] at hstops
    cases hstops
  · rw [hop] at helse
    cases helse

theorem Behind.stops_ret {marks : List Punct} {id : NodeId} {span : Span} {value : Option Expr}
    {rest : List Token} (h : Behind marks (.ret id span value) rest) : stops marks (first rest) = true :=
  h.resolve_right fun ⟨_, _, hclosed⟩ => hclosed

theorem Closing.statement {marks : List Punct} (h : Closing marks) : Closing (.semi :: .rbrace :: marks) := by
  intro p hp
  simp only [List.mem_cons] at hp
  rcases hp with rfl | rfl | hp
  · simp
  · simp
  · exact h p hp

theorem retNone_run {t : Token} {id : NodeId} {span : Span} (ht : t.terminal = .keyword .return) :
    ExprRun (.ret id span none) [t] where
  starts := by simp [ht, startsExpr]
  brace h := by simp [ht] at h
  blockStart h := by cases h
  blockLike h := by cases h
  loop n marks power rest s _ _ _ _ hbehind hs := by
    refine loop_of_unary (primary_takes ht rfl fun start => ?_) hs
    refine .token (.advance (ht ▸ Terminal.noConfusion)) fun _ _ => .dispatch ?_
    have hstops : stops (.semi :: .rbrace :: marks) (first ([] ++ rest)) = true := by
      have hrest := hbehind.stops_ret
      rw [List.nil_append]
      cases hterminal : first rest with
      | punct p =>
        rw [hterminal] at hrest
        simp only [stops, List.contains_cons, Bool.or_eq_true] at hrest ⊢
        exact .inr (.inr hrest)
      | endOfInput => rfl
      | _ => rw [hterminal] at hrest; cases hrest
    rw [if_pos hstops]
    refine Takes.silent (.pure rfl) fun value hvalue => closed_takes fun id place => ?_
    rw [← hvalue]
    rfl

theorem retSome_run {t : Token} {id : NodeId} {span : Span} {value : Expr} {ts : List Token}
    (ht : t.terminal = .keyword .return) (h : ExprRun value ts) :
    ExprRun (.ret id span (some value)) (t :: ts) where
  starts := by simp [ht, startsExpr]
  brace h := by simp [ht] at h
  blockStart h := by cases h
  blockLike h := by cases h
  loop n marks power rest s hn hm _ hopens hbehind hs := by
    rw [List.length_cons] at hn
    refine loop_of_unary (primary_takes ht rfl fun start => ?_) hs
    refine .token (.advance (ht ▸ Terminal.noConfusion)) fun _ _ => .dispatch ?_
    have hgoes : stops (.semi :: .rbrace :: marks) (first (ts ++ rest)) = false := by
      rw [first_append h.ne_end]
      refine stops_eq_false h.starts hm.statement fun hmem hbrace => ?_
      exact hopens (by simpa using hmem) (h.brace hbrace)
    rw [if_neg (by simp [hgoes])]
    have hvalue : Takes (some <$> (level n).expr marks) ts rest fun found =>
        found.map (Expr.relabel .bare) = some (value.relabel .bare) :=
      (h.expr (by omega) hm hopens hbehind.stops_ret).map fun _ => congrArg some
    refine hvalue.last fun found hfound => closed_takes fun id place => ?_
    rw [Expr.relabel_ret, hfound]
    rfl

/-! ## Expressions that end with a block -/

theorem blockLike_run {e : Expr} {ts : List Token}
    (hstart : Nested.startsBlockLike (first ts) = true) (hbrace : first ts = .punct .lbrace → e.OpensBlock)
    (h : ∀ n rest, 2 * ts.length ≤ n → first rest ≠ .keyword .else →
      Takes (level n).blockLike ts rest fun e' => e'.relabel .bare = e.relabel .bare) : ExprRun e ts := by
  have hstarts : startsExpr (first ts) = true := by
    revert hstart
    cases first ts with
    | punct p => cases p <;> simp [Nested.startsBlockLike, startsExpr]
    | keyword k => cases k <;> simp [Nested.startsBlockLike, startsExpr]
    | _ => simp [Nested.startsBlockLike]
  have hunary : UnaryOp.ofTerminal? (first ts) = none := by
    revert hstart
    cases first ts with
    | punct p => cases p <;> simp [Nested.startsBlockLike, UnaryOp.ofTerminal?]
    | _ => simp [UnaryOp.ofTerminal?]
  have hne : first ts ≠ .endOfInput := fun hend => by
    rw [hend] at hstarts
    cases hstarts
  refine ⟨hstarts, hbrace, fun _ => hstart, fun n marks power rest s hn hm _ hopens hbehind hs => ?_,
    fun _ => h⟩
  refine loop_of_unary (primary_takes (first_append hne) hunary fun start => ?_) hs
  have hgoes : stops marks (first ts) = false :=
    stops_eq_false hstarts hm fun hmem hfirst => hopens hmem (hbrace hfirst)
  rw [if_neg (by simp [hgoes]), if_pos hstart]
  exact h n rest hn hbehind.ne_else

/-- The tokens are taken for the block. -/
structure BlockRun (b : Block) (ts : List Token) : Prop where
  starts : first ts = .punct .lbrace
  takes : ∀ n rest, 2 * ts.length ≤ n + 1 →
    Takes (level n).braced ts rest fun b' => b'.relabel .bare = b.relabel .bare

/-- The tokens are taken for the conditions. -/
structure CondRun (c : Cond) (ts : List Token) : Prop where
  starts : first ts = .keyword .if
  takes : ∀ n rest, 2 * ts.length ≤ n + 1 → first rest ≠ .keyword .else →
    Takes (level n).conditions ts rest fun c' => c'.relabel .bare = c.relabel .bare

theorem block_run {id : NodeId} {span : Span} {body : Block} {ts : List Token} (h : BlockRun body ts) :
    ExprRun (.block id span body) ts := by
  refine blockLike_run (by rw [h.starts]; rfl) (fun _ => trivial) fun n rest hn _ => ?_
  have hne : first ts ≠ .endOfInput := by rw [h.starts]; exact Terminal.noConfusion
  have hlength : 0 < ts.length := List.length_pos_of_ne_nil fun hnil => hne (by rw [hnil]; rfl)
  obtain ⟨n, rfl⟩ := Nat.exists_eq_succ_of_ne_zero (by omega : n ≠ 0)
  refine .silent .span fun start _ => .dispatch ?_
  rw [first_append hne, h.starts]
  refine Takes.last (h.takes n rest hn) fun body' hbody => closed_takes fun id place => ?_
  rw [Expr.relabel, hbody]
  rfl

theorem loop_run {t : Token} {id : NodeId} {span : Span} {body : Block} {ts : List Token}
    (ht : t.terminal = .keyword .loop) (h : BlockRun body ts) : ExprRun (.loop id span body) (t :: ts) := by
  refine blockLike_run (by simp [ht, Nested.startsBlockLike]) (by simp [ht]) fun n rest hn _ => ?_
  rw [List.length_cons] at hn
  obtain ⟨n, rfl⟩ := Nat.exists_eq_succ_of_ne_zero (by omega : n ≠ 0)
  refine .silent .span fun start _ => .dispatch ?_
  rw [List.cons_append, first_cons, ht]
  refine .token (.advance (ht ▸ Terminal.noConfusion)) fun _ _ => ?_
  refine Takes.last (h.takes n rest (by omega)) fun body' hbody => closed_takes fun id place => ?_
  rw [Expr.relabel, hbody]
  rfl

theorem BlockRun.ne_end {b : Block} {ts : List Token} (h : BlockRun b ts) : first ts ≠ .endOfInput := by
  rw [h.starts]
  exact Terminal.noConfusion

theorem BlockRun.first_append {b : Block} {ts : List Token} (h : BlockRun b ts) (rest : List Token) :
    first (ts ++ rest) = .punct .lbrace := by
  rw [Parse.first_append h.ne_end, h.starts]

/-- A condition ends before its block. -/
theorem condition_takes {cond : Expr} {ts rest : List Token} {n : Nat} (h : ExprRun cond ts)
    (hopens : ¬cond.OpensBlock) (hn : 2 * ts.length < n) (hrest : first rest = .punct .lbrace) :
    Takes ((level n).expr [.lbrace]) ts rest fun e => e.relabel .bare = cond.relabel .bare :=
  h.expr hn (by simp [Closing]) (fun _ => hopens) (by simp [hrest, stops])

theorem while_run {t : Token} {id : NodeId} {span : Span} {cond : Expr} {body : Block} {ts us : List Token}
    (ht : t.terminal = .keyword .while) (hcond : ExprRun cond ts) (hopens : ¬cond.OpensBlock)
    (hbody : BlockRun body us) : ExprRun (.while id span cond body) (t :: (ts ++ us)) := by
  refine blockLike_run (by simp [ht, Nested.startsBlockLike]) (by simp [ht]) fun n rest hn _ => ?_
  rw [List.length_cons, List.length_append] at hn
  obtain ⟨n, rfl⟩ := Nat.exists_eq_succ_of_ne_zero (by omega : n ≠ 0)
  refine .silent .span fun start _ => .dispatch ?_
  rw [List.cons_append, first_cons, ht]
  refine .token (.advance (ht ▸ Terminal.noConfusion)) fun _ _ => ?_
  refine Takes.bind (condition_takes hcond hopens (by omega) (hbody.first_append rest)) fun cond' hcond' => ?_
  refine Takes.last (hbody.takes n rest (by omega)) fun body' hbody' => closed_takes fun id place => ?_
  rw [Expr.relabel, hcond', hbody']
  rfl

theorem cond_run {id : NodeId} {span : Span} {branches : Cond} {ts : List Token} (h : CondRun branches ts) :
    ExprRun (.cond id span branches) ts := by
  have hne : first ts ≠ .endOfInput := by rw [h.starts]; exact Terminal.noConfusion
  have hlength : 0 < ts.length := List.length_pos_of_ne_nil fun hnil => hne (by rw [hnil]; rfl)
  refine blockLike_run (by rw [h.starts]; rfl) (by simp [h.starts]) fun n rest hn helse => ?_
  obtain ⟨n, rfl⟩ := Nat.exists_eq_succ_of_ne_zero (by omega : n ≠ 0)
  refine .silent .span fun start _ => .dispatch ?_
  rw [first_append hne, h.starts]
  refine Takes.last (h.takes n rest hn helse) fun branches' hbranches => closed_takes fun id place => ?_
  rw [Expr.relabel, hbranches]
  rfl

/-! ## Conditions -/

section

variable {t e : Token} {cond : Expr} {yes : Block} {ts us : List Token}

theorem only_run (ht : t.terminal = .keyword .if) (hcond : ExprRun cond ts) (hopens : ¬cond.OpensBlock)
    (hyes : BlockRun yes us) : CondRun (.only cond yes) (t :: (ts ++ us)) where
  starts := ht
  takes n rest hn helse := by
    rw [List.length_cons, List.length_append] at hn
    obtain ⟨n, rfl⟩ := Nat.exists_eq_succ_of_ne_zero (by omega : n ≠ 0)
    refine .token (.advance (ht ▸ Terminal.noConfusion)) fun _ _ => ?_
    refine Takes.bind (condition_takes hcond hopens (by omega) (hyes.first_append rest)) fun cond' hcond' => ?_
    refine Takes.last (hyes.takes n rest (by omega)) fun yes' hyes' => ?_
    refine .silent (.acceptKeyword_not helse) fun b hb => ?_
    rw [if_neg (by simp [hb])]
    exact .pure (by rw [Cond.relabel, hcond', hyes']; rfl)

theorem orElse_run {no : Block} {vs : List Token} (ht : t.terminal = .keyword .if) (hcond : ExprRun cond ts)
    (hopens : ¬cond.OpensBlock) (hyes : BlockRun yes us) (he : e.terminal = .keyword .else)
    (hno : BlockRun no vs) : CondRun (.orElse cond yes no) (t :: (ts ++ us ++ e :: vs)) where
  starts := ht
  takes n rest hn _ := by
    simp only [List.length_cons, List.length_append] at hn
    obtain ⟨n, rfl⟩ := Nat.exists_eq_succ_of_ne_zero (by omega : n ≠ 0)
    have hfirst : first (us ++ e :: vs ++ rest) = .punct .lbrace := by
      rw [List.append_assoc, hyes.first_append]
    rw [List.append_assoc]
    refine .token (.advance (ht ▸ Terminal.noConfusion)) fun _ _ => ?_
    refine Takes.bind (condition_takes hcond hopens (by omega) hfirst) fun cond' hcond' => ?_
    refine Takes.bind (hyes.takes n _ (by omega)) fun yes' hyes' => ?_
    refine .token (.acceptKeyword he) fun b hb => ?_
    rw [if_pos hb]
    refine .dispatch ?_
    rw [hno.first_append, if_neg (by simp)]
    refine Takes.last (hno.takes n rest (by omega)) fun no' hno' => ?_
    exact .pure (by rw [Cond.relabel, hcond', hyes', hno']; rfl)

theorem orIf_run {no : Cond} {vs : List Token} (ht : t.terminal = .keyword .if) (hcond : ExprRun cond ts)
    (hopens : ¬cond.OpensBlock) (hyes : BlockRun yes us) (he : e.terminal = .keyword .else)
    (hno : CondRun no vs) : CondRun (.orIf cond yes no) (t :: (ts ++ us ++ e :: vs)) where
  starts := ht
  takes n rest hn helse := by
    simp only [List.length_cons, List.length_append] at hn
    obtain ⟨n, rfl⟩ := Nat.exists_eq_succ_of_ne_zero (by omega : n ≠ 0)
    have hne : first vs ≠ .endOfInput := by rw [hno.starts]; exact Terminal.noConfusion
    have hfirst : first (us ++ e :: vs ++ rest) = .punct .lbrace := by
      rw [List.append_assoc, hyes.first_append]
    rw [List.append_assoc]
    refine .token (.advance (ht ▸ Terminal.noConfusion)) fun _ _ => ?_
    refine Takes.bind (condition_takes hcond hopens (by omega) hfirst) fun cond' hcond' => ?_
    refine Takes.bind (hyes.takes n _ (by omega)) fun yes' hyes' => ?_
    refine .token (.acceptKeyword he) fun b hb => ?_
    rw [if_pos hb]
    refine .dispatch ?_
    rw [first_append hne, hno.starts, if_pos rfl]
    refine Takes.last (hno.takes n rest (by omega) helse) fun no' hno' => ?_
    exact .pure (by rw [Cond.relabel, hcond', hyes', hno']; rfl)

end

end Ferrite.Parse
