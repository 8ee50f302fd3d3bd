import Ferrite.Proofs.Parse.Silent

/-!
What is parsed without a report is spelled by the tokens that were passed. An operand ends where no
operator behind it belongs to it.
-/

namespace Ferrite.Parse

/-! ## Types -/

theorem types_of_commas {comma : Bool} {list : List Ty × Bool} {ts : List Token}
    (h : Commas (fun t ts => TypeSpelled (.type t) ts) comma list ts) :
    TypeSpelled (.types comma list) ts := by
  induction h with
  | nil => exact .nil
  | last h => exact .last h
  | cons h hc _ ih => exact .cons h hc ih

theorem resultOf_yields {type : Parser Ty} (ht : Yields type fun t ts => TypeSpelled (.type t) ts) :
    Yields (resultOf type) fun t ts => TypeSpelled (.result t) ts := by
  refine (Reads.bind (accept_reads _) fun _ => .ite ht (.pure _)).mono ?_
  rintro s t s' ⟨b, s₁, ⟨rfl, a, ha, hpass⟩ | ⟨rfl, -, rfl⟩, ⟨hb, hrest⟩ | ⟨hb, hrest⟩⟩
  · obtain ⟨ts, hts, h⟩ := hrest
    exact ⟨a :: ts, hpass.cons hts, .result ha h⟩
  · exact absurd rfl hb
  · cases hb
  · obtain ⟨rfl, rfl⟩ := hrest
    exact ⟨[], .refl _, .noResult⟩

theorem typeWithin_yields (bound : Nat) : Yields (typeWithin bound) fun t ts => TypeSpelled (.type t) ts := by
  induction bound with
  | zero => exact (Reads.throw Abort.noConfusion).never
  | succ bound ih =>
    have hlist := parenthesized_reads ih
    refine .start fun start => .dispatch fun t => ?_
    split
    · refine advance_reads.andThen fun _ => ?_
      split
      · rename_i ty hty
        refine (Reads.pure ty).mono ?_
        rintro _ _ _ ⟨rfl, rfl⟩ s rfl hs -
        obtain ⟨tok, htok, -, hpass⟩ := Passes.advance_of hs Terminal.noConfusion
        exact ⟨[tok], hpass, .name htok hty⟩
      · refine ((report_reads _ _).bind fun _ => .pure _).mono ?_
        rintro _ _ _ ⟨_, _, hf, -⟩
        exact hf.elim
    · refine (advance_reads.bind fun _ => .pure _).mono ?_
      rintro s ty s' ⟨_, _, rfl, rfl, rfl⟩ hs -
      obtain ⟨tok, htok, -, hpass⟩ := Passes.advance_of hs Terminal.noConfusion
      exact ⟨[tok], hpass, .never htok⟩
    · refine (hlist.bind fun _ => .pure _).mono ?_
      rintro s ty s' ⟨list, _, ⟨l, r, ts, hl, hlist, hr, hpass⟩, rfl, rfl⟩ - -
      exact ⟨_, hpass, .tuple hl (types_of_commas hlist) hr⟩
    · refine (advance_reads.bind fun _ => hlist.bind fun _ => (resultOf_yields ih).bind fun _ =>
        .pure _).mono ?_
      rintro s ty s' ⟨_, _, rfl, list, _, ⟨l, r, ts, hl, hlist, hr, hpass⟩, result, _,
        ⟨rs, hrs, hresult⟩, rfl, rfl⟩ hs -
      obtain ⟨tok, htok, -, hfirst⟩ := Passes.advance_of hs Terminal.noConfusion
      have hall := hfirst.cons (hpass.trans hrs)
      rw [List.cons_append, List.append_assoc, List.singleton_append] at hall
      exact ⟨_, hall, .function htok hl (types_of_commas hlist) hr hresult⟩
    · exact (Reads.throw Abort.noConfusion).never
    · exact (Reads.throw Abort.noConfusion).never
    · exact (failAt_reads _).never

theorem type_yields : Yields type fun t ts => TypeSpelled (.type t) ts := by
  refine (Reads.bind remaining_reads fun _ => typeWithin_yields _).mono ?_
  rintro _ t s' ⟨_, s, ⟨-, rfl⟩, h⟩
  exact h

/-! ## Expressions -/

/-- An expression is complete: no operator behind it belongs to it, and it opens no block where the
marks have a brace end it. -/
structure Complete (marks : List Punct) (e : Expr) (s : State) : Prop where
  closed : ∀ op : BinaryOp, s.terminal = .punct op.punct → e.ClosedBefore op
  opens : .lbrace ∈ marks → ¬e.OpensBlock

/-- An operand is complete, and ends before operators that hold less tightly. -/
structure Ended (marks : List Punct) (power : Nat) (e : Expr) (s : State) : Prop extends
    Complete marks e s where
  atLeast : e.AtLeast power
  power : ∀ op : BinaryOp, s.terminal = .punct op.punct → op.leftPower < power

/-- Parsers that are sound for all that is nested. -/
structure Nested.Sound (nested : Nested) : Prop where
  block : Yields nested.block fun b ts => Spells True (.block b) ts
  operand : ∀ marks power, Closing marks → Reads (nested.operand marks power) fun s e s' =>
    ∃ ts, Passes ts s s' ∧ Spells True (.expr e) ts ∧ Ended marks power e s'
  cond : Reads nested.cond fun s c s' => s.terminal = .keyword .if →
    ∃ ts, Passes ts s s' ∧ Spells True (.cond c) ts

theorem Spells.ne_nil {located : Prop} {e : Expr} {ts : List Token} (h : Spells located (.expr e) ts) :
    ts ≠ [] := by
  cases h with
  | binary => exact List.append_ne_nil_of_right_ne_nil _ (List.cons_ne_nil _ _)
  | block h =>
    cases h
    exact List.cons_ne_nil _ _
  | cond h => cases h <;> exact List.cons_ne_nil _ _
  | _ => exact List.cons_ne_nil _ _

namespace Nested

variable {nested : Nested} {marks : List Punct}

theorem operators_reads (hn : nested.Sound) (hm : Closing marks) (power bound : Nat) (lhs : Expr) :
    Reads (nested.operators marks power bound lhs) fun s e s' => ∀ ts, Spells True (.expr lhs) ts →
      lhs.AtLeast power → Complete marks lhs s →
        ∃ us, Passes us s s' ∧ Spells True (.expr e) (ts ++ us) ∧ Ended marks power e s' := by
  induction bound generalizing lhs with
  | zero => exact (Reads.throw Abort.noConfusion).never
  | succ bound ih =>
    -- the loop ends here where no operator comes next that holds tightly enough
    have hend : ∀ t, (∀ op : BinaryOp, t = .punct op.punct → op.leftPower < power) →
        Reads (pure lhs) fun s e s' => s.terminal = t → ∀ ts, Spells True (.expr lhs) ts →
          lhs.AtLeast power → Complete marks lhs s →
            ∃ us, Passes us s s' ∧ Spells True (.expr e) (ts ++ us) ∧ Ended marks power e s' := by
      intro t ht
      refine (Reads.pure lhs).mono ?_
      rintro s _ _ ⟨rfl, rfl⟩ hs ts hlhs hpower hcomplete
      exact ⟨[], .refl _, by rwa [List.append_nil], hcomplete, hpower, fun op hop => ht op (hs ▸ hop)⟩
    refine .dispatch fun t => ?_
    split
    · rename_i hstops
      refine hend t fun op hop => ?_
      rw [hop, hm.stops_op] at hstops
      cases hstops
    · split
      · exact (failAt_reads _).never
      · exact (failAt_reads _).never
      · exact (span_reads.bind fun _ => .throw Abort.noConfusion).mono fun _ _ _ ⟨_, _, _, hf⟩ => hf.elim
      · split
        · rename_i hop
          refine hend t fun op ht => ?_
          rw [ht, BinaryOp.ofTerminal?, (BinaryOp.ofPunct?_eq_some_iff _ op).mpr rfl] at hop
          cases hop
        · rename_i op hop
          have ht : t = .punct op.punct := by
            cases t with
            | punct p => rw [(BinaryOp.ofPunct?_eq_some_iff p op).mp hop]
            | _ => cases hop
          split
          · rename_i hless
            refine hend t fun op' hop' => ?_
            rw [ht] at hop'
            rwa [← punct_injective (Terminal.punct.inj hop')]
          · rename_i hpower
            refine (advance_reads.bind fun _ => (hn.operand marks _ hm).bind fun rhs =>
              freshId_reads.bind fun id => ih _).mono ?_
            rintro s e s' ⟨_, _, rfl, rhs, s₁, ⟨us, hus, hrhs, hended⟩, id, s₂, hid, hloop⟩ hs ts hlhs -
              hcomplete
            obtain ⟨tok, htok, -, hpass⟩ := Passes.advance_of (hs.trans ht) Terminal.noConfusion
            have hbinary : Spells True (.expr (.binary id (lhs.span.join rhs.span) op lhs rhs)) _ :=
              .binary hlhs htok hrhs (hcomplete.closed op (hs.trans ht)) hended.atLeast fun _ => rfl
            have hcomplete' : Complete marks (.binary id (lhs.span.join rhs.span) op lhs rhs) s₂ := by
              refine ⟨fun op' hop' => ?_, fun hmem => not_or.mpr ⟨hcomplete.opens hmem, hended.opens hmem⟩⟩
              rw [hid.terminal_eq] at hop'
              exact ⟨hended.power op' hop', hended.closed op' hop'⟩
            obtain ⟨vs, hvs, he, hdone⟩ := hloop _ hbinary (Nat.le_of_not_lt hpower) hcomplete'
            refine ⟨tok :: (us ++ vs), hpass.cons (hus.trans (hid.trans hvs)), ?_, hdone⟩
            rwa [List.append_assoc, List.cons_append] at he

/-- A construct that is numbered and ends with the token passed last. -/
theorem closed_reads {make : NodeId → Span → Expr} :
    Reads (do let id ← freshId; return make id (← lastSpan)) fun s e s' =>
      Passes [] s s' ∧ ∃ id, e = make id s'.lastSpan := by
  refine (freshId_reads.bind fun id => lastSpan_reads.bind fun _ => .pure _).mono ?_
  rintro s e _ ⟨id, s', hpass, _, _, ⟨rfl, rfl⟩, rfl, rfl⟩
  exact ⟨hpass, id, rfl⟩

theorem args_of_commas {located : Prop} {comma : Bool} {list : List Expr × Bool} {ts : List Token}
    (h : Commas (fun e ts => Spells located (.expr e) ts) comma list ts) : Spells located (.args list.1) ts := by
  induction h with
  | nil => exact .argsNil
  | last h => exact .argsLast h
  | cons h hc _ ih => exact .argsCons h hc ih

theorem expr_yields (hn : nested.Sound) (hm : Closing marks) :
    Yields (nested.expr marks) fun e ts => Spells True (.expr e) ts :=
  (hn.operand marks 0 hm).mono fun _ _ _ ⟨ts, hts, he, _⟩ => ⟨ts, hts, he⟩

theorem call_reads (hn : nested.Sound) (start : Span) (callee : Ident) :
    Reads (nested.call start callee) fun s e s' => ∃ id args l ts r, l.terminal = .punct .lparen ∧
      Spells True (.args args) ts ∧ r.terminal = .punct .rparen ∧ Passes (l :: (ts ++ [r])) s s' ∧
        e = .call id (start.join s'.lastSpan) callee args := by
  have hmarks : Closing [.comma, .rparen] := by simp [Closing]
  refine ((parenthesized_reads (expr_yields hn hmarks)).bind fun _ => closed_reads).mono ?_
  rintro s e s' ⟨list, s₁, ⟨l, r, ts, hl, hlist, hr, hpass⟩, hid, id, rfl⟩
  refine ⟨id, list.1, l, ts, r, hl, args_of_commas hlist, hr, ?_, rfl⟩
  simpa using hpass.trans hid

/-- A tuple is never read, whatever would come behind it. -/
theorem tuple_reads {α : Type} (start : Span) (rest : Unit → Parser α) :
    Reads (do let place ← span; throw (.unsupported .tuple (start.join place)) >>= rest)
      fun _ _ _ => False := by
  intro s
  exact ⟨List.suffix_refl _, Abort.noConfusion⟩

theorem group_reads (hn : nested.Sound) (start : Span) :
    Reads (nested.group start) fun s e s' => s.terminal = .punct .lparen → ∃ id inner l ts r,
      l.terminal = .punct .lparen ∧ Spells True (.expr inner) ts ∧ r.terminal = .punct .rparen ∧
        Passes (l :: (ts ++ [r])) s s' ∧ e = .grouped id (start.join s'.lastSpan) inner := by
  have hmarks : Closing [.rparen, .comma] := by simp [Closing]
  refine advance_reads.andThen fun _ => (isAt_reads _).andThen fun _ => ?_
  split
  · exact (tuple_reads start _).never
  refine (expr_yields hn hmarks).andThen fun inner => (isAt_reads _).andThen fun _ => ?_
  split
  · exact (tuple_reads start _).never
  refine ((expect_reads _).bind fun _ => closed_reads).mono ?_
  rintro s₃ e s' ⟨_, s₄, ⟨r, hr, hpass⟩, hid, id, rfl⟩ s₂ ⟨-, rfl⟩ s₁ ⟨ts, hts, hinner⟩ s₀ ⟨-, rfl⟩ s rfl hs
  obtain ⟨l, hl, -, hfirst⟩ := Passes.advance_of hs Terminal.noConfusion
  refine ⟨id, inner, l, ts, r, hl, hinner, hr, ?_, rfl⟩
  simpa using hfirst.cons (hts.trans (hpass.trans hid))

theorem returning_reads (hn : nested.Sound) (hm : Closing marks) (start : Span) :
    Reads (nested.returning start marks) fun s e s' => s.terminal = .keyword .return → s.span = start →
      ∃ ts, Passes ts s s' ∧ Spells True (.expr e) ts ∧ Complete marks e s' ∧ ∀ power, e.AtLeast power := by
  have hmarks : Closing (.semi :: .rbrace :: marks) := by
    intro p hp
    simp only [List.mem_cons] at hp
    rcases hp with rfl | rfl | hp
    · simp
    · simp
    · exact hm p hp
  refine advance_reads.andThen fun _ => .dispatch fun t => ?_
  split
  · rename_i hstops
    refine ((Reads.pure none).bind fun _ => closed_reads).mono ?_
    rintro s₁ e s' ⟨_, _, ⟨rfl, rfl⟩, hid, id, rfl⟩ ht s rfl hs rfl
    obtain ⟨tok, htok, -, hfirst⟩ := Passes.advance_of hs Terminal.noConfusion
    have hpass := hfirst.trans hid
    refine ⟨[tok], hpass, .retNone htok (hpass.covers (List.cons_ne_nil _ _)), ?_⟩
    refine ⟨⟨fun op hop => ?_, fun _ => False.elim⟩, fun _ => trivial⟩
    rw [hid.terminal_eq, ht] at hop
    rw [hop, hmarks.stops_op] at hstops
    cases hstops
  · refine ((hn.operand marks 0 hm).map.bind fun _ => closed_reads).mono ?_
    rintro s₁ e s' ⟨_, s₂, ⟨value, ⟨ts, hts, hvalue, hended⟩, rfl⟩, hid, id, rfl⟩ - s rfl hs rfl
    obtain ⟨tok, htok, -, hfirst⟩ := Passes.advance_of hs Terminal.noConfusion
    have hpass := hfirst.cons (hts.trans hid)
    rw [List.append_nil] at hpass
    refine ⟨tok :: ts, hpass, .retSome htok hvalue (hpass.covers (List.cons_ne_nil _ _)),
      ⟨fun op hop => ?_, hended.opens⟩, fun _ => trivial⟩
    rw [hid.terminal_eq] at hop
    exact absurd (hended.power op hop) (Nat.not_lt_zero _)

theorem blockLike_reads (hn : nested.Sound) : Reads nested.blockLike fun s e s' =>
    ∃ ts, Passes ts s s' ∧ Spells True (.expr e) ts ∧ e.endsInBlock = true ∧
      (e.OpensBlock → s.terminal = .punct .lbrace) := by
  have hmarks : Closing [.lbrace] := by simp [Closing]
  refine .start fun start => .dispatch fun t => ?_
  split
  · refine (hn.block.bind fun _ => closed_reads).mono ?_
    rintro s e s' ⟨body, s₁, ⟨ts, hts, hbody⟩, hid, id, rfl⟩ hs rfl
    have hpass := hts.trans hid
    rw [List.append_nil] at hpass
    refine ⟨ts, hpass, .block hbody (hpass.covers ?_), rfl, fun _ => hs⟩
    cases hbody
    exact List.cons_ne_nil _ _
  · refine (hn.cond.bind fun _ => closed_reads).mono ?_
    rintro s e s' ⟨branches, s₁, hcond, hid, id, rfl⟩ hs rfl
    obtain ⟨ts, hts, hbranches⟩ := hcond hs
    have hpass := hts.trans hid
    rw [List.append_nil] at hpass
    refine ⟨ts, hpass, .cond hbranches (hpass.covers ?_), rfl, False.elim⟩
    cases hbranches <;> exact List.cons_ne_nil _ _
  · refine (advance_reads.bind fun _ => hn.block.bind fun _ => closed_reads).mono ?_
    rintro s e s' ⟨_, _, rfl, body, s₁, ⟨ts, hts, hbody⟩, hid, id, rfl⟩ hs rfl
    obtain ⟨tok, htok, -, hfirst⟩ := Passes.advance_of hs Terminal.noConfusion
    have hpass := hfirst.cons (hts.trans hid)
    rw [List.append_nil] at hpass
    exact ⟨_, hpass, .loop htok hbody (hpass.covers (List.cons_ne_nil _ _)), rfl, False.elim⟩
  · refine (advance_reads.bind fun _ => (hn.operand _ 0 hmarks).bind fun _ => hn.block.bind fun _ =>
      closed_reads).mono ?_
    rintro s e s' ⟨_, _, rfl, cond, s₁, ⟨ts, hts, hcond, hended⟩, body, s₂, ⟨us, hus, hbody⟩, hid, id, rfl⟩
      hs rfl
    obtain ⟨tok, htok, -, hfirst⟩ := Passes.advance_of hs Terminal.noConfusion
    have hpass := hfirst.cons (hts.trans (hus.trans hid))
    rw [List.append_nil] at hpass
    exact ⟨_, hpass, .while htok hcond (hended.opens (List.mem_singleton.mpr rfl)) hbody
      (hpass.covers (List.cons_ne_nil _ _)), rfl, False.elim⟩
  · exact (failAt_reads _).never

/-- An expression without operators outside its parentheses, which holds its parts most tightly. -/
theorem primary_reads (hn : nested.Sound) (hm : Closing marks) :
    Reads (nested.primary marks) fun s e s' => ∃ ts, Passes ts s s' ∧ Spells True (.expr e) ts ∧
      Complete marks e s' ∧ ∀ power, e.AtLeast power := by
  refine .start fun start => .dispatch fun t => ?_
  split
  · exact (failAt_reads _).never
  rename_i hstops
  split
  · refine (blockLike_reads hn).mono ?_
    rintro s e s' ⟨ts, hts, he, hends, hopens⟩ rfl -
    have hcomplete : Complete marks e s' := by
      refine ⟨fun op _ => ?_, fun hmem hblock => hstops ?_⟩
      · cases e with
        | block | loop | «while» | cond => trivial
        | _ => cases hends
      · rw [hopens hblock]
        simpa [stops] using hmem
    refine ⟨ts, hts, he, hcomplete, fun power => ?_⟩
    cases e with
    | block | loop | «while» | cond => trivial
    | _ => cases hends
  split
  · refine (advance_reads.bind fun _ => freshId_reads.bind fun _ => .pure _).mono ?_
    rintro s e s' ⟨_, _, rfl, id, s₁, hid, rfl, rfl⟩ hs rfl
    obtain ⟨tok, htok, hspan, hfirst⟩ := Passes.advance_of hs Terminal.noConfusion
    refine ⟨[tok], hfirst.trans hid, .literal htok ?_, ⟨fun _ _ => trivial, fun _ => False.elim⟩, fun _ => trivial⟩
    exact fun _ => ⟨tok, rfl, tok, rfl, by rw [hspan, Span.join_self]⟩
  · refine advance_reads.andThen fun _ => (isAt_reads _).andThen fun _ => ?_
    split
    · refine (call_reads hn _ _).mono ?_
      rintro s₂ e s' ⟨id, args, l, ts, r, hl, hargs, hr, hpass, rfl⟩ s₁ ⟨-, rfl⟩ s rfl hs rfl
      obtain ⟨tok, htok, hspan, hfirst⟩ := Passes.advance_of hs Terminal.noConfusion
      have hall := hfirst.cons hpass
      exact ⟨_, hall, .call htok hl hargs hr (hall.covers (List.cons_ne_nil _ _)),
        ⟨fun _ _ => trivial, fun _ => False.elim⟩, fun _ => trivial⟩
    · refine (freshId_reads.bind fun _ => .pure _).mono ?_
      rintro s₂ e s' ⟨id, _, hid, rfl, rfl⟩ s₁ ⟨-, rfl⟩ s rfl hs rfl
      obtain ⟨tok, htok, hspan, hfirst⟩ := Passes.advance_of hs Terminal.noConfusion
      refine ⟨[tok], hfirst.trans hid, .path htok ?_, ⟨fun _ _ => trivial, fun _ => False.elim⟩,
        fun _ => trivial⟩
      exact fun _ => ⟨tok, rfl, tok, rfl, by rw [hspan, Span.join_self]⟩
  · refine (group_reads hn start).mono ?_
    rintro s e s' h hs rfl
    obtain ⟨id, inner, l, ts, r, hl, hinner, hr, hpass, rfl⟩ := h hs
    exact ⟨_, hpass, .grouped hl hinner hr (hpass.covers (List.cons_ne_nil _ _)),
      ⟨fun _ _ => trivial, fun _ => False.elim⟩, fun _ => trivial⟩
  · refine (returning_reads hn hm start).mono ?_
    rintro s e s' h hs rfl
    exact h hs rfl
  · exact (Reads.throw Abort.noConfusion).never
  · exact (Reads.throw Abort.noConfusion).never
  · exact (Reads.throw Abort.noConfusion).never
  · exact (Reads.throw Abort.noConfusion).never
  · exact (failAt_reads _).never

theorem unary_reads (hn : nested.Sound) (hm : Closing marks) :
    Reads (nested.unary marks) fun s e s' => ∃ ts, Passes ts s s' ∧ Spells True (.expr e) ts ∧
      Complete marks e s' ∧ ∀ power, e.AtLeast power := by
  refine .dispatch fun t => ?_
  split
  · exact (primary_reads hn hm).mono fun _ _ _ h _ => h
  · rename_i op hop
    refine (span_reads.bind fun _ => advance_reads.bind fun _ => (hn.operand marks _ hm).bind fun _ =>
      freshId_reads.bind fun _ => .pure _).mono ?_
    rintro _ e s' ⟨_, s, ⟨rfl, rfl⟩, _, _, rfl, operand, s₁, ⟨ts, hts, he, hended⟩, id, s₂, hid, rfl, rfl⟩ ht
    have hne : t ≠ .endOfInput := by
      rintro rfl
      cases hop
    obtain ⟨tok, htok, hspan, hfirst⟩ := Passes.advance_of ht hne
    have hpass := hfirst.cons (hts.trans hid)
    rw [List.append_nil] at hpass
    refine ⟨tok :: ts, hpass, .unary (htok ▸ hop) he hended.atLeast fun _ => by rw [hspan], ?_,
      fun _ => trivial⟩
    refine ⟨fun op hop => hended.closed op ?_, hended.opens⟩
    rwa [← hid.terminal_eq]

theorem binary_reads (hn : nested.Sound) (hm : Closing marks) (power : Nat) :
    Reads (nested.binary marks power) fun s e s' =>
      ∃ ts, Passes ts s s' ∧ Spells True (.expr e) ts ∧ Ended marks power e s' := by
  refine ((unary_reads hn hm).bind fun _ => remaining_reads.bind fun _ =>
    operators_reads hn hm power _ _).mono ?_
  rintro s e s' ⟨lhs, s₁, ⟨ts, hts, hlhs, hcomplete, hpower⟩, _, _, ⟨-, rfl⟩, hloop⟩
  obtain ⟨us, hus, he, hended⟩ := hloop ts hlhs (hpower power) hcomplete
  exact ⟨ts ++ us, hts.trans hus, he, hended⟩

theorem conditions_reads (hn : nested.Sound) :
    Reads nested.conditions fun s c s' => s.terminal = .keyword .if →
      ∃ ts, Passes ts s s' ∧ Spells True (.cond c) ts := by
  have hmarks : Closing [.lbrace] := by simp [Closing]
  have hlbrace : Punct.lbrace ∈ [Punct.lbrace] := List.mem_singleton.mpr rfl
  refine advance_reads.andThen fun _ => (hn.operand _ 0 hmarks).andThen fun cond => hn.block.andThen fun yes =>
    (acceptKeyword_reads _).andThen fun b => ?_
  split
  · rename_i hb
    refine .dispatch fun t => ?_
    split
    · rename_i hif
      refine (hn.cond.bind fun _ => .pure _).mono ?_
      rintro s₄ c s' ⟨no, _, hno, rfl, rfl⟩ ht s₃ helse s₂ ⟨us, hus, hyes⟩ s₁ ⟨ts, hts, hcond, hended⟩ s rfl hs
      obtain ⟨vs, hvs, hno⟩ := hno (ht.trans hif)
      obtain ⟨-, tok', htok', helse⟩ := helse.resolve_right fun h => Bool.noConfusion (hb.symm.trans h.1)
      obtain ⟨tok, htok, -, hfirst⟩ := Passes.advance_of hs Terminal.noConfusion
      refine ⟨_, ?_, .orIf htok hcond (hended.opens hlbrace) hyes htok' hno⟩
      simpa using hfirst.cons (hts.trans (hus.trans (helse.cons hvs)))
    · refine (hn.block.bind fun _ => .pure _).mono ?_
      rintro s₄ c s' ⟨no, _, ⟨vs, hvs, hno⟩, rfl, rfl⟩ - s₃ helse s₂ ⟨us, hus, hyes⟩ s₁ ⟨ts, hts, hcond, hended⟩
        s rfl hs
      obtain ⟨-, tok', htok', helse⟩ := helse.resolve_right fun h => Bool.noConfusion (hb.symm.trans h.1)
      obtain ⟨tok, htok, -, hfirst⟩ := Passes.advance_of hs Terminal.noConfusion
      refine ⟨_, ?_, .orElse htok hcond (hended.opens hlbrace) hyes htok' hno⟩
      simpa using hfirst.cons (hts.trans (hus.trans (helse.cons hvs)))
  · rename_i hb
    refine (Reads.pure _).mono ?_
    rintro _ c s' ⟨rfl, rfl⟩ s₃ helse s₂ ⟨us, hus, hyes⟩ s₁ ⟨ts, hts, hcond, hended⟩ s rfl hs
    obtain ⟨-, -, rfl⟩ := helse.resolve_left fun h => hb h.1
    obtain ⟨tok, htok, -, hfirst⟩ := Passes.advance_of hs Terminal.noConfusion
    exact ⟨_, hfirst.cons (hts.trans hus), .only htok hcond (hended.opens hlbrace) hyes⟩

end Nested

/-! ## Items -/

theorem perhaps_reads (k : Keyword) : Reads (acceptKeyword k) fun s _ s' => ∃ ts, Passes ts s s' ∧ Perhaps k ts := by
  refine (acceptKeyword_reads k).mono ?_
  rintro s b s' (⟨-, t, ht, hpass⟩ | ⟨-, -, rfl⟩)
  · exact ⟨[t], hpass, .inr ⟨t, ht, rfl⟩⟩
  · exact ⟨[], .refl _, .inl rfl⟩

theorem param_yields : Yields param ParamSpelled := by
  refine ((perhaps_reads _).bind fun _ => expectName_reads.bind fun _ => (expect_reads _).bind fun _ =>
    type_yields.bind fun _ => .pure _).mono ?_
  rintro s _ s' ⟨_, s₁, ⟨muts, hmuts, hmut⟩, name, s₂, ⟨n, hn, -, hname⟩, _, s₃, ⟨c, hc, hcolon⟩, t, _,
    ⟨ts, hts, ht⟩, rfl, rfl⟩
  exact ⟨_, hmuts.trans (hname.cons (hcolon.cons hts)), .mk hmut hn hc ht⟩

theorem header_reads (start : Span) : Reads (header start) fun s h s' => s.terminal = .keyword .fn →
    ∃ ts, Passes ts s s' ∧ HeaderSpelled h ts := by
  refine (freshId_reads.bind fun _ => advance_reads.bind fun _ => expectName_reads.bind fun _ =>
    (parenthesized_reads param_yields).bind fun _ => (resultOf_yields type_yields).bind fun _ =>
      lastSpan_reads.bind fun _ => .pure _).mono ?_
  rintro s _ s' ⟨id, s₁, hid, _, _, rfl, name, s₂, ⟨n, hn, -, hname⟩, ⟨params, comma⟩, s₃,
    ⟨l, r, ps, hl, hparams, hr, hlist⟩, result, s₄, ⟨rs, hrs, hresult⟩, _, _, ⟨-, rfl⟩, rfl, rfl⟩ hs
  obtain ⟨f, hf, -, hfirst⟩ := Passes.advance_of (hid.terminal_eq.trans hs) Terminal.noConfusion
  refine ⟨_, ?_, .mk hf hn hl hparams hr hresult rfl rfl⟩
  simpa using hid.trans (hfirst.cons (hname.cons (hlist.trans hrs)))

/-- Where a function ends does not matter for how it is spelled. -/
theorem HeaderSpelled.with_span {h : Header} {ts : List Token} (hh : HeaderSpelled h ts) (place : Span) :
    HeaderSpelled { h with span := place } ts := by
  cases hh with
  | mk hf hn hl hparams hr hresult hnames htypes => exact .mk hf hn hl hparams hr hresult hnames htypes

theorem declaration_reads : Reads declaration fun s h s' => s.terminal = .keyword .fn →
    ∃ ts semi, HeaderSpelled h ts ∧ semi.terminal = .punct .semi ∧ Passes (ts ++ [semi]) s s' := by
  refine .start fun start => ((header_reads start).bind fun _ => (expect_reads _).bind fun _ =>
    lastSpan_reads.bind fun _ => .pure _).mono ?_
  rintro s _ s' ⟨h, s₁, hh, _, s₂, ⟨semi, hsemi, hpass⟩, _, _, ⟨-, rfl⟩, rfl, rfl⟩ - hs
  obtain ⟨ts, hts, hh⟩ := hh hs
  exact ⟨ts, semi, hh.with_span _, hsemi, hts.trans hpass⟩

theorem declarations_yields (bound : Nat) : Yields (declarations bound) HeadersSpelled := by
  induction bound with
  | zero => exact (Reads.throw Abort.noConfusion).never
  | succ bound ih =>
    have hnone : Reads (pure []) fun s hs s' => ∃ ts, Passes ts s s' ∧ HeadersSpelled hs ts := by
      refine (Reads.pure _).mono ?_
      rintro s _ _ ⟨rfl, rfl⟩
      exact ⟨[], .refl _, .nil⟩
    refine .dispatch fun t => ?_
    split
    · exact hnone.mono fun _ _ _ h _ => h
    · exact hnone.mono fun _ _ _ h _ => h
    · refine remaining_reads.andThen fun before => (attempt_reads declaration_reads).andThen fun found => ?_
      cases found with
      | some h =>
        refine (ih.bind fun _ => .pure _).mono ?_
        rintro s₁ _ s' ⟨hs, _, ⟨us, hus, hhs⟩, rfl, rfl⟩ s₀ ⟨_, heq, hh⟩ s ⟨-, rfl⟩ ht
        cases heq
        obtain ⟨ts, semi, hh, hsemi, hpass⟩ := hh ht
        refine ⟨_, ?_, .cons hh hsemi hhs⟩
        simpa using hpass.trans hus
      | none =>
        refine ((recoverStatement_reads before).bind fun _ => ih).mono ?_
        rintro s₁ _ s' - s₀ ⟨_, heq, -⟩
        cases heq
    · exact (failAt_reads _).never

theorem foreign_reads : Reads foreign fun s i s' => s.terminal = .keyword .foreign →
    ∃ ts, Passes ts s s' ∧ Spells True (.item i) ts := by
  have hrest : ∀ (start : Span) (abi : String), Reads
      (do
        expect .lbrace
        let functions ← declarations ((← remaining) + 1)
        expect .rbrace
        return Item.foreign (start.join (← lastSpan)) abi functions)
      fun s i s' => ∃ place functions l r ts, l.terminal = .punct .lbrace ∧ HeadersSpelled functions ts ∧
        r.terminal = .punct .rbrace ∧ Passes (l :: (ts ++ [r])) s s' ∧ i = .foreign place abi functions := by
    intro start abi
    refine ((expect_reads _).bind fun _ => remaining_reads.bind fun _ => (declarations_yields _).bind fun _ =>
      (expect_reads _).bind fun _ => lastSpan_reads.bind fun _ => .pure _).mono ?_
    rintro s _ s' ⟨_, _, ⟨l, hl, hfirst⟩, _, _, ⟨-, rfl⟩, functions, s₁, ⟨ts, hts, hfunctions⟩, _, s₂,
      ⟨r, hr, hlast⟩, _, _, ⟨-, rfl⟩, rfl, rfl⟩
    exact ⟨_, functions, l, r, ts, hl, hfunctions, hr, hfirst.cons (hts.trans hlast), rfl⟩
  refine .start fun start => advance_reads.andThen fun _ => .dispatch fun t => ?_
  split
  · rename_i abi
    refine (advance_reads.bind fun _ => (Reads.pure _).bind fun _ => hrest start _).mono ?_
    rintro s₁ _ s' ⟨_, _, rfl, _, _, ⟨rfl, rfl⟩, place, functions, l, r, ts, hl, hfunctions, hr, hpass, rfl⟩ ht
      s rfl - hs
    obtain ⟨tok, htok, -, hfirst⟩ := Passes.advance_of hs Terminal.noConfusion
    obtain ⟨tok', htok', -, hsecond⟩ := Passes.advance_of ht Terminal.noConfusion
    exact ⟨_, hfirst.cons (hsecond.trans hpass),
      .foreign htok (.inr ⟨tok', htok', rfl⟩) hl hfunctions hr⟩
  · refine ((Reads.pure _).bind fun _ => hrest start _).mono ?_
    rintro s₁ _ s' ⟨_, _, ⟨rfl, rfl⟩, place, functions, l, r, ts, hl, hfunctions, hr, hpass, rfl⟩ - s rfl - hs
    obtain ⟨tok, htok, -, hfirst⟩ := Passes.advance_of hs Terminal.noConfusion
    exact ⟨_, hfirst.cons hpass, .foreign htok (.inl ⟨rfl, rfl⟩) hl hfunctions hr⟩

namespace Nested

variable {nested : Nested}

theorem function_reads (hn : nested.Sound) : Reads nested.function fun s i s' => s.terminal = .keyword .fn →
    ∃ ts, Passes ts s s' ∧ Spells True (.item i) ts := by
  refine .start fun start => ((header_reads start).bind fun _ => hn.block.bind fun _ =>
    lastSpan_reads.bind fun _ => .pure _).mono ?_
  rintro s _ s' ⟨h, s₁, hh, body, s₂, ⟨us, hus, hbody⟩, _, _, ⟨-, rfl⟩, rfl, rfl⟩ - hs
  obtain ⟨ts, hts, hh⟩ := hh hs
  exact ⟨_, hts.trans hus, .function (hh.with_span _) hbody⟩

/-- Where no item starts, nothing is passed. -/
theorem item?_reads (hn : nested.Sound) : Reads nested.item? fun s found s' =>
    match found with
    | some i => ∃ ts, Passes ts s s' ∧ Spells True (.item i) ts
    | none => s' = s := by
  refine .dispatch fun t => ?_
  split
  · refine (function_reads hn).map.mono ?_
    rintro s _ s' ⟨i, hi, rfl⟩ hs
    exact hi hs
  · refine foreign_reads.map.mono ?_
    rintro s _ s' ⟨i, hi, rfl⟩ hs
    exact hi hs
  · exact (span_reads.bind fun _ => .throw Abort.noConfusion).mono fun _ _ _ ⟨_, _, _, hf⟩ => hf.elim
  · split
    · exact (span_reads.bind fun _ => .throw Abort.noConfusion).mono fun _ _ _ ⟨_, _, _, hf⟩ => hf.elim
    · refine (Reads.pure none).mono ?_
      rintro s _ _ ⟨rfl, rfl⟩ -
      rfl
  · refine (Reads.pure none).mono ?_
    rintro s _ _ ⟨rfl, rfl⟩ -
    rfl

/-! ## Statements and blocks -/

theorem binding_reads (hn : nested.Sound) : Reads nested.binding fun s stmt s' =>
    s.terminal = .keyword .let →
      ∃ ts, Passes ts s s' ∧ Spells True (.stmt stmt) ts ∧ stmt.EndsAt s'.terminal := by
  have hmarks : Closing [.semi] := by simp [Closing]
  have hrest : ∀ (start : Span) (id : NodeId) (name : Ident) (declared : Option Ty), Reads
      (do
        expect .eq
        let init ← nested.expr [.semi]
        expect .semi
        return Stmt.bind id (start.join (← lastSpan)) name declared init)
      fun s stmt s' => ∃ place init q semi ts, q.terminal = .punct .eq ∧ Spells True (.expr init) ts ∧
        semi.terminal = .punct .semi ∧ Passes (q :: (ts ++ [semi])) s s' ∧
          stmt = .bind id place name declared init := by
    intro start id name declared
    refine ((expect_reads _).bind fun _ => (expr_yields hn hmarks).bind fun _ => (expect_reads _).bind fun _ =>
      lastSpan_reads.bind fun _ => .pure _).mono ?_
    rintro s _ s' ⟨_, s₁, ⟨q, hq, hfirst⟩, init, s₂, ⟨ts, hts, hinit⟩, _, s₃, ⟨semi, hsemi, hlast⟩, _, _,
      ⟨-, rfl⟩, rfl, rfl⟩
    exact ⟨_, init, q, semi, ts, hq, hinit, hsemi, hfirst.cons (hts.trans hlast), rfl⟩
  refine .start fun start => freshId_reads.andThen fun id => advance_reads.andThen fun _ =>
    (perhaps_reads _).andThen fun _ => expectName_reads.andThen fun name => (accept_reads _).andThen fun b => ?_
  split
  · rename_i hb
    refine (type_yields.map.bind fun _ => hrest start id name _).mono ?_
    rintro s₅ _ s' ⟨_, s₆, ⟨ty, ⟨us, hus, hty⟩, rfl⟩, place, init, q, semi, ts, hq, hinit, hsemi, hpass, rfl⟩
      s₄ hcolon s₃ ⟨n, hn, -, hname⟩ s₂ ⟨muts, hmuts, hmut⟩ s₁ rfl s hid - hs
    obtain ⟨-, c, hc, hcolon⟩ := hcolon.resolve_right fun h => Bool.noConfusion (hb.symm.trans h.1)
    obtain ⟨t, ht, -, hfirst⟩ := Passes.advance_of (hid.terminal_eq.trans hs) Terminal.noConfusion
    refine ⟨_, ?_, .bind ht hmut hn (.inr ⟨ty, c, us, rfl, hc, hty, rfl⟩) hq hinit hsemi, trivial⟩
    simpa using hid.trans (hfirst.cons (hmuts.trans (hname.cons (hcolon.cons (hus.trans hpass)))))
  · rename_i hb
    refine ((Reads.pure none).bind fun _ => hrest start id name _).mono ?_
    rintro s₅ _ s' ⟨_, _, ⟨rfl, rfl⟩, place, init, q, semi, ts, hq, hinit, hsemi, hpass, rfl⟩
      s₄ hcolon s₃ ⟨n, hn, -, hname⟩ s₂ ⟨muts, hmuts, hmut⟩ s₁ rfl s hid - hs
    obtain ⟨-, -, rfl⟩ := hcolon.resolve_left fun h => hb h.1
    obtain ⟨t, ht, -, hfirst⟩ := Passes.advance_of (hid.terminal_eq.trans hs) Terminal.noConfusion
    refine ⟨_, ?_, .bind ht hmut hn (.inl ⟨rfl, rfl⟩) hq hinit hsemi, trivial⟩
    simpa using hid.trans (hfirst.cons (hmuts.trans (hname.cons hpass)))

theorem exprStatement_reads (hn : nested.Sound) : Reads nested.exprStatement fun s stmt s' =>
    ∃ ts, Passes ts s s' ∧ Spells True (.stmt stmt) ts ∧ stmt.EndsAt s'.terminal := by
  have hmarks : Closing [.semi, .rbrace] := by simp [Closing]
  have hrest : ∀ (start : Span) (e : Expr), Reads
      (do
        let semi ← accept .semi
        if !semi && !e.endsInBlock && !(← isAt .rbrace) then failAt (.unexpected .statementEnd)
        else return Stmt.expr (start.join (← lastSpan)) e semi)
      fun s stmt s' => ∀ ts, Spells True (.expr e) ts →
        (∀ t ∈ ts.head?, startsBlockLike t.terminal = true → e.endsInBlock = true) →
          ∃ us, Passes us s s' ∧ Spells True (.stmt stmt) (ts ++ us) ∧ stmt.EndsAt s'.terminal := by
    intro start e
    refine (accept_reads _).andThen fun semi => (isAt_reads _).andThen fun closing => ?_
    split
    · exact (failAt_reads _).never
    · rename_i hends
      refine (lastSpan_reads.bind fun _ => .pure _).mono ?_
      rintro _ _ s' ⟨_, _, ⟨-, rfl⟩, rfl, rfl⟩ s₁ ⟨hclosing, rfl⟩ s hsemi ts he hstart
      rcases hsemi with ⟨rfl, t, ht, hpass⟩ | ⟨rfl, hsemi, rfl⟩
      · exact ⟨[t], hpass, .semiStmt he hstart ht, trivial⟩
      · refine ⟨[], .refl _, by rw [List.append_nil]; exact .exprStmt he hstart, hsemi, fun hblock => ?_⟩
        simp only [hblock, Bool.not_false, Bool.true_and, Bool.not_eq_true', Bool.not_eq_false] at hends
        exact hclosing.mp hends
  refine .start fun start => .dispatch fun t => ?_
  split
  · refine ((blockLike_reads hn).bind fun _ => hrest start _).mono ?_
    rintro s _ s' ⟨e, s₁, ⟨ts, hts, he, hblock, -⟩, h⟩ - -
    obtain ⟨us, hus, hstmt, hends⟩ := h ts he fun _ _ _ => hblock
    exact ⟨_, hts.trans hus, hstmt, hends⟩
  · rename_i hstart
    refine ((hn.operand _ 0 hmarks).bind fun _ => hrest start _).mono ?_
    rintro s _ s' ⟨e, s₁, ⟨ts, hts, he, -⟩, h⟩ hs -
    obtain ⟨us, hus, hstmt, hends⟩ := h ts he fun t ht hblock => by
      obtain ⟨rest, rfl⟩ := List.head?_eq_some_iff.mp ht
      rw [← hts.terminal, hs] at hblock
      exact absurd hblock hstart
    exact ⟨_, hts.trans hus, hstmt, hends⟩

theorem statement_reads (hn : nested.Sound) : Reads nested.statement fun s stmt s' =>
    ∃ ts, Passes ts s s' ∧ Spells True (.stmt stmt) ts ∧ stmt.EndsAt s'.terminal := by
  refine .dispatch fun t => ?_
  split
  · rename_i ht
    exact (binding_reads hn).mono fun _ _ _ h hs => h (hs.trans ht)
  · exact (exprStatement_reads hn).mono fun _ _ _ h _ => h

theorem endsBefore {stmt : Stmt} {s : State} (h : stmt.EndsAt s.terminal) {us : List Token} {s' : State}
    (hpass : Passes us s s') (hclosed : s.terminal = .punct .rbrace → us = []) : stmt.EndsBefore us := by
  match stmt, h with
  | .bind .., _ => trivial
  | .expr _ _ true, _ => trivial
  | .expr _ e false, ⟨hsemi, hblock⟩ =>
    refine ⟨fun hhead => hsemi ?_, fun he => hclosed (hblock he)⟩
    cases us with
    | nil => cases hhead
    | cons u us =>
      rw [hpass.terminal]
      exact Option.some.inj hhead

theorem entries_reads (hn : nested.Sound) (bound : Nat) : Reads (nested.entries bound) fun s es s' =>
    ∃ ts, Passes ts s s' ∧ Spells True (.entries es) ts ∧ (s.terminal = .punct .rbrace → ts = []) := by
  induction bound with
  | zero => exact (Reads.throw Abort.noConfusion).never
  | succ bound ih =>
    have hnone : Reads (pure []) fun s es s' => ∃ ts, Passes ts s s' ∧ Spells True (.entries es) ts ∧
        (s.terminal = .punct .rbrace → ts = []) := by
      refine (Reads.pure _).mono ?_
      rintro s _ _ ⟨rfl, rfl⟩
      exact ⟨[], .refl _, .entriesNil, fun _ => rfl⟩
    refine .dispatch fun t => ?_
    split
    · exact hnone.mono fun _ _ _ h _ => h
    · exact hnone.mono fun _ _ _ h _ => h
    · refine (advance_reads.bind fun _ => ih).mono ?_
      rintro s es s' ⟨_, _, rfl, ts, hts, hes, -⟩ hs
      obtain ⟨tok, htok, -, hfirst⟩ := Passes.advance_of hs Terminal.noConfusion
      refine ⟨_, hfirst.cons hts, .entriesSemi htok hes, fun h => ?_⟩
      rw [hs] at h
      cases h
    · rename_i hbrace _ _
      refine remaining_reads.andThen fun before => (attempt_reads (item?_reads hn)).andThen fun found => ?_
      rcases found with _ | _ | i
      · refine ((recoverStatement_reads before).bind fun _ => ih).mono ?_
        rintro s₁ _ s' - s₀ ⟨_, heq, -⟩
        cases heq
      · refine (attempt_reads (statement_reads hn)).andThen fun found => ?_
        cases found with
        | some stmt =>
          refine (ih.bind fun _ => .pure _).mono ?_
          rintro s₂ _ s' ⟨es, _, ⟨us, hus, hes, hclosed⟩, rfl, rfl⟩ s₁ ⟨_, heq, ts, hts, hstmt, hends⟩ s₀
            ⟨_, hfound, hsame⟩ s ⟨-, rfl⟩ hs
          cases heq
          cases hfound
          subst hsame
          refine ⟨_, hts.trans hus, .entriesStmt hstmt (endsBefore hends hus hclosed) hes, fun h => ?_⟩
          exact absurd (hs.symm.trans h) hbrace
        | none =>
          refine ((recoverStatement_reads before).bind fun _ => ih).mono ?_
          rintro s₁ _ s' - s₀ ⟨_, heq, -⟩
          cases heq
      · refine (ih.bind fun _ => .pure _).mono ?_
        rintro s₁ _ s' ⟨es, _, ⟨us, hus, hes, -⟩, rfl, rfl⟩ s₀ ⟨_, heq, hi⟩ s ⟨-, rfl⟩ hs
        cases heq
        obtain ⟨ts, hts, hi⟩ := hi
        refine ⟨_, hts.trans hus, .entriesItem hi hes, fun h => ?_⟩
        exact absurd (hs.symm.trans h) hbrace

theorem braced_yields (hn : nested.Sound) : Yields nested.braced fun b ts => Spells True (.block b) ts := by
  refine (span_reads.bind fun _ => freshId_reads.bind fun _ => (expect_reads _).bind fun _ =>
    remaining_reads.bind fun _ => (entries_reads hn _).bind fun _ => get_reads.bind fun _ =>
      (expect_reads _).bind fun _ => lastSpan_reads.bind fun _ => .pure _).mono ?_
  rintro _ _ s' ⟨_, s, ⟨-, rfl⟩, id, s₁, hid, _, _, ⟨l, hl, hfirst⟩, _, _, ⟨-, rfl⟩, es, _, ⟨ts, hts, hes, -⟩,
    _, s₂, ⟨rfl, rfl⟩, _, s₃, ⟨r, hr, hlast⟩, _, _, ⟨-, rfl⟩, rfl, rfl⟩
  have hpass := hid.trans (hfirst.cons hts)
  have hsemi : s₂.last = (l :: ts).getLast? := by
    rw [hpass.last, List.nil_append, List.getLast?_cons]
    rfl
  refine ⟨l :: (ts ++ [r]), by simpa using hpass.trans hlast, ?_⟩
  rw [hsemi]
  exact .braced hl hes hr

end Nested

/-! ## Whole texts -/

theorem level_sound (bound : Nat) : (level bound).Sound := by
  induction bound with
  | zero =>
    exact {
      block := (Reads.throw Abort.noConfusion).never
      operand := fun _ _ _ => (Reads.throw Abort.noConfusion).never
      cond := (Reads.throw Abort.noConfusion).never }
  | succ bound ih =>
    exact {
      block := Nested.braced_yields ih
      operand := fun _ power hm => Nested.binary_reads ih hm power
      cond := Nested.conditions_reads ih }

theorem items_yields {nested : Nested} (hn : nested.Sound) (bound : Nat) :
    Reads (items nested bound) fun s is s' =>
      ∃ ts, Passes ts s s' ∧ ItemsSpelled True is ts ∧ s'.terminal = .endOfInput := by
  induction bound with
  | zero => exact (Reads.throw Abort.noConfusion).never
  | succ bound ih =>
    refine isAtEnd_reads.andThen fun ended => ?_
    split
    · rename_i hended
      refine (Reads.pure _).mono ?_
      rintro _ _ s ⟨rfl, rfl⟩ _ ⟨hs, rfl⟩
      exact ⟨[], .refl _, .nil, hs.mp hended⟩
    refine remaining_reads.andThen fun before => (attempt_reads (Nested.item?_reads hn)).andThen fun found => ?_
    rcases found with _ | _ | i
    · refine ((recoverItem_reads before).bind fun _ => ih).mono ?_
      rintro s₁ _ s' - s₀ ⟨_, heq, -⟩
      cases heq
    · have hnever : Reads (unexpected .item) fun _ _ _ => False :=
        (terminal_reads.bind fun _ => span_reads.bind fun _ => report_reads _ _).mono
          fun _ _ _ ⟨_, _, _, _, _, _, hf⟩ => hf
      refine (hnever.bind fun _ => (recoverItem_reads before).bind fun _ => ih).mono ?_
      rintro s₁ _ s' ⟨_, _, hf, -⟩
      exact hf.elim
    · refine (ih.bind fun _ => .pure _).mono ?_
      rintro s₁ _ s' ⟨is, _, ⟨us, hus, his, hdone⟩, rfl, rfl⟩ s₀ ⟨_, heq, hi⟩ s ⟨-, rfl⟩ _ ⟨-, rfl⟩
      cases heq
      obtain ⟨ts, hts, hi⟩ := hi
      exact ⟨_, hts.trans hus, .cons hi his, hdone⟩

/-- The tokens of a program that is parsed without a problem spell its items, up to the end of input. -/
theorem items_of_run_end {tokens : List Token} {p : Program} (h : run program tokens = ⟨.ok p, []⟩) :
    ∃ ts rest, tokens = ts ++ rest ∧ ItemsSpelled True p.items ts ∧
      ∀ t ∈ rest.head?, t.terminal = .endOfInput := by
  have hreads : Reads program fun s p s' =>
      ∃ ts, Passes ts s s' ∧ ItemsSpelled True p.items ts ∧ s'.terminal = .endOfInput := by
    refine (span_reads.bind fun _ => remaining_reads.bind fun _ => (items_yields (level_sound _) _).bind fun _ =>
      span_reads.bind fun _ => .pure _).mono ?_
    rintro _ _ s' ⟨_, _, ⟨-, rfl⟩, _, s, ⟨-, rfl⟩, is, s₁, hitems, _, _, ⟨-, rfl⟩, rfl, rfl⟩
    exact hitems
  unfold run at h
  split at h
  · rename_i q s hrun
    injection h with hresult hproblems
    cases hresult
    obtain ⟨-, hsilent⟩ := (hreads { rest := tokens }).ok hrun
    obtain ⟨ts, hts, his, hdone⟩ := hsilent (List.reverse_eq_nil_iff.mp hproblems)
    refine ⟨ts, s.rest, hts.rest, his, ?_⟩
    intro t ht
    rw [State.terminal, Option.mem_def.mp ht] at hdone
    exact hdone
  · cases h

theorem items_of_run {tokens : List Token} {p : Program} (h : run program tokens = ⟨.ok p, []⟩) :
    ∃ ts rest, tokens = ts ++ rest ∧ ItemsSpelled True p.items ts := by
  obtain ⟨ts, rest, htokens, hitems, -⟩ := items_of_run_end h
  exact ⟨ts, rest, htokens, hitems⟩

end Ferrite.Parse
