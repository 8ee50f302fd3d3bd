import Ferrite.Proofs.Parse.Alike

/-!
All that is parsed agrees with itself, one production after the other. The bounds in the statements
are the least that keep a production from meeting its own.
-/

namespace Ferrite.Parse

variable {α β γ δ : Type} {size least : Nat} {here : Terminal → Prop}

/-- Where input is left, there are tokens. -/
theorem Agree.of_pos {same : α → β → Prop} {p : Parser α} {q : Parser β} (hhere : ∀ t, here t → t ≠ .endOfInput)
    (h : 1 ≤ size → Agree here size least same p q) : Agree here size least same p q := by
  intro s s' hs hs' hlength
  have hpos := (advance_passes (hhere _ hs')).2
  exact h (by omega) s s' hs hs' hlength

/-! ## Lists in parentheses -/

section

variable {map : α → β} {element element' : Parser α}

theorem commaList_agree {bound bound' : Nat} (he : Agree anywhere size 1 (Same map) element element')
    (hbound : size < bound) (hbound' : size < bound') (comma : Bool) :
    Agree here size 0 (Same (Prod.map (List.map map) id)) (commaList element bound comma)
      (commaList element' bound' comma) := by
  induction size using Nat.strongRecOn generalizing bound bound' comma here with
  | _ size ih =>
    obtain ⟨bound, rfl⟩ := Nat.exists_eq_succ_of_ne_zero (Nat.ne_zero_of_lt hbound)
    obtain ⟨bound', rfl⟩ := Nat.exists_eq_succ_of_ne_zero (Nat.ne_zero_of_lt hbound')
    unfold commaList
    refine (still_isAt _).bind fun close _ hclose => still_isAtEnd.bind fun stop _ hstop => ?_
    subst hclose hstop
    refine .ite (.pure rfl) (he.anywhere.bind fun hsize x x' hx => ?_)
    refine accept_bind_agree (fun hsize' => ?_) (.pure ?_)
    · refine (ih (size - 1 - 1) (by omega) (he.mono (Nat.le_refl _) (by omega)) (by omega) (by omega) true).bind
        fun _ xs xs' hxs => .pure ?_
      simp only [Same, Prod.map, Prod.mk.injEq, List.map_cons] at hx hxs ⊢
      exact ⟨by rw [hx, hxs.1], hxs.2⟩
    · simp only [Same, Prod.map, List.map_cons, List.map_nil] at hx ⊢
      rw [hx]

theorem parenthesized_agree (he : 1 ≤ size → Agree anywhere (size - 1) 1 (Same map) element element') :
    Agree here size 2 (Same (Prod.map (List.map map) id)) (parenthesized element) (parenthesized element') := by
  refine (expect_agree _).bind fun hsize _ _ _ => ?_
  refine remaining_agree fun n hn => ?_
  refine (commaList_agree ((he hsize).mono (Nat.le_refl _) hn) (Nat.lt_succ_self n) (Nat.lt_succ_self n) false).bind
    fun _ list list' hlist => ?_
  exact (expect_agree _).bind fun _ _ _ _ => .pure hlist

end

/-! ## Types -/

theorem resultOf_agree {type type' : Parser Ty} (h : 1 ≤ size → Agree anywhere (size - 1) 0 (· = ·) type type') :
    Agree here size 0 (· = ·) (resultOf type) (resultOf type') :=
  accept_bind_agree h (.pure rfl)

theorem typeWithin_agree {bound bound' : Nat} (hbound : size < bound) (hbound' : size < bound') :
    Agree here size 1 (· = ·) (typeWithin bound) (typeWithin bound') := by
  induction size using Nat.strongRecOn generalizing bound bound' here with
  | _ size ih =>
    obtain ⟨bound, rfl⟩ := Nat.exists_eq_succ_of_ne_zero (Nat.ne_zero_of_lt hbound)
    obtain ⟨bound', rfl⟩ := Nat.exists_eq_succ_of_ne_zero (Nat.ne_zero_of_lt hbound')
    have hnested : ∀ n < size, Agree anywhere n 1 (Same id) (typeWithin bound) (typeWithin bound') :=
      fun n hn => ih n hn (by omega) (by omega)
    have hparams : ∀ n ≤ size, Agree anywhere n 2 (· = ·)
        (parenthesized (typeWithin bound)) (parenthesized (typeWithin bound')) := by
      intro n hn
      refine (parenthesized_agree fun hpos => hnested (n - 1) (by omega)).weaken fun list list' hlist => ?_
      rwa [Same, List.map_id_fun, Prod.map_id] at hlist
    unfold typeWithin
    refine still_span.bind fun _ _ _ => .dispatch fun t _ => ?_
    split
    · refine (known_agree Terminal.noConfusion).bind fun _ _ _ _ => ?_
      split
      · exact .pure rfl
      · exact (still_report _ _ _).bind fun _ _ _ => .pure rfl
    · exact (known_agree Terminal.noConfusion).bind fun _ _ _ _ => .pure rfl
    · refine ((hparams size (Nat.le_refl _)).anywhere.bind fun _ list list' hlist => .pure (congrArg tupleOf hlist))
    · refine (known_agree Terminal.noConfusion).bind fun _ _ _ _ => ?_
      refine (hparams (size - 1) (by omega)).bind fun _ list list' hlist => ?_
      subst hlist
      have hresult := (hnested (size - 1 - 2 - 1) (by omega)).mono (Nat.zero_le 1) (Nat.le_refl _)
      exact (resultOf_agree fun _ => hresult).bind fun _ result result' hresult => .pure (by rw [hresult])
    · exact .throw ⟨Abort.noConfusion, rfl⟩
    · exact .throw ⟨Abort.noConfusion, rfl⟩
    · exact failAt_agree _

theorem type_agree : Agree here size 1 (· = ·) type type :=
  remaining_agree fun n _ => typeWithin_agree (Nat.lt_succ_self n) (Nat.lt_succ_self n)

/-! ## Items outside of blocks -/

theorem param_agree : Agree here size 1 (Same (Prod.map (Ident.relabel .bare) id)) param param := by
  refine (acceptKeyword_agree _).bind fun _ _ _ _ => expectName_agree.bind fun _ name name' hname => ?_
  refine (expect_agree _).bind fun _ _ _ _ => type_agree.bind fun _ t t' ht => .pure ?_
  simp only [Same, Prod.map, id] at hname ⊢
  rw [hname, ht]

theorem header_agree (start start' : Span) (hhere : ∀ t, here t → t ≠ .endOfInput) :
    Agree here size 1 (Same (Header.relabel .bare)) (header start) (header start') := by
  refine still_freshId.bind fun _ _ _ => (advance_agree hhere).bind fun _ _ _ _ => ?_
  refine expectName_agree.bind fun _ name name' hname => ?_
  refine (parenthesized_agree fun _ => param_agree).bind fun _ params params' hparams => ?_
  refine (resultOf_agree fun _ => type_agree.mono (by omega) (Nat.le_refl _)).bind fun _ result result' hresult => ?_
  refine still_lastSpan.bind fun _ _ _ => .pure ?_
  simp only [Same, Prod.map, Prod.mk.injEq, id] at hname hparams
  have hnames := congrArg (List.map Prod.fst) hparams.1
  have htypes := congrArg (List.map Prod.snd) hparams.1
  simp only [List.map_map, Function.comp_def, Prod.map_fst, Prod.map_snd, id] at hnames htypes
  simp only [Same, Header.relabel, hname, hresult, htypes, List.map_map, Function.comp_def, hnames]
  rfl

theorem declaration_agree (hhere : ∀ t, here t → t ≠ .endOfInput) :
    Agree here size 1 (Same (Header.relabel .bare)) declaration declaration := by
  refine still_span.bind fun start start' _ => (header_agree start start' hhere).bind fun _ h h' hh => ?_
  refine (expect_agree _).bind fun _ _ _ _ => still_lastSpan.bind fun _ _ _ => .pure ?_
  simp only [Same, Header.relabel, Header.mk.injEq] at hh ⊢
  exact ⟨hh.1, hh.2.1, hh.2.2.1, hh.2.2.2.1, rfl⟩

/-- Behind a mistake anywhere from the current token of a state on, that token is passed. -/
theorem Recovers.resume {recover : Nat → Parser Unit} (h : Recovers recover) {g g' : Parser β} {same : β → β → Prop}
    {s t t' : State} (hs : s.terminal ≠ .endOfInput) (halike : t.Alike t') (hrest : t.rest <:+ s.rest)
    (hg : Agree anywhere (s.rest.length - 1) 0 same g g') :
    Meets s.rest 1 same ((do recover s.rest.length; g) t) ((do recover s.rest.length; g') t') := by
  refine (h s t t' hs halike hrest).bind fun _ _ u u' _ halike hrest hpassed => ?_
  exact (hg u u' halike trivial (by omega)).lift hrest (by omega)

/-- A parser whose mistakes are made good, from wherever it starts behind the current token of a state.
Where it ends well it has passed that token, and the recovery passes it otherwise. -/
theorem retry_meets {p q : Parser α} {f f' : Option α → Parser β} {g g' : Parser β}
    {recover : Nat → Parser Unit} {same : α → α → Prop} {same' : β → β → Prop} {s t t' : State}
    (hs : s.terminal ≠ .endOfInput) (hrecover : Recovers recover) (hp : Meets s.rest 1 same (p t) (q t'))
    (hsome : ∀ a b, same a b → Agree anywhere (s.rest.length - 1) 0 same' (f (some a)) (f' (some b)))
    (hnone : f none = do recover s.rest.length; g) (hnone' : f' none = do recover s.rest.length; g')
    (hg : Agree anywhere (s.rest.length - 1) 0 same' g g') :
    Meets s.rest 1 same' ((attempt p >>= f) t) ((attempt q >>= f') t') := by
  refine hp.attempt (fun a b u u' hsame halike hrest hpassed => ?_) fun u u' halike hrest => ?_
  · exact (hsome a b hsame u u' halike trivial (by omega)).lift hrest (by omega)
  · rw [hnone, hnone']
    exact hrecover.resume hs halike hrest hg

theorem retry_agree {p q : Parser α} {f f' : Nat → Option α → Parser β} {g g' : Parser β}
    {recover : Nat → Parser Unit} {same : α → α → Prop} {same' : β → β → Prop}
    (hhere : ∀ t, here t → t ≠ .endOfInput) (hrecover : Recovers recover) (hp : Agree here size 1 same p q)
    (hsome : ∀ n a b, same a b → Agree anywhere (size - 1) 0 same' (f n (some a)) (f' n (some b)))
    (hnone : ∀ n, f n none = do recover n; g) (hnone' : ∀ n, f' n none = do recover n; g')
    (hg : Agree anywhere (size - 1) 0 same' g g') :
    Agree here size 1 same' (do f (← remaining) (← attempt p)) (do f' (← remaining) (← attempt q)) := by
  intro s s' hs hs' hlength
  show Meets s.rest 1 same' ((attempt p >>= f s.rest.length) s) ((attempt q >>= f' s'.rest.length) s')
  rw [hs.length]
  have hsize : s.rest.length - 1 ≤ size - 1 := Nat.sub_le_sub_right hlength 1
  exact retry_meets (hhere _ hs') hrecover (hp s s' hs hs' hlength)
    (fun a b hsame => (hsome _ a b hsame).mono (Nat.le_refl 0) hsize) (hnone _) (hnone' _)
    (hg.mono (Nat.le_refl 0) hsize)

theorem declarations_agree {bound bound' : Nat} (hbound : size < bound) (hbound' : size < bound') :
    Agree here size 0 (Same (List.map (Header.relabel .bare))) (declarations bound) (declarations bound') := by
  induction size using Nat.strongRecOn generalizing bound bound' here with
  | _ size ih =>
    obtain ⟨bound, rfl⟩ := Nat.exists_eq_succ_of_ne_zero (Nat.ne_zero_of_lt hbound)
    obtain ⟨bound', rfl⟩ := Nat.exists_eq_succ_of_ne_zero (Nat.ne_zero_of_lt hbound')
    unfold declarations
    refine .dispatch fun t _ => ?_
    split
    · exact .pure rfl
    · exact .pure rfl
    · have hhere : ∀ t, t = Terminal.keyword .fn → t ≠ .endOfInput := fun _ h => h ▸ Terminal.noConfusion
      refine .of_pos hhere fun hpos => ?_
      have hmore : Agree anywhere (size - 1) 0 (Same (List.map (Header.relabel .bare))) (declarations bound)
          (declarations bound') := ih (size - 1) (by omega) (by omega) (by omega)
      refine (retry_agree hhere recoverStatement_recovers (declaration_agree hhere) (fun _ h h' hh => ?_)
        (fun _ => rfl) (fun _ => rfl) hmore).mono (Nat.zero_le 1) (Nat.le_refl _)
      refine hmore.bind fun _ hs hs' hhs => .pure ?_
      rw [Same, List.map_cons, List.map_cons, hh, hhs]
    · exact failAt_agree _

theorem foreign_agree (hhere : ∀ t, here t → t ≠ .endOfInput) :
    Agree here size 1 (Same (Item.relabel .bare)) foreign foreign := by
  have hrest : ∀ (n : Nat) (start start' : Span) (abi : String), Agree anywhere n 0 (Same (Item.relabel .bare))
      (do
        expect .lbrace
        let functions ← declarations ((← remaining) + 1)
        expect .rbrace
        return .foreign (start.join (← lastSpan)) abi functions)
      (do
        expect .lbrace
        let functions ← declarations ((← remaining) + 1)
        expect .rbrace
        return .foreign (start'.join (← lastSpan)) abi functions) := by
    intro n start start' abi
    refine (expect_agree _).bind fun _ _ _ _ => remaining_agree fun m _ => ?_
    refine (declarations_agree (Nat.lt_succ_self m) (Nat.lt_succ_self m)).bind fun _ fs fs' hfs => ?_
    refine (expect_agree _).bind fun _ _ _ _ => still_lastSpan.bind fun _ _ _ => .pure ?_
    rw [Same, Item.relabel, Item.relabel, hfs]
    rfl
  refine still_span.bind fun start start' _ => (advance_agree hhere).bind fun _ _ _ _ => .dispatch fun t _ => ?_
  split
  · refine (known_agree Terminal.noConfusion).bind fun _ _ _ _ => ?_
    exact hrest _ start start' _
  · exact (hrest _ start start' _).anywhere

/-- The terminals that an item starts with. -/
def StartsItem (t : Terminal) : Prop := t = .keyword .fn ∨ t = .keyword .foreign

/-! ## Expressions -/

/-- Parsers for what is nested agree up to `size` tokens, and those for operands below `bound`. -/
structure Nested.Agree (size bound : Nat) (nested nested' : Nested) : Prop where
  block : Parse.Agree anywhere size 1 (Same (Block.relabel .bare)) nested.block nested'.block
  cond : Parse.Agree (· ≠ .endOfInput) size 1 (Same (Cond.relabel .bare)) nested.cond nested'.cond
  operand : ∀ n < bound, ∀ marks power,
    Parse.Agree anywhere n 1 (Same (Expr.relabel .bare)) (nested.operand marks power) (nested'.operand marks power)

/-- A construct that is numbered and ends with the token passed last. -/
theorem closed_agree {make make' : NodeId → Span → Expr}
    (hmake : ∀ id id' last last', Same (Expr.relabel .bare) (make id last) (make' id' last')) :
    Agree here size 0 (Same (Expr.relabel .bare)) (do let id ← freshId; return make id (← lastSpan))
      (do let id ← freshId; return make' id (← lastSpan)) :=
  still_freshId.bind fun _ _ _ => still_lastSpan.bind fun _ _ _ => .pure (hmake _ _ _ _)

/-- A tuple is met, whatever would come behind it. -/
theorem tuple_agree {same : α → β → Prop} (start start' : Span) (rest : Unit → Parser α) (rest' : Unit → Parser β) :
    Agree here size least same (do let place ← span; throw (.unsupported .tuple (start.join place)) >>= rest)
      (do let place ← span; throw (.unsupported .tuple (start'.join place)) >>= rest') :=
  fun _ _ hs _ _ => ⟨⟨Abort.noConfusion, rfl⟩, hs, List.suffix_refl _⟩

namespace Nested

variable {nested nested' : Nested}

theorem Agree.mono {size size' bound bound' : Nat} (h : nested.Agree size bound nested') (hsize : size' ≤ size)
    (hbound : bound' ≤ bound) : nested.Agree size' bound' nested' where
  block := h.block.mono (Nat.le_refl 1) hsize
  cond := h.cond.mono (Nat.le_refl 1) hsize
  operand n hn := h.operand n (Nat.lt_of_lt_of_le hn hbound)

theorem operators_agree {bound bound' : Nat} (hn : nested.Agree size size nested') (hbound : size < bound)
    (hbound' : size < bound') (marks : List Punct) (power : Nat) {lhs lhs' : Expr}
    (hlhs : Same (Expr.relabel .bare) lhs lhs') :
    Parse.Agree here size 0 (Same (Expr.relabel .bare)) (nested.operators marks power bound lhs)
      (nested'.operators marks power bound' lhs') := by
  induction size using Nat.strongRecOn generalizing bound bound' here lhs lhs' with
  | _ size ih =>
    obtain ⟨bound, rfl⟩ := Nat.exists_eq_succ_of_ne_zero (Nat.ne_zero_of_lt hbound)
    obtain ⟨bound', rfl⟩ := Nat.exists_eq_succ_of_ne_zero (Nat.ne_zero_of_lt hbound')
    unfold operators
    refine .dispatch fun t _ => .ite (.pure hlhs) ?_
    split
    · exact failAt_agree _
    · exact failAt_agree _
    · exact still_span.bind fun _ _ _ => .throw ⟨Abort.noConfusion, rfl⟩
    · split
      · exact .pure hlhs
      · rename_i op hop
        have ht : t ≠ .endOfInput := by
          rintro rfl
          cases hop
        refine .ite (.pure hlhs) ((known_agree ht).bind fun hpos _ _ _ => ?_)
        refine (hn.operand (size - 1) (by omega) _ _).bind fun _ rhs rhs' hrhs => still_freshId.bind fun id id' _ => ?_
        refine ih (size - 1 - 1) (by omega) (hn.mono (by omega) (by omega)) (by omega) (by omega) ?_
        simp only [Same, Expr.relabel] at hlhs hrhs ⊢
        rw [hlhs, hrhs]
        rfl

theorem call_agree (hn : nested.Agree size size nested') (start start' : Span) {callee callee' : Ident}
    (hcallee : Same (Ident.relabel .bare) callee callee') :
    Parse.Agree here size 0 (Same (Expr.relabel .bare)) (nested.call start callee) (nested'.call start' callee') := by
  refine (parenthesized_agree fun hpos => hn.operand (size - 1) (by omega) _ _).bind fun _ args args' hargs => ?_
  refine closed_agree fun _ _ _ _ => ?_
  simp only [Same, Prod.map, Prod.mk.injEq] at hargs hcallee
  simp only [Same, Expr.relabel, relabelExprs_eq, hargs.1, hcallee]
  rfl

theorem group_agree (hn : nested.Agree size size nested') (start start' : Span) :
    Parse.Agree (· = .punct .lparen) size 1 (Same (Expr.relabel .bare)) (nested.group start)
      (nested'.group start') := by
  refine (known_agree Terminal.noConfusion).bind fun hpos _ _ _ => (still_isAt _).bind fun close _ hclose => ?_
  subst hclose
  refine .ite (tuple_agree start start' _ _) ?_
  refine (hn.operand (size - 1) (by omega) _ _).bind fun _ inner inner' hinner => ?_
  refine (still_isAt _).bind fun comma _ hcomma => ?_
  subst hcomma
  refine .ite (tuple_agree start start' _ _) ((expect_agree _).bind fun _ _ _ _ => closed_agree fun _ _ _ _ => ?_)
  simp only [Same, Expr.relabel] at hinner ⊢
  rw [hinner]
  rfl

theorem returning_agree (hn : nested.Agree size size nested') (start start' : Span) (marks : List Punct) :
    Parse.Agree (· = .keyword .return) size 1 (Same (Expr.relabel .bare)) (nested.returning start marks)
      (nested'.returning start' marks) := by
  have hrest : ∀ n value value', Same (Option.map (Expr.relabel .bare)) value value' →
      Parse.Agree anywhere n 0 (Same (Expr.relabel .bare))
        (do let id ← freshId; return .ret id (start.join (← lastSpan)) value)
        (do let id ← freshId; return .ret id (start'.join (← lastSpan)) value') := by
    intro n value value' hvalue
    refine closed_agree fun _ _ _ _ => ?_
    rw [Same, Expr.relabel_ret, Expr.relabel_ret, hvalue]
    rfl
  refine (known_agree Terminal.noConfusion).bind fun hpos _ _ _ => .dispatch fun t _ => ?_
  refine .ite (hrest _ none none rfl).anywhere ?_
  refine Agree.anywhere ?_
  have hvalue : Parse.Agree anywhere (size - 1) 1 (Same (Option.map (Expr.relabel .bare)))
      (some <$> nested.expr marks) (some <$> nested'.expr marks) :=
    (hn.operand (size - 1) (by omega) marks 0).map fun e e' he => congrArg some he
  exact (hvalue.mono (Nat.zero_le 1) (Nat.le_refl _)).bind fun _ value value' h => hrest _ value value' h

theorem blockLike_agree (hn : nested.Agree size size nested') :
    Parse.Agree here size 1 (Same (Expr.relabel .bare)) nested.blockLike nested'.blockLike := by
  refine still_span.bind fun start start' _ => .dispatch fun t _ => ?_
  split
  · refine hn.block.anywhere.bind fun _ body body' hbody => closed_agree fun _ _ _ _ => ?_
    simp only [Same, Expr.relabel] at hbody ⊢
    rw [hbody]
    rfl
  · refine (hn.cond.here_mono fun t ht => by rw [ht]; exact Terminal.noConfusion).bind fun _ c c' hc => ?_
    refine closed_agree fun _ _ _ _ => ?_
    simp only [Same, Expr.relabel] at hc ⊢
    rw [hc]
    rfl
  · refine (known_agree Terminal.noConfusion).bind fun _ _ _ _ => ?_
    refine (hn.block.mono (Nat.zero_le 1) (by omega)).bind fun _ body body' hbody => closed_agree fun _ _ _ _ => ?_
    simp only [Same, Expr.relabel] at hbody ⊢
    rw [hbody]
    rfl
  · refine (known_agree Terminal.noConfusion).bind fun _ _ _ _ => ?_
    refine (hn.operand (size - 1) (by omega) _ _).bind fun _ c c' hc => ?_
    refine (hn.block.mono (Nat.zero_le 1) (by omega)).bind fun _ body body' hbody => closed_agree fun _ _ _ _ => ?_
    simp only [Same, Expr.relabel] at hc hbody ⊢
    rw [hc, hbody]
    rfl
  · exact failAt_agree _

theorem primary_agree (hn : nested.Agree size size nested') (marks : List Punct) :
    Parse.Agree here size 1 (Same (Expr.relabel .bare)) (nested.primary marks) (nested'.primary marks) := by
  refine still_span.bind fun start start' _ => .dispatch fun t _ => ?_
  refine .ite (failAt_agree _) (.ite (blockLike_agree hn) ?_)
  split
  · exact (known_agree Terminal.noConfusion).bind fun _ _ _ _ => still_freshId.bind fun _ _ _ => .pure rfl
  · refine (known_agree Terminal.noConfusion).bind fun _ _ _ _ => (still_isAt _).bind fun call _ hcall => ?_
    subst hcall
    refine .ite (call_agree (hn.mono (by omega) (by omega)) start start' rfl) ?_
    exact still_freshId.bind fun _ _ _ => .pure rfl
  · exact group_agree hn start start'
  · exact returning_agree hn start start' marks
  · exact .throw ⟨Abort.noConfusion, rfl⟩
  · exact .throw ⟨Abort.noConfusion, rfl⟩
  · exact .throw ⟨Abort.noConfusion, rfl⟩
  · exact .throw ⟨Abort.noConfusion, rfl⟩
  · exact failAt_agree _

theorem unary_agree (hn : nested.Agree size size nested') (marks : List Punct) :
    Parse.Agree here size 1 (Same (Expr.relabel .bare)) (nested.unary marks) (nested'.unary marks) := by
  refine .dispatch fun t _ => ?_
  split
  · exact primary_agree hn marks
  · rename_i op hop
    have ht : t ≠ .endOfInput := by
      rintro rfl
      cases hop
    refine still_span.bind fun _ _ _ => (known_agree ht).bind fun _ _ _ _ => ?_
    refine (hn.operand (size - 1) (by omega) _ _).bind fun _ e e' he => still_freshId.bind fun _ _ _ => .pure ?_
    simp only [Same, Expr.relabel] at he ⊢
    rw [he]
    rfl

theorem binary_agree (hn : nested.Agree size size nested') (marks : List Punct) (power : Nat) :
    Parse.Agree here size 1 (Same (Expr.relabel .bare)) (nested.binary marks power) (nested'.binary marks power) :=
  (unary_agree hn marks).bind fun _ _ _ hlhs => remaining_agree fun n _ =>
    operators_agree (hn.mono (by omega) (by omega)) (Nat.lt_succ_self n) (Nat.lt_succ_self n) marks power hlhs

theorem conditions_agree (hn : 1 ≤ size → nested.Agree (size - 1) size nested')
    (hhere : ∀ t, here t → t ≠ .endOfInput) :
    Parse.Agree here size 1 (Same (Cond.relabel .bare)) nested.conditions nested'.conditions := by
  refine (advance_agree hhere).bind fun hpos _ _ _ => ?_
  have hn : nested.Agree (size - 1) size nested' := hn hpos
  refine (hn.operand (size - 1) (by omega) _ _).bind fun _ c c' hc => ?_
  have hn : nested.Agree (size - 1 - 1) size nested' := hn.mono (Nat.sub_le _ _) (Nat.le_refl _)
  have hblock := hn.block.mono (Nat.zero_le 1) (Nat.le_refl _)
  refine hblock.bind fun _ yes yes' hyes => ?_
  simp only [Same] at hc hyes
  refine (acceptKeyword_agree _).bind fun _ more _ hmore => ?_
  subst hmore
  refine .ite (.dispatch fun t _ => ?_) (.pure (by rw [Same, Cond.relabel, Cond.relabel, hc, hyes]))
  split
  case isTrue ht =>
    have hthere : ∀ t', t' = t → t' ≠ .endOfInput := fun t' ht' => by
      rw [ht', ht]
      exact Terminal.noConfusion
    have hcond := (hn.cond.here_mono hthere).mono (Nat.zero_le 1) (Nat.le_refl _)
    refine hcond.bind fun _ no no' hno => .pure ?_
    simp only [Same, Cond.relabel] at hno ⊢
    rw [hc, hyes, hno]
  case isFalse =>
    refine hblock.anywhere.bind fun _ no no' hno => .pure ?_
    simp only [Same, Cond.relabel] at hno ⊢
    rw [hc, hyes, hno]

/-! ## Items, statements and blocks -/

theorem function_agree (hn : nested.Agree size size nested') (hhere : ∀ t, here t → t ≠ .endOfInput) :
    Parse.Agree here size 1 (Same (Item.relabel .bare)) nested.function nested'.function := by
  refine still_span.bind fun start start' _ => (header_agree start start' hhere).bind fun _ h h' hh => ?_
  refine (hn.block.mono (Nat.zero_le 1) (by omega)).bind fun _ body body' hbody => ?_
  refine still_lastSpan.bind fun _ _ _ => .pure ?_
  simp only [Same, Header.relabel, Item.relabel, Header.mk.injEq, Item.function.injEq] at hh hbody ⊢
  exact ⟨⟨hh.1, hh.2.1, hh.2.2.1, hh.2.2.2.1, rfl⟩, hbody⟩

theorem item?_agree (hn : nested.Agree size size nested') :
    Parse.Agree StartsItem size 1 (fun i i' => ∃ j j', i = some j ∧ i' = some j' ∧ Same (Item.relabel .bare) j j')
      nested.item? nested'.item? := by
  refine .dispatch fun t ht => ?_
  rcases ht with rfl | rfl
  · have hfn : ∀ t, t = Terminal.keyword .fn → t ≠ .endOfInput := fun _ h => h ▸ Terminal.noConfusion
    exact (function_agree hn hfn).map fun j j' hj => ⟨j, j', rfl, rfl, hj⟩
  · have hforeign : ∀ t, t = Terminal.keyword .foreign → t ≠ .endOfInput := fun _ h => h ▸ Terminal.noConfusion
    exact (foreign_agree hforeign).map fun j j' hj => ⟨j, j', rfl, rfl, hj⟩

theorem item?_none_agree :
    Parse.Agree (fun t => ¬StartsItem t) size 0 (fun i i' => i = none ∧ i' = none) nested.item? nested'.item? := by
  refine .dispatch fun t ht => ?_
  split
  · exact absurd (.inl rfl) ht
  · exact absurd (.inr rfl) ht
  · exact still_span.bind fun _ _ _ => .throw ⟨Abort.noConfusion, rfl⟩
  · exact .ite (still_span.bind fun _ _ _ => .throw ⟨Abort.noConfusion, rfl⟩) (.pure ⟨rfl, rfl⟩)
  · exact .pure ⟨rfl, rfl⟩

theorem binding_agree (hn : nested.Agree size size nested') :
    Parse.Agree (· = .keyword .let) size 1 (Same (Stmt.relabel .bare)) nested.binding nested'.binding := by
  refine still_span.bind fun start start' _ => still_freshId.bind fun id id' _ => ?_
  refine (known_agree Terminal.noConfusion).bind fun hpos _ _ _ => (acceptKeyword_agree _).bind fun _ _ _ _ => ?_
  refine expectName_agree.bind fun _ name name' hname => ?_
  have hrest : ∀ n < size, ∀ declared : Option Ty, Parse.Agree anywhere n 0 (Same (Stmt.relabel .bare))
      (do
        expect .eq
        let init ← nested.expr [.semi]
        expect .semi
        return .bind id (start.join (← lastSpan)) name declared init)
      (do
        expect .eq
        let init ← nested'.expr [.semi]
        expect .semi
        return .bind id' (start'.join (← lastSpan)) name' declared init) := by
    intro n hn' declared
    refine (expect_agree _).bind fun _ _ _ _ => (hn.operand (n - 1) (by omega) _ _).bind fun _ init init' hinit => ?_
    refine (expect_agree _).bind fun _ _ _ _ => still_lastSpan.bind fun _ _ _ => .pure ?_
    simp only [Same, Stmt.relabel] at hinit hname ⊢
    rw [hname, hinit]
    rfl
  refine accept_bind_agree (fun _ => ?_) (hrest _ (by omega) none)
  refine (type_agree.mono (Nat.zero_le 1) (Nat.le_refl _)).map (fun t t' ht => congrArg some ht)
    |>.bind fun _ declared _ hdeclared => ?_
  subst hdeclared
  exact hrest _ (by omega) declared

theorem exprStatement_agree (hn : nested.Agree size (size + 1) nested') :
    Parse.Agree here size 1 (Same (Stmt.relabel .bare)) nested.exprStatement nested'.exprStatement := by
  have hrest : ∀ n start start' e e', Same (Expr.relabel .bare) e e' →
      Parse.Agree anywhere n 0 (Same (Stmt.relabel .bare))
      (do
        let semi ← accept .semi
        if !semi && !e.endsInBlock && !(← isAt .rbrace) then failAt (.unexpected .statementEnd)
        else return .expr (Span.join start (← lastSpan)) e semi)
      (do
        let semi ← accept .semi
        if !semi && !e'.endsInBlock && !(← isAt .rbrace) then failAt (.unexpected .statementEnd)
        else return .expr (Span.join start' (← lastSpan)) e' semi) := by
    intro n start start' e e' he
    have hblock : e'.endsInBlock = e.endsInBlock := by
      rw [← Expr.relabel_endsInBlock .bare e', ← Expr.relabel_endsInBlock .bare e, he]
    refine (accept_agree _).bind fun _ semi _ hsemi => ?_
    subst hsemi
    refine (still_isAt _).bind fun close _ hclose => ?_
    subst hclose
    rw [hblock]
    refine .ite (failAt_agree _) (still_lastSpan.bind fun _ _ _ => .pure ?_)
    simp only [Same, Stmt.relabel] at he ⊢
    rw [he]
    rfl
  refine still_span.bind fun start start' _ => .dispatch fun t _ => ?_
  refine .ite ((blockLike_agree (hn.mono (Nat.le_refl _) (Nat.le_succ _))).bind fun _ e e' he => hrest _ _ _ e e' he) ?_
  exact (hn.operand size (Nat.lt_succ_self _) _ _).anywhere.bind fun _ e e' he => hrest _ _ _ e e' he

theorem statement_agree (hn : nested.Agree size (size + 1) nested') :
    Parse.Agree here size 1 (Same (Stmt.relabel .bare)) nested.statement nested'.statement := by
  refine .dispatch fun t _ => ?_
  split
  case isTrue ht => exact (binding_agree (hn.mono (Nat.le_refl _) (Nat.le_succ _))).here_mono fun _ h => h ▸ ht
  case isFalse => exact exprStatement_agree hn

theorem entries_agree {bound bound' : Nat} (hn : nested.Agree size (size + 1) nested') (hbound : size < bound)
    (hbound' : size < bound') :
    Parse.Agree here size 0 (Same (List.map (Entry.relabel .bare))) (nested.entries bound)
      (nested'.entries bound') := by
  induction size using Nat.strongRecOn generalizing bound bound' here with
  | _ size ih =>
    obtain ⟨bound, rfl⟩ := Nat.exists_eq_succ_of_ne_zero (Nat.ne_zero_of_lt hbound)
    obtain ⟨bound', rfl⟩ := Nat.exists_eq_succ_of_ne_zero (Nat.ne_zero_of_lt hbound')
    have hmore : 1 ≤ size → ∀ n < size, Parse.Agree anywhere n 0 (Same (List.map (Entry.relabel .bare)))
        (nested.entries bound) (nested'.entries bound') := fun hpos n hn' =>
      ih n hn' (hn.mono (by omega) (by omega)) (by omega) (by omega)
    have hitem := item?_agree (hn.mono (Nat.le_refl size) (Nat.le_succ size))
    unfold entries
    refine .dispatch fun t _ => ?_
    split
    · exact .pure rfl
    · exact .pure rfl
    · exact (known_agree Terminal.noConfusion).bind fun hpos _ _ _ => hmore hpos _ (by omega)
    · rename_i hend _
      have hhere : ∀ t', t' = t → t' ≠ .endOfInput := fun _ h => h ▸ hend
      refine .of_pos hhere fun hpos => ?_
      by_cases ht : StartsItem t
      · refine (retry_agree hhere recoverStatement_recovers (hitem.here_mono fun _ h => h ▸ ht) ?_ (fun _ => rfl)
          (fun _ => rfl) (hmore hpos _ (by omega))).mono (Nat.zero_le 1) (Nat.le_refl _)
        rintro _ _ _ ⟨j, j', rfl, rfl, hj⟩
        refine (hmore hpos (size - 1) (by omega)).bind fun _ es es' hes => .pure ?_
        simp only [Same, List.map_cons, Entry.relabel] at hj hes ⊢
        rw [hj, hes]
      · intro s s' hs hs' hlength
        have hmore : Parse.Agree anywhere (s.rest.length - 1) 0 (Same (List.map (Entry.relabel .bare)))
            (nested.entries bound) (nested'.entries bound') := (hmore hpos (size - 1) (by omega)).mono
          (Nat.le_refl 0) (by omega)
        have hend : s.terminal ≠ .endOfInput := hhere _ hs'
        suffices hmeets : Meets s.rest 1 (Same (List.map (Entry.relabel .bare))) _ _ from
          hmeets.lift (List.suffix_refl _) (by omega)
        show Meets s.rest 1 _ ((attempt nested.item? >>= _) s) ((attempt nested'.item? >>= _) s')
        rw [hs.length]
        refine (item?_none_agree s s' hs (hs' ▸ ht) hlength).attempt (fun i i' u u' hnone halike hrest hpassed => ?_)
          fun u u' halike hrest => ?_
        · obtain ⟨rfl, rfl⟩ := hnone
          have hstatement : Parse.Agree anywhere size 1 (Same (Stmt.relabel .bare)) nested.statement
              nested'.statement := statement_agree hn
          have hstatement := (hstatement u u' halike trivial (by omega)).lift hrest
            (Nat.add_le_add_right hrest.length_le 1)
          refine retry_meets hend recoverStatement_recovers hstatement (fun st st' hst => ?_) rfl rfl hmore
          refine hmore.bind fun _ es es' hes => .pure ?_
          simp only [Same, List.map_cons, Entry.relabel] at hst hes ⊢
          rw [hst, hes]
        · exact recoverStatement_recovers.resume hend halike hrest hmore

/-- Whether the token passed last is a `;`. -/
theorem still_lastIsSemi : Still (fun s s' => (s.last.map Token.terminal = some (.punct .semi)) =
    (s'.last.map Token.terminal = some (.punct .semi))) (get : Parser State) (get : Parser State) :=
  fun s s' hs => ⟨s, s', s, s', rfl, rfl, propext hs.last, hs, rfl⟩

theorem braced_agree (hn : 1 ≤ size → nested.Agree (size - 1) size nested') :
    Parse.Agree here size 1 (Same (Block.relabel .bare)) nested.braced nested'.braced := by
  refine still_span.bind fun start start' _ => still_freshId.bind fun id id' _ => ?_
  refine (expect_agree _).bind fun hpos _ _ _ => remaining_agree fun n hn' => ?_
  have hnested : nested.Agree n (n + 1) nested' := (hn hpos).mono hn' (by omega)
  refine (entries_agree hnested (Nat.lt_succ_self n) (Nat.lt_succ_self n)).bind fun _ es es' hes => ?_
  refine still_lastIsSemi.bind fun s s' hsemi => (expect_agree _).bind fun _ _ _ _ => ?_
  refine still_lastSpan.bind fun last last' _ => .pure ?_
  have hitems := congrArg (List.filterMap Entry.item?) hes
  have hstmts := congrArg (List.filterMap Entry.stmt?) hes
  have htail := congrArg (tail? · (s.last.map Token.terminal = some (.punct .semi))) hes
  simp only [entries_items_relabel, entries_stmts_relabel, tail?_relabel] at hitems hstmts htail
  have hsome := congrArg Option.isSome htail
  simp only [Option.isSome_map] at hsome
  simp only [Same, Block.relabel_mk, ← hsemi, hitems, htail, hsome, apply_ite (List.map (Stmt.relabel .bare)),
    List.map_dropLast, hstmts]
  rfl

end Nested

/-! ## Whole texts -/

theorem level_agree {n m : Nat} {size bound : Nat} (hn : 2 * size + 1 ≤ n) (hn' : 2 * bound ≤ n)
    (hm : 2 * size + 1 ≤ m) (hm' : 2 * bound ≤ m) : (level n).Agree size bound (level m) := by
  induction n generalizing m size bound with
  | zero => omega
  | succ n ih =>
    obtain ⟨m, rfl⟩ := Nat.exists_eq_succ_of_ne_zero (Nat.ne_zero_of_lt hm)
    have hless : 1 ≤ size → (level n).Agree (size - 1) size (level m) := fun hpos =>
      ih (by omega) (by omega) (by omega) (by omega)
    exact {
      block := Nested.braced_agree hless
      cond := Nested.conditions_agree hless fun _ h => h
      operand := fun k hk marks power =>
        Nested.binary_agree (ih (by omega) (by omega) (by omega) (by omega)) marks power }

theorem grammar_agree {size n m : Nat} (hn : size ≤ n) (hm : size ≤ m) :
    (grammar n).Agree size (size + 1) (grammar m) :=
  level_agree (by omega) (by omega) (by omega) (by omega)

theorem isAtEnd_bind (f : Bool → Parser α) :
    (isAtEnd >>= f) = (terminal >>= fun t => f (t = .endOfInput)) := rfl

theorem items_agree {nested nested' : Nested} {bound bound' : Nat} (hn : nested.Agree size (size + 1) nested')
    (hbound : size < bound) (hbound' : size < bound') :
    Agree here size 0 (Same (List.map (Item.relabel .bare))) (items nested bound) (items nested' bound') := by
  induction size using Nat.strongRecOn generalizing bound bound' here with
  | _ size ih =>
    obtain ⟨bound, rfl⟩ := Nat.exists_eq_succ_of_ne_zero (Nat.ne_zero_of_lt hbound)
    obtain ⟨bound', rfl⟩ := Nat.exists_eq_succ_of_ne_zero (Nat.ne_zero_of_lt hbound')
    unfold items
    rw [isAtEnd_bind, isAtEnd_bind]
    refine .dispatch fun t _ => ?_
    split
    case isTrue => exact .pure rfl
    case isFalse ht =>
      have hhere : ∀ t', t' = t → t' ≠ .endOfInput := fun _ h => h ▸ of_decide_eq_false (Bool.of_not_eq_true ht)
      refine .of_pos hhere fun hpos => ?_
      have hmore : Agree anywhere (size - 1) 0 (Same (List.map (Item.relabel .bare))) (items nested bound)
          (items nested' bound') :=
        ih (size - 1) (by omega) (hn.mono (by omega) (by omega)) (by omega) (by omega)
      by_cases hstart : StartsItem t
      · have hitem := Nested.item?_agree (hn.mono (Nat.le_refl size) (Nat.le_succ size))
        refine (retry_agree hhere recoverItem_recovers (hitem.here_mono fun _ h => h ▸ hstart) ?_ (fun _ => rfl)
          (fun _ => rfl) hmore).mono (Nat.zero_le 1) (Nat.le_refl _)
        rintro _ _ _ ⟨j, j', rfl, rfl, hj⟩
        refine hmore.bind fun _ is is' his => .pure ?_
        rw [Same, List.map_cons, List.map_cons, hj, his]
      · intro s s' hs hs' hlength
        have hmore := hmore.mono (Nat.le_refl 0) (Nat.sub_le_sub_right hlength 1)
        suffices hmeets : Meets s.rest 1 (Same (List.map (Item.relabel .bare))) _ _ from
          hmeets.lift (List.suffix_refl _) (by omega)
        show Meets s.rest 1 _ ((attempt nested.item? >>= _) s) ((attempt nested'.item? >>= _) s')
        rw [hs.length]
        refine (Nested.item?_none_agree s s' hs (hs' ▸ hstart) hlength).attempt
          (fun i i' u u' hnone halike hrest hpassed => ?_) fun u u' halike hrest => ?_
        · obtain ⟨rfl, rfl⟩ := hnone
          have hreport : Agree anywhere size 0 (fun _ _ => True) (unexpected .item) (unexpected .item) :=
            unexpected_agree _
          refine ((hreport u u' halike trivial (by omega)).lift hrest (by omega)).bind
            fun _ _ v v' _ halike hrest _ => ?_
          exact recoverItem_recovers.resume (hhere _ hs') halike hrest hmore
        · exact recoverItem_recovers.resume (hhere _ hs') halike hrest hmore

theorem still_unexpected (wanted : Wanted) : Still (fun _ _ => True) (unexpected wanted) (unexpected wanted) :=
  fun _ _ hs => ⟨_, _, _, _, rfl, rfl, trivial, ⟨hs.words, hs.last⟩, rfl⟩

theorem still_strayItems (is is' : List Item) : Still (fun _ _ => True)
    (is.forM fun i => report .strayItem i.span) (is'.forM fun i => report .strayItem i.span) := by
  have hrun : ∀ (is : List Item) (s : State), ∃ problems,
      (is.forM fun i => report .strayItem i.span) s = .ok () { s with problems } := by
    intro is
    induction is with
    | nil => exact fun s => ⟨s.problems, rfl⟩
    | cons i is ih => exact fun s => ih { s with problems := ⟨.strayItem, i.span⟩ :: s.problems }
  intro s s' hs
  obtain ⟨problems, hproblems⟩ := hrun is s
  obtain ⟨problems', hproblems'⟩ := hrun is' s'
  exact ⟨_, _, _, _, hproblems, hproblems', trivial, ⟨hs.words, hs.last⟩, rfl⟩

theorem statements_agree {nested nested' : Nested} {bound bound' : Nat}
    (hn : nested.Agree size (size + 1) nested') (hbound : size < bound) (hbound' : size < bound') :
    Agree here size 0 (Same (List.map (Stmt.relabel .bare))) (statements nested bound)
      (statements nested' bound') := by
  induction bound generalizing size bound' here with
  | zero => omega
  | succ bound ih =>
    obtain ⟨bound', rfl⟩ := Nat.exists_eq_succ_of_ne_zero (Nat.ne_zero_of_lt hbound')
    unfold statements
    refine remaining_agree fun n hn' => ?_
    have hnested : nested.Agree n (n + 1) nested' := hn.mono hn' (by omega)
    refine (Nested.entries_agree hnested (Nat.lt_succ_self n) (Nat.lt_succ_self n)).bind fun _ es es' hes => ?_
    refine (still_strayItems _ _).bind fun _ _ _ => ?_
    have hstmts := congrArg (List.filterMap Entry.stmt?) hes
    rw [Nested.entries_stmts_relabel, Nested.entries_stmts_relabel] at hstmts
    rw [isAtEnd_bind, isAtEnd_bind]
    refine .dispatch fun t _ => ?_
    split
    case isTrue => exact .pure hstmts
    case isFalse ht =>
      have hend : t ≠ .endOfInput := of_decide_eq_false (Bool.of_not_eq_true ht)
      refine .of_pos (fun _ h => h ▸ hend) fun hpos => ?_
      refine (still_unexpected _).bind fun _ _ _ => (known_agree hend).bind fun _ _ _ _ => ?_
      refine (ih (hnested.mono (by omega) (by omega)) (by omega) (by omega)).bind fun _ ss ss' hss => .pure ?_
      rw [Same, List.map_append, List.map_append, hstmts, hss]

theorem statementList_agree :
    Agree here size 0 (Same (List.map (Stmt.relabel .bare))) statementList statementList :=
  remaining_agree fun n _ => statements_agree (grammar_agree (Nat.le_refl n) (Nat.le_refl n)) (Nat.lt_succ_self n)
    (Nat.lt_succ_self n)

theorem expression_agree : Agree here size 0 (Same (Expr.relabel .bare)) expression expression := by
  refine remaining_agree fun n _ => ?_
  have hoperand := (grammar_agree (Nat.le_refl n) (Nat.le_refl n)).operand n (Nat.lt_succ_self n) [] 0
  refine (hoperand.mono (Nat.zero_le 1) (Nat.le_refl n)).anywhere.bind fun _ e e' he => ?_
  refine still_isAtEnd.bind fun ended _ hended => ?_
  subst hended
  exact .ite (.pure he) (failAt_agree _)

end Ferrite.Parse
