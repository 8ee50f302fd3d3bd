import Ferrite.Proofs.Lexer.Cover
import Ferrite.Proofs.Lexer.Lines
import Ferrite.Proofs.Parse.Prolong
import Ferrite.Proofs.Parse.Reports

/-!
Texts one behind the other. Behind a program without mistakes, whatever comes next is parsed as by
itself: no item of the first text looks behind its last brace, and what is parsed behind it only
stands at other places and has other numbers.
-/

namespace Ferrite

/-- Places and numbers behind those of a text and its line end. -/
def Relabel.behind (text : String) (p : Program) : Relabel :=
  ⟨Span.shift (Text.width text.toList + 1), (· + (numbers p.nodes).length)⟩

theorem Relabel.behind_lawful (text : String) (p : Program) : (behind text p).Lawful where
  join a b := (Span.join_shift _ a b).symm
  succ n := Nat.add_right_comm n 1 _

namespace Parse

def Outcome.map {α β : Type} (f : α → β) (o : Outcome α) : Outcome β := ⟨o.result.map f, o.problems⟩

theorem Outcome.of_map {α β : Type} (f : α → β) (p : Parser α) (s : State) :
    Outcome.of ((f <$> p) s) = (Outcome.of (p s)).map f := by
  simp only [Functor.map, EStateM.map]
  cases p s <;> rfl

/-! ## Programs as lists of items -/

/-- All items of a text. -/
def itemList : Parser (List Item) := do
  let bound ← remaining
  items (grammar bound) (bound + 1)

theorem run_program_items (tokens : List Token) : (run program tokens).map Program.items = run itemList tokens := by
  have hprogram : program { rest := tokens } = (itemList >>= fun is => do
      return (⟨is, (State.span { rest := tokens }).join (← span)⟩ : Program)) { rest := tokens } := rfl
  rw [run_eq, run_eq, hprogram]
  simp only [Bind.bind, EStateM.bind]
  cases itemList { rest := tokens } with
  | ok is s => rfl
  | error e s => rfl

theorem itemList_ne_exhausted (s t : State) : itemList s ≠ .error .exhausted t :=
  Agree.ne_exhausted (fun _ => remaining_agree fun n _ =>
    items_agree (grammar_agree (Nat.le_refl n) (Nat.le_refl n)) (Nat.lt_succ_self n) (Nat.lt_succ_self n)) s t

/-- Greater bounds than are needed change nothing. -/
theorem itemList_enough {tokens : List Token} {n bound : Nat} (hn : tokens.length ≤ n)
    (hbound : tokens.length < bound) : items (grammar n) bound { rest := tokens } = itemList { rest := tokens } := by
  have hlevel := level_prolongs .none (by omega : 2 * tokens.length + 2 ≤ 2 * n + 2)
  exact (items_prolongs .none hlevel hbound).eq (itemList_ne_exhausted { rest := tokens })

/-! ## The first text -/

variable {nested nested' : Nested}

/-- In a run in which nothing is reported, there is an item at the first token that is left. -/
theorem items_silent {s t : State} {is : List Item} {bound : Nat} (hn : nested.AllNumbered)
    (hs : s.terminal ≠ .endOfInput) (h : items nested (bound + 1) s = .ok is t) (hsilent : t.problems = s.problems) :
    ∃ i u js, nested.item? s = .ok (some i) u ∧ items nested bound u = .ok js t ∧ is = i :: js ∧
      t.problems = u.problems := by
  have hitem := (Nested.item?_mints hn).reporting s
  rcases items_step hs h with ⟨i, u, js, hi, hjs, rfl⟩ | ⟨u, v, hmistake, hrecover, hrest⟩
  · have hmid := problems_between (hitem.ok hi).1 (((items_numbered hn bound).reporting u).ok hjs).1 hsilent
    exact ⟨i, u, js, hi, hjs, rfl, hsilent.trans hmid.symm⟩
  · have hbehind : u.problems <:+ t.problems :=
      (((plain_recoverItem s.rest.length).reporting u).ok hrecover).1.trans
        (((items_numbered hn bound).reporting v).ok hrest).1
    rcases hmistake with hi | ⟨w, hi, hreport⟩
    · exact absurd (problems_between (hitem.error hi).1 hbehind hsilent) ((hitem.error hi).2 rfl)
    · have hw : u.problems ≠ w.problems := by
        cases hreport
        exact List.cons_ne_self _ _
      have hgrow : w.problems <:+ u.problems := (((unexpected_mints .item).reporting w).ok hreport).1
      have hmid := problems_between (hitem.ok hi).1 (hgrow.trans hbehind) hsilent
      exact absurd (problems_between hgrow hbehind (hsilent.trans hmid.symm)) hw

/-- An item is read, and the others behind it. -/
theorem items_cons {s u : State} {i : Item} (hs : s.terminal ≠ .endOfInput) (hi : nested.item? s = .ok (some i) u)
    (bound : Nat) : items nested (bound + 1) s = ((i :: ·) <$> items nested bound) u := by
  rw [items, isAtEnd_bind, terminal_bind, if_neg (by simpa using hs), map_eq_pure_bind]
  show EStateM.bind (attempt nested.item?) _ s = _
  simp only [EStateM.bind, attempt, hi]

/-- Items without mistakes are read across the seam as they were read in front of it, and what comes
behind the seam is read next. -/
theorem items_across {c : Seam} {bound bound' m : Nat} {s t : State} {is : List Item} (hnum : nested.AllNumbered)
    (hn : nested.Prolongs c nested') (hb : Closes c nested.block nested'.block)
    (h : items nested bound s = .ok is t) (hsilent : t.problems = s.problems) (hend : c.old <:+ t.rest)
    (hbound : s.rest.length + m ≤ bound' + t.rest.length) :
    ∃ bound'', m ≤ bound'' ∧
      items nested' bound' (s.across c) = ((is ++ ·) <$> items nested' bound'') (t.across c) := by
  induction bound generalizing s is bound' with
  | zero => cases h
  | succ bound ih =>
    by_cases hs : s.terminal = .endOfInput
    · unfold items at h
      rw [isAtEnd_bind, terminal_bind, if_pos (by simpa using hs)] at h
      cases h
      refine ⟨bound', by omega, ?_⟩
      simp only [List.nil_append, id_map']
    · obtain ⟨i, u, js, hi, hjs, rfl, hsilent'⟩ := items_silent hnum hs h hsilent
      have hsuffix : t.rest <:+ u.rest := ((items_prolongs c hn (Nat.le_refl bound) u).ok hjs).1
      obtain ⟨hsuffix', hless, hitem⟩ := Nested.item?_closes hb hi
      have hu : c.old <:+ u.rest := hend.trans hsuffix
      have hpos := hsuffix.length_le
      obtain ⟨bound', rfl⟩ : ∃ b, bound' = b + 1 := ⟨bound' - 1, by omega⟩
      have hless' : u.rest.length + m ≤ bound' + t.rest.length := by omega
      obtain ⟨bound'', hm, hrest⟩ := ih hjs hsilent' hless'
      refine ⟨bound'', hm, ?_⟩
      have hterminal := (State.Ahead.of_less hu hsuffix' hless).terminal
      rw [items_cons (by rwa [hterminal]) (hitem hu)]
      simp only [Functor.map, EStateM.map] at hrest ⊢
      rw [hrest]
      cases items nested' bound'' (t.across c) <;> rfl

/-! ## The token before the second text -/

/-- Where no item starts, none is read, or a construct is met that ends the parse. -/
theorem item?_elsewhere (nested : Nested) : ∃ body : Terminal → Parser (Option Item),
    nested.item? = terminal >>= body ∧ ∀ k, ¬StartsItem k →
      body k = pure none ∨ ∃ construct, body k = (do throw (.unsupported construct (← span))) := by
  refine ⟨_, rfl, fun k hk => ?_⟩
  split
  · exact absurd (.inl rfl) hk
  · exact absurd (.inr rfl) hk
  · exact .inr ⟨.visibility, rfl⟩
  · split
    · exact .inr ⟨.item _, rfl⟩
    · exact .inl rfl
  · exact .inl rfl

theorem skipItem_last {t : Token} (ht : t.terminal ≠ .endOfInput) (hstart : ¬StartsItem t.terminal) (ts : List Token)
    (last last' : Option Token) : skipItem 0 last (t :: ts) = skipItem 0 last' (t :: ts) := by
  unfold skipItem
  split
  · exact absurd ‹_› ht
  · exact absurd (.inl ‹_›) hstart
  · exact absurd (.inr ‹_›) hstart
  · rfl
  · rfl
  · rfl

theorem recoverItem_last {s : State} (hs : s.terminal ≠ .endOfInput) (hstart : ¬StartsItem s.terminal) (before : Nat)
    (last : Option Token) : recoverItem before { s with last } = recoverItem before s := by
  have hskip : skipItem 0 last s.rest = skipItem 0 s.last s.rest := by
    unfold State.terminal at hs hstart
    cases hrest : s.rest with
    | nil => rw [hrest] at hs; exact absurd rfl hs
    | cons t ts =>
      rw [hrest] at hs hstart
      exact skipItem_last hs hstart ts last s.last
  show ensureProgress before { s with last := _, rest := _ } = ensureProgress before { s with last := _, rest := _ }
  simp only [hskip]

/-- Which token was passed before the items does not matter. -/
theorem items_outcome_last (s : State) (last : Option Token) (bound : Nat) :
    Outcome.of (items nested bound { s with last }) = Outcome.of (items nested bound s) := by
  cases bound with
  | zero => rfl
  | succ bound =>
    have hterminal : State.terminal { s with last } = s.terminal := rfl
    rw [items, isAtEnd_bind, terminal_bind, terminal_bind, hterminal]
    split
    · rfl
    rename_i hs
    have hs : s.terminal ≠ .endOfInput := by simpa using hs
    show Outcome.of (EStateM.bind (attempt nested.item?) _ _) = Outcome.of (EStateM.bind (attempt nested.item?) _ _)
    by_cases hstart : StartsItem s.terminal
    · simp only [EStateM.bind, attempt, item?_last hstart last]
    · obtain ⟨body, hbody, helsewhere⟩ := item?_elsewhere nested
      rw [hbody]
      rcases helsewhere s.terminal hstart with hnone | ⟨construct, hthrow⟩
      · -- it is reported at the current token, which is passed
        have hskip (problems : List (Located Problem)) :
            recoverItem s.rest.length { s with last, problems } = recoverItem s.rest.length { s with problems } :=
          recoverItem_last (s := { s with problems }) hs hstart _ last
        simp only [EStateM.bind, attempt, terminal_bind, hterminal, hnone]
        show Outcome.of (EStateM.bind (recoverItem _) _
            { s with last, problems := ⟨_, State.span { s with last }⟩ :: _ }) =
          Outcome.of (EStateM.bind (recoverItem _) _ { s with problems := ⟨_, s.span⟩ :: _ })
        rw [span_last hs]
        simp only [EStateM.bind, hskip]
        rfl
      · simp only [EStateM.bind, attempt, terminal_bind, hterminal, hthrow]
        show Outcome.of (.error (.unsupported construct (State.span { s with last })) _) = _
        rw [span_last hs]
        rfl

/-! ## Both texts -/

/-- What is passed up to the end of input, and holds none, is all that stands before it. -/
theorem rest_of_end {ts us : List Token} {finish : Token} {t : State} (hts : ∀ t ∈ ts, t.terminal ≠ .endOfInput)
    (hfinish : finish.terminal = .endOfInput) (hall : ts ++ [finish] = us ++ t.rest) (hus : Usual us)
    (hend : t.terminal = .endOfInput) : t.rest = [finish] := by
  rcases List.append_eq_append_iff.mp hall with ⟨more, rfl, hrest⟩ | ⟨more, rfl, hrest⟩
  · cases more with
    | nil => exact hrest.symm
    | cons first more =>
      cases (List.cons.inj hrest).1
      have husual := hus finish (by simp)
      rw [hfinish] at husual
      cases husual
  · cases more with
    | nil => exact hrest
    | cons first more =>
      rw [State.terminal, hrest] at hend
      exact absurd hend (hts first (by simp))

/-- A program without mistakes is read up to the end of input. -/
theorem itemList_silent {ts : List Token} {finish : Token} {p : Program}
    (hts : ∀ t ∈ ts, t.terminal ≠ .endOfInput) (hfinish : finish.terminal = .endOfInput)
    (h : run program (ts ++ [finish]) = ⟨.ok p, []⟩) : ∃ last, itemList { rest := ts ++ [finish] } =
      .ok p.items { rest := [finish], last, nextId := (numbers p.nodes).length, problems := [] } := by
  have hitems := run_program_items (ts ++ [finish])
  rw [h, run_eq] at hitems
  have hreads : Reads itemList fun s is t => ∃ us, Passes us s t ∧ ItemsSpelled True is us ∧ t.terminal = .endOfInput :=
    (remaining_reads.bind fun _ => items_yields (level_sound _) _).mono fun _ _ _ ⟨_, _, ⟨_, hs⟩, h⟩ => hs ▸ h
  have hnumbered : Numbered itemList itemNodes :=
    .plain_bind plain_remaining fun _ => items_numbered (level_numbered _) _
  cases hrun : itemList { rest := ts ++ [finish] } with
  | error e t =>
    rw [hrun] at hitems
    cases hitems
  | ok is t =>
    rw [hrun] at hitems
    injection hitems with his hproblems
    cases his
    have hnone : t.problems = [] := List.reverse_eq_nil_iff.mp hproblems.symm
    have hnext : t.nextId = 0 + (numbers p.nodes).length :=
      ((hnumbered { rest := ts ++ [finish] } _ (.refl _)).ok hrun).dense hnone
    obtain ⟨us, hpass, hspelled, hend⟩ := ((hreads { rest := ts ++ [finish] }).ok hrun).2 hnone
    have hrest : t.rest = [finish] := rest_of_end hts hfinish hpass.rest hspelled.usual hend
    refine ⟨t.last, ?_⟩
    rw [← hrest, ← hnone, ← Nat.zero_add (List.length _), ← hnext]

/-- What comes behind a program without mistakes is parsed at other places, with other numbers. -/
theorem run_program_behind {ts us : List Token} {finish : Token} {p : Program} {r : Relabel} (hr : r.Lawful)
    (hnumber : r.number 0 = (numbers p.nodes).length) (hts : ∀ t ∈ ts, t.terminal ≠ .endOfInput)
    (hfinish : finish.terminal = .endOfInput) (hus : us ≠ []) (h : run program (ts ++ [finish]) = ⟨.ok p, []⟩) :
    (run program (ts ++ us.map (Token.relabel r))).map Program.items =
      (((run program us).map Program.items).relabel r (List.map (Item.relabel r))).map (p.items ++ ·) := by
  obtain ⟨last, hfirst⟩ := itemList_silent hts hfinish h
  have hpos : 1 ≤ us.length := List.length_pos_iff.mpr hus
  let c : Seam := ⟨[finish], us.map (Token.relabel r), by simpa using hpos⟩
  have hlength : (ts ++ us.map (Token.relabel r)).length = ts.length + us.length := by simp
  have hfinished : (ts ++ [finish]).length = ts.length + 1 := by simp
  have hlevel : 2 * (ts ++ [finish]).length + 2 ≤ 2 * (ts ++ us.map (Token.relabel r)).length + 2 := by
    omega
  obtain ⟨bound, hbound, hacross⟩ := items_across (level_numbered _) (level_prolongs c hlevel)
    (level_closes hlevel) hfirst rfl (List.suffix_refl _)
    (by simp only [hlength, hfinished, List.length_singleton]; omega :
      (ts ++ [finish]).length + (us.length + 1) ≤
        ((ts ++ us.map (Token.relabel r)).length + 1) + [finish].length)
  have hstart : State.across c { rest := ts ++ [finish] } = { rest := ts ++ us.map (Token.relabel r) } :=
    State.across_of_rest rfl
  have hseam : State.across c { rest := [finish], last, nextId := (numbers p.nodes).length } =
      { State.relabel r { rest := us } with last } := by
    have hrest : [finish] = [] ++ c.old := rfl
    rw [State.across_of_rest hrest, ← hnumber]
    rfl
  rw [run_program_items, run_program_items, run_eq, run_eq]
  have hall : itemList { rest := ts ++ us.map (Token.relabel r) } = _ := hstart ▸ hacross
  rw [hall, hseam, Outcome.of_map, items_outcome_last, Outcome.of_relabel
    (items_equivariant hr (level_equivariant hr _) _) (.inr (.inl hus))]
  exact congrArg (fun out => Outcome.map _ (Outcome.relabel r _ (Outcome.of out)))
    (itemList_enough (by omega) hbound)

/-! ## Texts -/

/-- Makes good all mistakes that it meets. -/
def Tolerant {α : Type} (p : Parser α) : Prop := ∀ s, Ends p s (fun _ _ => True) (fun e _ => e ≠ .reported)

namespace Tolerant

variable {α β : Type} {p : Parser α}

theorem pure (a : α) : Tolerant (pure a : Parser α) := fun _ => trivial

theorem bind {f : α → Parser β} (hp : Tolerant p) (hf : ∀ a, Tolerant (f a)) : Tolerant (p >>= f) := by
  intro s
  rw [Ends.bind_iff]
  exact (hp s).mono (fun a t _ _ => hf a t) fun _ _ _ he => he

theorem reads (f : State → α) : Tolerant (do return f (← get)) := fun _ => trivial

theorem modifies (f : State → State) : Tolerant (modify f : Parser Unit) := fun _ => trivial

theorem attempt (p : Parser α) : Tolerant (attempt p) := by
  intro s
  unfold Ends Parse.attempt
  cases p s with
  | ok a t => exact trivial
  | error e t => cases e <;> first | exact trivial | exact Abort.noConfusion

theorem recoverItem (before : Nat) : Tolerant (recoverItem before) := by
  refine .bind (.modifies _) fun _ => .bind (.reads _) fun _ => ?_
  split
  · exact .modifies _
  · exact .pure _

theorem items (nested : Nested) (bound : Nat) : Tolerant (items nested bound) := by
  induction bound with
  | zero => exact fun _ => Abort.noConfusion
  | succ bound ih =>
    unfold Parse.items
    refine .bind (.reads _) fun ended => ?_
    split
    · exact .pure _
    refine .bind (.reads _) fun before => .bind (.attempt _) fun found => ?_
    rcases found with _ | _ | i
    · exact .bind (recoverItem before) fun _ => ih
    · exact .bind (.bind (.reads _) fun _ => .bind (.reads _) fun _ => .modifies _) fun _ =>
        .bind (recoverItem before) fun _ => ih
    · exact .bind ih fun _ => .pure _

end Tolerant

/-- Only a construct that is not supported ends the parse of a program. -/
theorem program_refused {tokens : List Token} {e : Abort} (h : (run program tokens).result = .error e) :
    ∃ construct place, e = .unsupported construct place := by
  have hitems := run_program_items tokens
  rw [run_eq itemList, Outcome.map, h] at hitems
  have htolerant := Tolerant.items (grammar tokens.length) (tokens.length + 1) { rest := tokens }
  cases hrun : itemList { rest := tokens } with
  | ok is t =>
    rw [hrun] at hitems
    cases hitems
  | error f t =>
    rw [hrun] at hitems
    injection hitems with hresult
    cases hresult
    cases e with
    | unsupported construct place => exact ⟨construct, place, rfl⟩
    | reported => exact absurd rfl (htolerant.error hrun)
    | exhausted => exact absurd hrun (itemList_ne_exhausted _ _)

theorem Abort.failure_relabel (r : Relabel) (e : Abort) (n : Nat) :
    (e.relabel r).failure n = (e.failure n).relabel r := by
  cases e <;> rfl

/-- The items of a text, or the failure. How many errors there were does not matter. -/
theorem ofText_items (file : FileId) (text : String) (n : Nat) :
    (ofText program file text).result.map Program.items =
      ((run program (Lexer.read file text).tokens).map Program.items).result.mapError (Abort.failure n) := by
  rw [ofText, Outcome.map]
  cases hresult : (run program (Lexer.read file text).tokens).result with
  | ok p => rfl
  | error e =>
    obtain ⟨construct, place, rfl⟩ := program_refused hresult
    rfl

end Parse
end Ferrite
