import Ferrite.Proofs.Parse.Braces
import Ferrite.Proofs.Parse.Takes

/-!
A mistake in the body of one function costs no item behind that body. The parser may take the end of a
nested block for the end of the body and go on reading items in it. But no item it reads there goes
beyond the body, and skipping to the next item stops at the end of the body at the latest.
-/

namespace Ferrite.Parse

/-- The tokens begin in a body that `close` ends, with `rest` behind it, or they are just `rest`. -/
inductive InBody (close : Token) (rest : List Token) : List Token → Prop
  | behind : InBody close rest rest
  | within {us : List Token} {d : Nat} (hbraces : braces d us = some 0)
      (hend : ∀ t ∈ us, t.terminal ≠ .endOfInput) : InBody close rest (us ++ close :: rest)

section

variable {close : Token} {rest : List Token}

/-- Where an item may begin, or nothing is left. -/
def ItemsFrom (ts : List Token) : Prop := first ts = .endOfInput ∨ StartsItem (first ts)

theorem InBody.of_climbs {us : List Token} {d : Nat} {s t : State} (hclose : close.terminal = .punct .rbrace)
    (hs : s.rest = us ++ close :: rest) (hbraces : braces d us = some 0)
    (hend : ∀ t ∈ us, t.terminal ≠ .endOfInput) (h : Climbs 0 0 s t) :
    ∃ vs e, t.rest = vs ++ close :: rest ∧ braces e vs = some 0 ∧ ∀ t ∈ vs, t.terminal ≠ .endOfInput := by
  obtain ⟨ts, m, hpassed, hts, -⟩ := h
  rw [hs] at hpassed
  have hinside : ∃ vs, us = ts ++ vs ∧ t.rest = vs ++ close :: rest := by
    rcases List.append_eq_append_iff.mp hpassed with ⟨as, rfl, hrest⟩ | hinside
    · cases as with
      | nil => exact ⟨[], by simp, hrest.symm⟩
      | cons a as =>
        -- the tokens passed would close the body, which they have not opened
        obtain ⟨rfl, -⟩ := List.cons.inj hrest
        rw [braces_append, Option.bind_eq_some_iff] at hts
        obtain ⟨e, he, hts⟩ := hts
        have hboth := (braces_add he d).symm.trans (Nat.zero_add d ▸ hbraces)
        obtain rfl : e = 0 := by
          have := Option.some.inj hboth
          omega
        simp [braces, hclose] at hts
    · exact hinside
  obtain ⟨vs, rfl, hrest⟩ := hinside
  have hts := braces_add hts d
  rw [Nat.zero_add] at hts
  rw [braces_append, hts, Option.bind_some] at hbraces
  exact ⟨vs, m + d, hrest, hbraces, fun t ht => hend t (List.mem_append_right _ ht)⟩

/-- Skipping to the next item from inside the body stops at the end of the body at the latest. Each brace
that the skipping counts as open is one of those open in the body. -/
theorem skipItem_inBody (hclose : close.terminal = .punct .rbrace) (hrest : ItemsFrom rest) {us : List Token}
    {depth d : Nat} (last : Option Token) (hdepth : depth ≤ d) (hbraces : braces d us = some 0)
    (hend : ∀ t ∈ us, t.terminal ≠ .endOfInput) :
    (skipItem depth last (us ++ close :: rest)).2 = rest ∨
      ∃ vs e, (skipItem depth last (us ++ close :: rest)).2 = vs ++ close :: rest ∧ braces e vs = some 0 ∧
        (∀ t ∈ vs, t.terminal ≠ .endOfInput) ∧ StartsItem (first (vs ++ close :: rest)) := by
  induction us generalizing depth d last with
  | nil =>
    obtain rfl : d = 0 := Option.some.inj hbraces
    obtain rfl : depth = 0 := Nat.le_zero.mp hdepth
    left
    cases rest with
    | nil => simp [skipItem, hclose]
    | cons t ts =>
      rcases hrest with h | h | h <;> rw [first_cons] at h <;> simp [skipItem, hclose, h]
  | cons t us ih =>
    rw [List.forall_mem_cons] at hend
    obtain ⟨ht, hend⟩ := hend
    rw [List.cons_append]
    by_cases hopen : t.terminal = .punct .lbrace
    · rw [braces_open hopen] at hbraces
      simpa [skipItem, hopen] using ih (some t) (Nat.add_le_add_right hdepth 1) hbraces hend
    by_cases hshut : t.terminal = .punct .rbrace
    · obtain ⟨d, rfl⟩ : ∃ e, d = e + 1 := by
        cases d with
        | zero => simp [braces, hshut] at hbraces
        | succ d => exact ⟨d, rfl⟩
      rw [braces_close hshut] at hbraces
      simpa [skipItem, hshut] using ih (some t) (Nat.sub_le_of_le_add hdepth) hbraces hend
    have htail := hbraces
    rw [braces_plain hopen hshut] at htail
    by_cases hitem : StartsItem t.terminal ∧ depth = 0
    · right
      refine ⟨t :: us, d, ?_, hbraces, List.forall_mem_cons.mpr ⟨ht, hend⟩, hitem.1⟩
      obtain ⟨hitem | hitem, rfl⟩ := hitem <;> simp [skipItem, hitem]
    · have hskip : skipItem depth last (t :: (us ++ close :: rest)) =
          skipItem depth (some t) (us ++ close :: rest) := by
        rw [not_and] at hitem
        unfold StartsItem at hitem
        cases depth <;> simp_all [skipItem]
      rw [hskip]
      exact ih (some t) hdepth htail hend

/-- From the body or behind it, the recovery goes to an item in the body or behind it. -/
theorem recoverItem_inBody (hclose : close.terminal = .punct .rbrace) (hrest : ItemsFrom rest) {before : Nat}
    (hbefore : rest.length < before) {s : State} (hs : InBody close rest s.rest) :
    Ends (recoverItem before) s (fun _ t => InBody close rest t.rest) fun _ t => InBody close rest t.rest := by
  show Ends (ensureProgress before) { s with last := _, rest := (skipItem 0 s.last s.rest).2 } _ _
  generalize hu : State.mk (skipItem 0 s.last s.rest).2 _ _ _ = u
  have hrestOf : u.rest = (skipItem 0 s.last s.rest).2 := by rw [← hu]
  have hstop : u.rest = rest ∨ ∃ vs e, u.rest = vs ++ close :: rest ∧ braces e vs = some 0 ∧
      (∀ t ∈ vs, t.terminal ≠ .endOfInput) ∧ StartsItem (first (vs ++ close :: rest)) := by
    rw [hrestOf]
    generalize s.rest = ts at hs
    cases hs with
    | within hbraces hend => exact skipItem_inBody hclose hrest s.last (Nat.zero_le _) hbraces hend
    | behind =>
      left
      cases rest with
      | nil => rfl
      | cons t ts => rcases hrest with h | h | h <;> rw [first_cons] at h <;> simp [skipItem, h]
  unfold Ends
  rw [ensureProgress_run]
  show InBody close rest (if u.rest.length = before then u.advance else u).rest
  rcases hstop with hbehind | ⟨vs, e, hwithin, hbraces, hend, hstart⟩
  · rw [if_neg (by rw [hbehind]; omega), hbehind]
    exact .behind
  · split
    · have hplain : NoClose u.terminal := by
        rw [terminal_eq_first hwithin]
        rcases hstart with h | h <;> rw [h] <;> decide
      have hadvance : Climbs 0 0 u u.advance := known_keeps hplain u rfl
      obtain ⟨vs', e', hrest', hbraces', hend'⟩ := InBody.of_climbs hclose hwithin hbraces hend hadvance
      rw [hrest']
      exact .within hbraces' hend'
    · rw [hwithin]
      exact .within hbraces hend

/-! ## One item after the other -/

variable {nested : Nested} {bound : Nat}

/-- What was done at the first token that was left, if all went well to the end. -/
theorem items_step {s t : State} {is : List Item} (hs : s.terminal ≠ .endOfInput)
    (h : items nested (bound + 1) s = .ok is t) :
    (∃ i u js, nested.item? s = .ok (some i) u ∧ items nested bound u = .ok js t ∧ is = i :: js) ∨
    ∃ u v, (nested.item? s = .error .reported u ∨ ∃ w, nested.item? s = .ok none w ∧ unexpected .item w = .ok () u) ∧
      recoverItem s.rest.length u = .ok () v ∧ items nested bound v = .ok is t := by
  unfold items at h
  rw [isAtEnd_bind, terminal_bind, if_neg (by simpa using hs)] at h
  have h : (attempt nested.item? >>= _) s = .ok is t := h
  obtain ⟨found, u, hfound, h⟩ := run_bind_ok h
  unfold attempt at hfound
  split at hfound
  · rename_i o w hitem
    cases hfound
    cases o with
    | some i =>
      obtain ⟨js, v, hjs, h⟩ := run_bind_ok h
      cases h
      exact .inl ⟨i, _, js, hitem, hjs, rfl⟩
    | none =>
      obtain ⟨_, u', hreport, h⟩ := run_bind_ok h
      obtain ⟨_, v, hrecover, h⟩ := run_bind_ok h
      exact .inr ⟨u', v, .inr ⟨_, hitem, hreport⟩, hrecover, h⟩
  · rename_i w hitem
    cases hfound
    obtain ⟨_, v, hrecover, h⟩ := run_bind_ok h
    exact .inr ⟨_, v, .inl hitem, hrecover, h⟩
  · cases hfound

/-- An item passes a token, and so does the recovery where none could be read. -/
theorem items_passes {s t : State} {is : List Item} (hn : nested.Keeps)
    (ha : nested.Agree s.rest.length s.rest.length nested) (hclose : close.terminal = .punct .rbrace)
    (hrest : ItemsFrom rest) (hs : s.terminal ≠ .endOfInput) (hlength : rest.length < s.rest.length)
    (hitem : Ends nested.item? s (fun _ u => InBody close rest u.rest) fun _ u => InBody close rest u.rest)
    (h : items nested (bound + 1) s = .ok is t) :
    ∃ u js, InBody close rest u.rest ∧ u.rest.length < s.rest.length ∧ items nested bound u = .ok js t ∧
      js <:+ is := by
  have hkeeps : Keeps anywhere 0 0 nested.item? := Nested.item?_keeps hn
  have hclimbs := hkeeps s trivial
  rcases items_step hs h with ⟨i, u, js, hrun, hjs, rfl⟩ | ⟨u, v, hmistake, hrecover, hrun⟩
  · refine ⟨u, js, hitem.ok hrun, ?_, hjs, List.suffix_cons i js⟩
    by_cases hstart : StartsItem s.terminal
    · have hmeets := Nested.item?_agree ha s s (.refl s) hstart (Nat.le_refl _)
      rw [hrun] at hmeets
      exact hmeets.2.2.2
    · have hnone : Agree (fun t => ¬StartsItem t) s.rest.length 0 _ nested.item? nested.item? :=
        Nested.item?_none_agree
      have hmeets := hnone s s (.refl s) hstart (Nat.le_refl _)
      rw [hrun] at hmeets
      cases hmeets.1.1
  · have hu : InBody close rest u.rest ∧ u.rest <:+ s.rest := by
      rcases hmistake with hrun | ⟨w, hrun, hreport⟩
      · exact ⟨hitem.error hrun, (hclimbs.error hrun).suffix⟩
      · have hw : u.rest = w.rest := by
          cases hreport
          rfl
        rw [hw]
        exact ⟨hitem.ok hrun, (hclimbs.ok hrun).suffix⟩
    have hpassed := recoverItem_recovers s u u hs (.refl u) hu.2
    rw [hrecover] at hpassed
    exact ⟨v, is, (recoverItem_inBody hclose hrest hlength hu.1).ok hrecover, hpassed.2.2.2, hrun,
      List.suffix_refl is⟩

/-- Reading items from inside a body gets to the end of the body, and goes on there. -/
theorem items_reach {s t : State} {is : List Item} (hn : nested.Keeps)
    (ha : nested.Agree s.rest.length s.rest.length nested) (hclose : close.terminal = .punct .rbrace)
    (hrest : ItemsFrom rest) (hs : InBody close rest s.rest) (hbound : s.rest.length < bound)
    (h : items nested bound s = .ok is t) :
    ∃ bound' s' is', s'.rest = rest ∧ rest.length < bound' ∧ items nested bound' s' = .ok is' t ∧ is' <:+ is := by
  induction bound generalizing s is with
  | zero => omega
  | succ bound ih =>
    generalize hrestOf : s.rest = ts at hs
    cases hs with
    | behind => exact ⟨bound + 1, s, is, hrestOf, hrestOf ▸ hbound, h, List.suffix_refl is⟩
    | @within us d hbraces hend =>
      have hopen : s.terminal ≠ .endOfInput := by
        rw [terminal_eq_first hrestOf]
        cases us with
        | nil =>
          rw [List.nil_append, first_cons, hclose]
          exact Terminal.noConfusion
        | cons u us => exact hend u List.mem_cons_self
      have hlength : rest.length < s.rest.length := by
        rw [hrestOf, List.length_append, List.length_cons]
        omega
      have hinside : ∀ u, Climbs 0 0 s u → InBody close rest u.rest := fun u hu => by
        obtain ⟨vs, e, hvs, hbraces', hend'⟩ := InBody.of_climbs hclose hrestOf hbraces hend hu
        rw [hvs]
        exact .within hbraces' hend'
      have hkeeps : Keeps anywhere 0 0 nested.item? := Nested.item?_keeps hn
      have hitem := (hkeeps s trivial).mono (fun _ u _ hu => hinside u hu) fun _ u _ hu => hinside u hu
      obtain ⟨u, js, hu, hless, hjs, hsuffix⟩ := items_passes hn ha hclose hrest hopen hlength hitem h
      obtain ⟨bound', s', is', hs', hbound', his', hsuffix'⟩ :=
        ih (ha.mono (Nat.le_of_lt hless) (Nat.le_of_lt hless)) hu (by omega) hjs
      exact ⟨bound', s', is', hs', hbound', his', hsuffix'.trans hsuffix⟩

/-! ## The body itself -/

theorem expect_run (p : Punct) (s : State) :
    expect p s = if s.terminal = .punct p then .ok () s.advance else failAt (.unexpected (.punct p)) s := by
  rw [expect, accept_bind]
  rfl

/-- The mark is passed, or the tokens are left alone. -/
theorem expect_ends (p : Punct) (s : State) :
    Ends (expect p) s (fun _ t => s.terminal = .punct p ∧ t = s.advance) fun _ t => t.rest = s.rest := by
  unfold Ends
  rw [expect_run]
  by_cases h : s.terminal = .punct p
  · rw [if_pos h]
    exact ⟨h, rfl⟩
  · rw [if_neg h]
    exact rfl

theorem advance_rest {s : State} {t : Token} {ts : List Token} {p : Punct} (hs : s.rest = t :: ts)
    (ht : t.terminal = .punct p) : s.advance.rest = ts := by
  simp [State.advance, hs, Token.isEnd, ht]

/-- A closing brace of the body leads to what is left of the body, and the brace of the body leads out
of it. -/
theorem expect_inBody (hclose : close.terminal = .punct .rbrace) {s : State} {body : List Token} {d : Nat}
    (hs : s.rest = body ++ close :: rest) (hbody : braces d body = some 0)
    (hend : ∀ t ∈ body, t.terminal ≠ .endOfInput) :
    Ends (expect .rbrace) s (fun _ u => InBody close rest u.rest) fun _ u => InBody close rest u.rest := by
  refine (expect_ends _ s).mono (fun _ u _ hu => ?_) fun _ u _ hu => ?_
  · obtain ⟨hterminal, rfl⟩ := hu
    cases body with
    | nil =>
      rw [advance_rest hs hclose]
      exact .behind
    | cons t ts =>
      have ht : t.terminal = .punct .rbrace := by rwa [terminal_eq_first hs] at hterminal
      rw [advance_rest hs ht]
      cases d with
      | zero => simp [braces, ht] at hbody
      | succ d =>
        rw [braces_close ht] at hbody
        exact .within hbody fun t ht => hend t (List.mem_cons_of_mem _ ht)
  · rw [hu, hs]
    exact .within hbody hend

/-- The block that the body is ends behind its last brace, or it was given up inside. -/
theorem braced_inBody {l : Token} {body : List Token} (hn : nested.Keeps) (hl : l.terminal = .punct .lbrace)
    (hclose : close.terminal = .punct .rbrace) (hbody : braces 0 body = some 0)
    (hend : ∀ t ∈ body, t.terminal ≠ .endOfInput) {s : State} (hs : s.rest = l :: (body ++ close :: rest)) :
    Ends nested.braced s (fun _ u => InBody close rest u.rest) fun _ u => InBody close rest u.rest := by
  have hopen : ∀ u : State, u.rest = l :: (body ++ close :: rest) →
      Ends (expect .lbrace) u (fun _ v => v.rest = body ++ close :: rest) fun _ v => InBody close rest v.rest := by
    intro u hu
    unfold Ends
    rw [expect_run, if_pos (by rw [terminal_eq_first hu]; exact hl)]
    exact advance_rest hu hl
  have hentries : ∀ (u : State) n, u.rest = body ++ close :: rest → Ends (nested.entries n) u
      (fun _ v => ∃ vs d, v.rest = vs ++ close :: rest ∧ braces d vs = some 0 ∧ ∀ t ∈ vs, t.terminal ≠ .endOfInput)
      fun _ v => InBody close rest v.rest := by
    intro u n hu
    have hkeeps : Keeps anywhere 0 0 (nested.entries n) := Nested.entries_keeps hn n
    refine (hkeeps u trivial).mono (fun _ v _ hv => InBody.of_climbs hclose hu hbody hend hv) fun _ v _ hv => ?_
    obtain ⟨vs, d, hvs, hbraces, hend⟩ := InBody.of_climbs hclose hu hbody hend hv
    rw [hvs]
    exact .within hbraces hend
  show Ends (expect .lbrace >>= _) { s with nextId := s.nextId + 1 } _ _
  rw [Ends.bind_iff]
  refine (hopen { s with nextId := s.nextId + 1 } hs).mono (fun _ u _ hu => ?_) fun _ _ _ h => h
  show Ends (nested.entries (u.rest.length + 1) >>= _) u _ _
  rw [Ends.bind_iff]
  refine (hentries u _ hu).mono (fun es v _ hv => ?_) fun _ _ _ h => h
  obtain ⟨vs, d, hvs, hbraces, hend⟩ := hv
  show Ends (expect .rbrace >>= _) v _ _
  rw [Ends.bind_iff]
  exact (expect_inBody hclose hvs hbraces hend).mono (fun _ w _ hw => hw) fun _ _ _ h => h

/-- The tokens are a function's header, if the others come behind it: it is read to its end, and no more. -/
def IsHeader (ts rest : List Token) : Prop :=
  first ts = .keyword .fn ∧ ∃ start h t, header start { rest := ts ++ rest } = .ok h t ∧ t.rest = rest

theorem IsHeader.run {ts rest : List Token} (hheader : IsHeader ts rest) (start : Span) :
    ∃ h t, header start { rest := ts ++ rest } = .ok h t ∧ t.rest = rest := by
  obtain ⟨hfirst, start', h, t, hrun, ht⟩ := hheader
  have hfn : State.terminal { rest := ts ++ rest } = .keyword .fn := by
    cases ts with
    | nil => cases hfirst
    | cons t ts => exact hfirst
  have hagree : Agree (· = Terminal.keyword .fn) (ts ++ rest).length 1 (Same (Header.relabel .bare)) (header start)
      (header start') := header_agree start start' fun _ h => h ▸ Terminal.noConfusion
  have hmeets := hagree _ _ (.refl { rest := ts ++ rest }) hfn (Nat.le_refl _)
  rcases hmeets.ends with ⟨h', _, u, t', hrun', hrun'', -, halike, hsuffix, -⟩ | ⟨e, f, u, t', -, hrun'', -⟩
  · rw [hrun] at hrun''
    cases hrun''
    refine ⟨h', u, hrun', ?_⟩
    have hlength : u.rest.length = rest.length := by rw [← halike.length, ht]
    have hrest : u.rest <:+ rest :=
      List.suffix_of_suffix_length_le hsuffix (List.suffix_append ts rest) (Nat.le_of_eq hlength)
    exact hrest.eq_of_length hlength
  · rw [hrun] at hrun''
    cases hrun''

/-- A function with the body is read up to the end of the body, or it is given up inside. -/
theorem item?_inBody {hs ts : List Token} (hheader : IsHeader hs ts)
    (hblock : ∀ s, s.rest = ts →
      Ends nested.block s (fun _ u => InBody close rest u.rest) fun _ u => InBody close rest u.rest) :
    Ends nested.item? { rest := hs ++ ts } (fun _ u => InBody close rest u.rest)
      fun _ u => InBody close rest u.rest := by
  have hfn : State.terminal { rest := hs ++ ts } = .keyword .fn := by
    cases hs with
    | nil => cases hheader.1
    | cons t hs => exact hheader.1
  have hitem : nested.item? { rest := hs ++ ts } = (some <$> nested.function) { rest := hs ++ ts } := by
    rw [Nested.item?, terminal_bind, hfn]
  unfold Ends
  rw [hitem]
  show Ends (some <$> nested.function) _ _ _
  obtain ⟨h, t, hrun, ht⟩ := hheader.run (State.span { rest := hs ++ ts })
  rw [Ends.map_iff, Nested.function, Ends.bind_iff]
  show Ends (header (State.span { rest := hs ++ ts }) >>= _) { rest := hs ++ ts } _ _
  rw [Ends.bind_iff]
  unfold Ends
  rw [hrun]
  show Ends (nested.block >>= _) t _ _
  rw [Ends.bind_iff]
  exact (hblock t ht).mono (fun _ _ _ h => h) fun _ _ _ h => h

/-! ## Whole programs -/

theorem advance_last {s : State} (hs : s.terminal ≠ .endOfInput) (last : Option Token) :
    State.advance { s with last } = s.advance := by
  unfold State.advance
  cases hrest : s.rest with
  | nil => exact absurd (by simp [State.terminal, hrest]) hs
  | cons t ts =>
    have ht : t.isEnd = false := by simpa [State.terminal, hrest, Token.isEnd] using hs
    simp [ht]

theorem advance_bind_last {α : Type} {s : State} (hs : s.terminal ≠ .endOfInput) (last : Option Token)
    (f : Unit → Parser α) : (advance >>= f) { s with last } = (advance >>= f) s :=
  congrArg (f ()) (advance_last hs last)

theorem span_last {s : State} (hs : s.terminal ≠ .endOfInput) (last : Option Token) :
    State.span { s with last } = s.span := by
  unfold State.span
  cases hrest : s.rest with
  | nil => exact absurd (by simp [State.terminal, hrest]) hs
  | cons t ts => rfl

theorem span_advance_last {α : Type} {s : State} (hs : s.terminal ≠ .endOfInput) (last : Option Token)
    (f : Span → Unit → Parser α) : (span >>= fun start => advance >>= f start) { s with last } =
      (span >>= fun start => advance >>= f start) s := by
  show (advance >>= f (State.span { s with last })) { s with last } = (advance >>= f s.span) s
  rw [span_last hs]
  exact advance_bind_last hs last _

theorem freshId_advance_last {α : Type} {s : State} (hs : s.terminal ≠ .endOfInput) (last : Option Token)
    (f : NodeId → Unit → Parser α) : (freshId >>= fun id => advance >>= f id) { s with last } =
      (freshId >>= fun id => advance >>= f id) s :=
  advance_bind_last (s := { s with nextId := s.nextId + 1 }) hs last (f s.nextId)

/-- What starts an item is passed at once, so nothing asks which token was passed before it. -/
theorem item?_last {s : State} (hs : StartsItem s.terminal) (last : Option Token) :
    nested.item? { s with last } = nested.item? s := by
  have hend : s.terminal ≠ .endOfInput := by rcases hs with h | h <;> rw [h] <;> exact Terminal.noConfusion
  have hheader : ∀ start, header start { s with last } = header start s := fun _ =>
    freshId_advance_last hend last _
  have hterminal : State.terminal { s with last } = s.terminal := rfl
  rw [Nested.item?, terminal_bind, terminal_bind, hterminal]
  rcases hs with h | h
  · rw [h]
    show EStateM.map _ nested.function _ = EStateM.map _ nested.function _
    have hfunction : nested.function { s with last } = nested.function s := by
      show EStateM.bind (header _) _ _ = EStateM.bind (header _) _ _
      rw [span_last hend]
      simp only [EStateM.bind, hheader]
    simp only [EStateM.map, hfunction]
  · rw [h]
    show EStateM.map _ foreign _ = EStateM.map _ foreign _
    have hforeign : foreign { s with last } = foreign s := span_advance_last hend last _
    simp only [EStateM.map, hforeign]

theorem items_last {s t : State} {is : List Item} (hs : ItemsFrom s.rest) (last : Option Token)
    (h : items nested bound s = .ok is t) : ∃ t', items nested bound { s with last } = .ok is t' := by
  cases bound with
  | zero => cases h
  | succ bound =>
    unfold items at h ⊢
    rw [isAtEnd_bind, terminal_bind] at h ⊢
    have hterminal : State.terminal { s with last } = s.terminal := rfl
    rw [hterminal]
    rcases hs with hs | hs
    · have hs : s.terminal = .endOfInput := hs
      rw [if_pos (by simpa using hs)] at h ⊢
      cases h
      exact ⟨_, rfl⟩
    · have hend : s.terminal ≠ .endOfInput := by
        show first s.rest ≠ _
        rcases hs with h | h <;> rw [h] <;> exact Terminal.noConfusion
      rw [if_neg (by simpa using hend)] at h ⊢
      refine ⟨t, Eq.trans ?_ h⟩
      show EStateM.bind (attempt nested.item?) _ _ = EStateM.bind (attempt nested.item?) _ _
      simp only [EStateM.bind, attempt, item?_last hs last]

theorem program_run {tokens : List Token} {p : Program} (h : (run program tokens).result = .ok p) :
    ∃ s, items (grammar tokens.length) (tokens.length + 1) { rest := tokens } = .ok p.items s := by
  unfold run at h
  split at h
  · rename_i q s hrun
    cases h
    have hrun : (items (grammar tokens.length) (tokens.length + 1) >>= fun is => do
        return (⟨is, (State.span { rest := tokens }).join (← span)⟩ : Program)) { rest := tokens } = .ok p s := hrun
    obtain ⟨is, t, his, hrun⟩ := run_bind_ok hrun
    cases hrun
    exact ⟨_, his⟩
  · cases h

theorem run_program {tokens : List Token} {is : List Item} {s : State}
    (h : items (grammar tokens.length) (tokens.length + 1) { rest := tokens } = .ok is s) :
    ∃ p, (run program tokens).result = .ok p ∧ p.items = is := by
  have hrun : program { rest := tokens } = .ok ⟨is, (State.span { rest := tokens }).join s.span⟩ s := by
    show EStateM.bind (items (grammar tokens.length) (tokens.length + 1)) _ _ = _
    rw [EStateM.bind, h]
    rfl
  refine ⟨⟨is, (State.span { rest := tokens }).join s.span⟩, ?_, rfl⟩
  rw [run, hrun]

/-- Mistakes in the body of a function cost no item behind it. -/
theorem program_later_items {hs body rest : List Token} {l r e : Token} {p : Program}
    (hheader : IsHeader hs (l :: (body ++ r :: (rest ++ [e])))) (hl : l.terminal = .punct .lbrace)
    (hbody : braces 0 body = some 0) (hend : ∀ t ∈ body, t.terminal ≠ .endOfInput)
    (hr : r.terminal = .punct .rbrace) (hrest : rest = [] ∨ StartsItem (first rest))
    (he : e.terminal = .endOfInput)
    (h : (run program (hs ++ l :: (body ++ r :: (rest ++ [e])))).result = .ok p) :
    ∃ q, (run program (rest ++ [e])).result = .ok q ∧
      q.items.map (Item.relabel .bare) <:+ p.items.map (Item.relabel .bare) := by
  have hitems : ItemsFrom (rest ++ [e]) := by
    rcases hrest with rfl | hrest
    · exact .inl he
    · cases rest with
      | nil => rcases hrest with h | h <;> cases h
      | cons t ts => exact .inr hrest
  obtain ⟨s, hrun⟩ := program_run h
  generalize htokens : hs ++ l :: (body ++ r :: (rest ++ [e])) = tokens at h hrun
  have hlength : (rest ++ [e]).length < tokens.length := by
    rw [← htokens]
    simp only [List.length_append, List.length_cons]
    omega
  have hfirst : State.terminal { rest := tokens } ≠ .endOfInput := by
    show first tokens ≠ _
    rw [← htokens]
    have hfn := hheader.1
    cases hs with
    | nil => cases hfn
    | cons t hs =>
      rw [List.cons_append, first_cons]
      rw [first_cons] at hfn
      exact hfn ▸ Terminal.noConfusion
  have hkeeps : (grammar tokens.length).Keeps := level_keeps _
  have hagree : (grammar tokens.length).Agree tokens.length tokens.length (grammar tokens.length) :=
    (grammar_agree (Nat.le_refl _) (Nat.le_refl _)).mono (Nat.le_refl _) (Nat.le_succ _)
  have hitem : Ends (grammar tokens.length).item? { rest := tokens } (fun _ u => InBody r (rest ++ [e]) u.rest)
      fun _ u => InBody r (rest ++ [e]) u.rest := by
    have hblock : ∀ s : State, s.rest = l :: (body ++ r :: (rest ++ [e])) → Ends (grammar tokens.length).block s
        (fun _ u => InBody r (rest ++ [e]) u.rest) fun _ u => InBody r (rest ++ [e]) u.rest := fun s hs =>
      braced_inBody (level_keeps _) hl hr hbody hend hs
    have hitem := item?_inBody hheader hblock
    rwa [htokens] at hitem
  obtain ⟨u, js, hu, hless, hjs, hsuffix⟩ := items_passes hkeeps hagree hr hitems hfirst hlength hitem hrun
  obtain ⟨bound, v, ks, hv, hbound, hks, hsuffix'⟩ :=
    items_reach hkeeps (hagree.mono (Nat.le_of_lt hless) (Nat.le_of_lt hless)) hr hitems hu hless hjs
  obtain ⟨w, hks⟩ := items_last (by rw [hv]; exact hitems) none hks
  have halike : State.Alike { rest := rest ++ [e] } { v with last := none } := ⟨by rw [hv], Iff.rfl⟩
  have hmeets : Agree anywhere (rest ++ [e]).length 0 (Same (List.map (Item.relabel .bare)))
      (items (grammar (rest ++ [e]).length) ((rest ++ [e]).length + 1)) (items (grammar tokens.length) bound) :=
    items_agree (grammar_agree (Nat.le_refl _) (Nat.le_of_lt hlength)) (Nat.lt_succ_self _) hbound
  rcases (hmeets _ _ halike trivial (Nat.le_refl _)).ends with
    ⟨is, _, x, _, his, hks', hsame, -⟩ | ⟨_, _, _, _, -, hks', -⟩
  · rw [hks] at hks'
    cases hks'
    obtain ⟨q, hq, rfl⟩ := run_program his
    refine ⟨q, hq, ?_⟩
    rw [Same] at hsame
    rw [hsame]
    obtain ⟨before, hbefore⟩ := hsuffix'.trans hsuffix
    exact ⟨before.map (Item.relabel .bare), by rw [← hbefore, List.map_append]⟩
  · rw [hks] at hks'
    cases hks'

/-- `fn f() { extern { fn ) } let = }` and then `fn g() { }`: the function behind the body is kept. -/
theorem program_later_items_extern :
    let token (t : Terminal) : Token := ⟨t, default⟩
    let body := [Terminal.keyword .foreign, .punct .lbrace, .keyword .fn, .punct .rparen, .punct .rbrace,
      .keyword .let, .punct .eq].map token
    let rest := [Terminal.keyword .fn, .name "g", .punct .lparen, .punct .rparen, .punct .lbrace,
      .punct .rbrace].map token
    let ts := [Terminal.keyword .fn, .name "f", .punct .lparen, .punct .rparen].map token ++
      token (.punct .lbrace) :: (body ++ token (.punct .rbrace) :: (rest ++ [token .endOfInput]))
    ∃ p q, (run program ts).result = .ok p ∧ (run program (rest ++ [token .endOfInput])).result = .ok q ∧
      q.items.length = 1 ∧ q.items.map (Item.relabel .bare) <:+ p.items.map (Item.relabel .bare) := by
  intro token body rest ts
  have hrest : ((run program (rest ++ [token .endOfInput])).result.toOption.map (·.items.length)) = some 1 := by
    decide +kernel
  have hok : (run program ts).result.toOption.isSome = true := by decide +kernel
  cases h : (run program ts).result with
  | error e =>
    rw [h] at hok
    cases hok
  | ok p =>
    obtain ⟨q, hq, hsuffix⟩ := program_later_items ⟨rfl, default, _, _, rfl, rfl⟩ rfl (by decide) (by decide) rfl
      (.inr (.inl rfl)) rfl h
    rw [hq] at hrest
    exact ⟨p, q, rfl, hq, Option.some.inj hrest, hsuffix⟩

end

end Ferrite.Parse
