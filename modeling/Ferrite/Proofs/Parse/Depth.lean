import Ferrite.Proofs.Parse.Recovery
import Ferrite.Proofs.Parse.Silent

/-!
How many braces are open where the parser stands. Whether a production ends well or gives up, as many
are open behind it as before it, and the recoveries go on there. Only a foreign block that holds
something other than functions is given up between its own braces, so nothing is said of a run in
which that is reported.
-/

namespace Ferrite.Parse

/-- Tokens in the order of their places, up to the end of input, whose braces are balanced. -/
structure Balanced (tokens : List Token) : Prop where
  ordered : tokens.Pairwise fun t u => t.span.start < u.span.start
  inner : ∀ t ∈ tokens.dropLast, t.terminal ≠ .endOfInput
  closed : braces 0 tokens = some 0

instance (tokens : List Token) : Decidable (Balanced tokens) :=
  decidable_of_iff (tokens.Pairwise (fun t u => t.span.start < u.span.start) ∧
      (∀ t ∈ tokens.dropLast, t.terminal ≠ .endOfInput) ∧ braces 0 tokens = some 0)
    ⟨fun ⟨hordered, hinner, hclosed⟩ => ⟨hordered, hinner, hclosed⟩, fun h => ⟨h.ordered, h.inner, h.closed⟩⟩

/-- The braces that are open before the token that starts at an offset. -/
def depthAt (tokens : List Token) (offset : Nat) : Option Nat :=
  braces 0 (tokens.takeWhile fun t => t.span.start < offset)

variable {tokens : List Token}

/-! ## Where the parser stands -/

/-- The tokens that are left, and the one passed last, where so many braces are open. -/
def Reached (tokens : List Token) (depth : Nat) (last : Option Token) (rest : List Token) : Prop :=
  ∃ before, tokens = before ++ rest ∧ last = before.getLast? ∧ braces 0 before = some depth

namespace Reached

variable {d k : Nat} {last : Option Token} {t : Token} {ts : List Token}

theorem start (tokens : List Token) : Reached tokens 0 none tokens := ⟨[], rfl, rfl, rfl⟩

theorem pass (h : Reached tokens d last (t :: ts)) (ht : braces d [t] = some k) : Reached tokens k (some t) ts := by
  obtain ⟨before, rfl, -, hbraces⟩ := h
  refine ⟨before ++ [t], by simp, by simp, ?_⟩
  rw [braces_append, hbraces]
  exact ht

theorem plain (h : Reached tokens d last (t :: ts)) (hopen : t.terminal ≠ .punct .lbrace)
    (hclose : t.terminal ≠ .punct .rbrace) : Reached tokens d (some t) ts :=
  h.pass (braces_plain hopen hclose d [])

theorem enter (h : Reached tokens d last (t :: ts)) (ht : t.terminal = .punct .lbrace) :
    Reached tokens (d + 1) (some t) ts :=
  h.pass (braces_open ht d [])

theorem leave (h : Reached tokens (d + 1) last (t :: ts)) (ht : t.terminal = .punct .rbrace) :
    Reached tokens d (some t) ts :=
  h.pass (braces_close ht d [])

/-- At the end of input no brace is open. -/
theorem atEnd (h : Reached tokens d last ts) (hb : Balanced tokens)
    (hend : ∀ t ∈ ts.head?, t.terminal = .endOfInput) : d = 0 := by
  obtain ⟨before, rfl, -, hbraces⟩ := h
  have hclosed := hb.closed
  cases ts with
  | nil =>
    rw [List.append_nil, hbraces] at hclosed
    exact Option.some.inj hclosed
  | cons t ts =>
    have ht : t.terminal = .endOfInput := hend t rfl
    cases ts with
    | nil =>
      rw [braces_append, hbraces, Option.bind_some, braces_plain (by simp [ht]) (by simp [ht])] at hclosed
      exact Option.some.inj hclosed
    | cons u ts => exact absurd ht (hb.inner t (by simp))

/-- A brace is closed only where one is open. -/
theorem pos (h : Reached tokens d last (t :: ts)) (hb : Balanced tokens) (ht : t.terminal = .punct .rbrace) :
    0 < d := by
  obtain ⟨before, rfl, -, hbraces⟩ := h
  have hclosed := hb.closed
  rw [braces_append, hbraces, Option.bind_some] at hclosed
  cases d with
  | zero => simp [braces, ht] at hclosed
  | succ d => exact Nat.succ_pos d

end Reached

/-- Behind a mistake in a statement as many braces are open as before it. -/
theorem skipStatement_reached (hb : Balanced tokens) {d k : Nat} {last : Option Token} {ts : List Token}
    (h : Reached tokens (d + k) last ts) :
    Reached tokens d (skipStatement k last ts).1 (skipStatement k last ts).2 := by
  fun_induction skipStatement k last ts with
  | case1 =>
    obtain ⟨rfl, rfl⟩ := Nat.add_eq_zero_iff.mp (h.atEnd hb (by simp))
    exact h
  | case2 _ _ _ _ hend =>
    obtain ⟨rfl, rfl⟩ := Nat.add_eq_zero_iff.mp (h.atEnd hb (by simpa using hend))
    exact h
  | case3 _ _ _ hsemi => exact h.plain (by simp [hsemi]) (by simp [hsemi])
  | case4 _ _ _ _ hopen ih => exact ih (h.enter hopen)
  | case5 => exact h
  | case6 _ _ _ hclose => exact h.leave hclose
  | case7 _ _ _ _ hclose ih => exact ih (h.leave hclose)
  | case8 last t ts depth _ _ hopen hnone hone hmore ih =>
    have hclose : t.terminal ≠ .punct .rbrace := by
      intro ht
      rcases depth with _ | _ | depth
      · exact hnone ht rfl
      · exact hone ht rfl
      · exact hmore depth ht rfl
    exact ih (h.plain hopen hclose)

/-- Behind a mistake outside all braces, the next item is looked for outside all braces. -/
theorem skipItem_reached (hb : Balanced tokens) {k : Nat} {last : Option Token} {ts : List Token}
    (h : Reached tokens k last ts) : Reached tokens 0 (skipItem k last ts).1 (skipItem k last ts).2 := by
  fun_induction skipItem k last ts with
  | case1 =>
    obtain rfl := h.atEnd hb (by simp)
    exact h
  | case2 _ _ _ _ hend =>
    obtain rfl := h.atEnd hb (by simpa using hend)
    exact h
  | case3 => exact h
  | case4 => exact h
  | case5 _ _ _ _ hopen ih => exact ih (h.enter hopen)
  | case6 _ t ts depth hclose ih =>
    obtain ⟨depth, rfl⟩ := Nat.exists_eq_succ_of_ne_zero (Nat.ne_of_gt (h.pos hb hclose))
    exact ih (h.leave hclose)
  | case7 _ _ _ _ _ _ _ hopen hclose ih => exact ih (h.plain hopen hclose)

/-- What was passed between two places is in front of what is left at the second one. -/
theorem Reached.between {d k : Nat} {last last' : Option Token} {ts us : List Token} (h : Reached tokens d last ts)
    (h' : Reached tokens k last' us) (hle : us.length ≤ ts.length) :
    ∃ mid, ts = mid ++ us ∧ (mid ≠ [] → last' = mid.getLast?) := by
  obtain ⟨before, htokens, -, -⟩ := h
  obtain ⟨before', htokens', rfl, -⟩ := h'
  obtain ⟨mid, rfl⟩ : us <:+ ts :=
    List.suffix_of_suffix_length_le (htokens' ▸ List.suffix_append _ _) (htokens ▸ List.suffix_append _ _) hle
  have hbefore : before' = before ++ mid := by
    rw [← List.append_assoc] at htokens
    exact List.append_cancel_right (htokens'.symm.trans htokens)
  refine ⟨mid, rfl, fun hne => ?_⟩
  rw [hbefore, List.getLast?_append_of_ne_nil _ hne]

/-! ## States -/

namespace State

/-- The parser stands where so many braces are open. -/
abbrev At (tokens : List Token) (depth : Nat) (s : State) : Prop := Reached tokens depth s.last s.rest

/-- No foreign block was given up between its braces. -/
def Calm (s : State) : Prop := ∀ q ∈ s.problems, ∀ found, q.value ≠ .unexpected .declaration found

variable {d k : Nat} {s t : State}

theorem At.atEnd (h : s.At tokens d) (hb : Balanced tokens) (hend : s.terminal = .endOfInput) : d = 0 := by
  refine Reached.atEnd h hb fun t ht => ?_
  rwa [State.terminal, Option.mem_def.mp ht] at hend

theorem exists_rest (hend : s.terminal ≠ .endOfInput) : ∃ t ts, s.rest = t :: ts ∧ t.terminal = s.terminal ∧
    s.span = t.span ∧ s.advance = { s with rest := ts, last := some t } := by
  cases hrest : s.rest with
  | nil => exact absurd (by simp [State.terminal, hrest]) hend
  | cons t ts =>
    have ht : t.terminal = s.terminal := by simp [State.terminal, hrest]
    have hgo : t.isEnd = false := by simpa [Token.isEnd, ht] using hend
    exact ⟨t, ts, rfl, ht, by simp [State.span, hrest], by simp [State.advance, hrest, hgo]⟩

theorem advance_atEnd (hend : s.terminal = .endOfInput) : s.advance = s := by
  unfold State.advance
  cases hrest : s.rest with
  | nil => rfl
  | cons t ts =>
    have ht : t.isEnd = true := by simpa [Token.isEnd, State.terminal, hrest] using hend
    simp [ht]

theorem At.advance (h : s.At tokens d) (hend : s.terminal ≠ .endOfInput) (hopen : s.terminal ≠ .punct .lbrace)
    (hclose : s.terminal ≠ .punct .rbrace) : s.advance.At tokens d := by
  obtain ⟨t, ts, hrest, ht, -, hadvance⟩ := exists_rest hend
  rw [At, hrest] at h
  rw [hadvance]
  exact h.plain (ht ▸ hopen) (ht ▸ hclose)

theorem At.enter (h : s.At tokens d) (hopen : s.terminal = .punct .lbrace) : s.advance.At tokens (d + 1) := by
  obtain ⟨t, ts, hrest, ht, -, hadvance⟩ := exists_rest (s := s) (by simp [hopen])
  rw [At, hrest] at h
  rw [hadvance]
  exact Reached.enter h (ht.trans hopen)

theorem At.leave (h : s.At tokens (d + 1)) (hclose : s.terminal = .punct .rbrace) : s.advance.At tokens d := by
  obtain ⟨t, ts, hrest, ht, -, hadvance⟩ := exists_rest (s := s) (by simp [hclose])
  rw [At, hrest] at h
  rw [hadvance]
  exact Reached.leave h (ht.trans hclose)

theorem At.ordered (h : s.At tokens d) (hb : Balanced tokens) :
    s.rest.Pairwise fun t u => t.span.start < u.span.start := by
  obtain ⟨before, rfl, -⟩ := h
  exact (List.pairwise_append.mp hb.ordered).2.1

/-- The depth at the current token. -/
theorem At.depth (h : s.At tokens d) (hb : Balanced tokens) (hne : s.rest ≠ []) :
    depthAt tokens s.span.start = some d := by
  obtain ⟨before, htokens, -, hbraces⟩ := h
  obtain ⟨t, ts, hrest⟩ := List.exists_cons_of_ne_nil hne
  have hspan : s.span = t.span := by simp [State.span, hrest]
  have hbefore : ∀ u ∈ before, u.span.start < t.span.start := fun u hu => by
    have hordered := hb.ordered
    rw [htokens] at hordered
    exact (List.pairwise_append.mp hordered).2.2 u hu t (by simp [hrest])
  rw [depthAt, htokens, hspan, hrest, List.takeWhile_append_of_pos (by simpa using hbefore),
    List.takeWhile_cons_of_neg (by simp), List.append_nil]
  exact hbraces

/-- What stands behind starts behind. -/
theorem At.start_le (hs : s.At tokens d) (ht : t.At tokens k) (hb : Balanced tokens)
    (hle : t.rest.length ≤ s.rest.length) (hne : t.rest ≠ []) : s.span.start ≤ t.span.start := by
  obtain ⟨mid, hrest, -⟩ := hs.between ht hle
  obtain ⟨u, us, hus⟩ := List.exists_cons_of_ne_nil hne
  have hordered := hs.ordered hb
  have ht : t.span = u.span := by simp [State.span, hus]
  rw [hrest, hus] at hordered
  rw [ht, State.span, hrest, hus]
  cases mid with
  | nil => exact Nat.le_refl _
  | cons m mid => exact Nat.le_of_lt ((List.pairwise_cons.mp hordered).1 u (by simp))

theorem At.start_le_last (hs : s.At tokens d) (ht : t.At tokens k) (hb : Balanced tokens)
    (hless : t.rest.length < s.rest.length) : s.span.start ≤ t.lastSpan.start := by
  obtain ⟨mid, hrest, hlast⟩ := hs.between ht (Nat.le_of_lt hless)
  cases mid with
  | nil =>
    rw [hrest] at hless
    exact absurd hless (Nat.lt_irrefl _)
  | cons m mid =>
    have hordered := hs.ordered hb
    rw [hrest] at hordered
    have hfirst : s.span = m.span := by simp [State.span, hrest]
    have hlast : t.lastSpan = ((m :: mid).getLast (by simp)).span := by
      rw [State.lastSpan, hlast (by simp), List.getLast?_eq_getLast_of_ne_nil (by simp)]
      rfl
    rw [hfirst, hlast]
    rcases List.mem_cons.mp (List.getLast_mem (List.cons_ne_nil m mid)) with hm | hm
    · exact Nat.le_of_eq (congrArg (·.span.start) hm.symm)
    · exact Nat.le_of_lt ((List.pairwise_cons.mp hordered).1 _ (List.mem_append_left _ hm))

/-- What starts at the one state and is closed at the other starts there. -/
theorem At.start_join (hs : s.At tokens d) (ht : t.At tokens k) (hb : Balanced tokens)
    (hless : t.rest.length < s.rest.length) : (s.span.join t.lastSpan).start = s.span.start :=
  Nat.min_eq_left (hs.start_le_last ht hb hless)

end State

/-! ## Runs in which no foreign block is given up between its braces -/

/-- From the state, the parser ends `good` or gives up `bad` for a mistake; if, up to there, no foreign
block was given up between its braces, and if the assumption holds. -/
def Lays {α : Type} (s : State) (pre : Prop) (p : Parser α) (good : α → State → Prop) (bad : State → Prop) : Prop :=
  Ends p s (fun a t => t.Calm → s.Calm ∧ (pre → good a t))
    fun e t => t.Calm → s.Calm ∧ (pre → e = .reported → bad t)

namespace Lays

variable {α β : Type} {s : State} {pre pre' : Prop} {p : Parser α} {good : α → State → Prop} {bad bad' : State → Prop}

theorem mono {good' : α → State → Prop} (h : Lays s pre p good bad) (hpre : pre' → pre)
    (hgood : ∀ a t, pre' → good a t → good' a t) (hbad : ∀ t, pre' → bad t → bad' t) :
    Lays s pre' p good' bad' := by
  refine Ends.mono h ?_ ?_
  · rintro a t - ht hcalm
    obtain ⟨hs, hg⟩ := ht hcalm
    exact ⟨hs, fun h => hgood a t h (hg (hpre h))⟩
  · rintro e t - ht hcalm
    obtain ⟨hs, hg⟩ := ht hcalm
    exact ⟨hs, fun h he => hbad t h (hg (hpre h) he)⟩

theorem pure {a : α} (h : pre → good a s) : Lays s pre (pure a) good bad := fun hs => ⟨hs, h⟩

theorem throw {e : Abort} (he : e ≠ .reported) : Lays s pre (throw e : Parser α) good bad :=
  fun hs => ⟨hs, fun _ h => absurd h he⟩

theorem bind {f : α → Parser β} {good' : β → State → Prop} (hp : Lays s pre p good bad)
    (hf : ∀ a t, Lays t (pre ∧ good a t) (f a) good' bad) : Lays s pre (p >>= f) good' bad := by
  unfold Lays
  rw [Ends.bind_iff]
  refine Ends.mono hp (fun a t _ ht => ?_) fun _ _ _ h => h
  refine Ends.mono (hf a t) (fun b u _ hu hcalm => ?_) fun e u _ hu hcalm => ?_
  · obtain ⟨hcalm', hb⟩ := hu hcalm
    obtain ⟨hs, ha⟩ := ht hcalm'
    exact ⟨hs, fun h => hb ⟨h, ha h⟩⟩
  · obtain ⟨hcalm', he⟩ := hu hcalm
    obtain ⟨hs, ha⟩ := ht hcalm'
    exact ⟨hs, fun h => he ⟨h, ha h⟩⟩

/-- A parser of which more is known than is asked for here. -/
theorem step {f : α → Parser β} {good' : β → State → Prop} (hp : Lays s pre' p good bad') (hpre : pre → pre')
    (hbad : ∀ t, pre → bad' t → bad t) (hf : ∀ a t, Lays t (pre ∧ good a t) (f a) good' bad) :
    Lays s pre (p >>= f) good' bad :=
  bind (hp.mono hpre (fun _ _ _ h => h) hbad) hf

theorem map {f : α → β} {good' : β → State → Prop} (hp : Lays s pre p (fun a t => good' (f a) t) bad) :
    Lays s pre (f <$> p) good' bad := by
  unfold Lays
  rw [Ends.map_iff]
  exact hp

theorem ite {c : Prop} [Decidable c] {q : Parser α} (hp : c → Lays s pre p good bad)
    (hq : ¬c → Lays s pre q good bad) : Lays s pre (if c then p else q) good bad := by
  split
  · exact hp ‹_›
  · exact hq ‹_›

/-- What is read off the state. -/
theorem read {g : State → α} {f : α → Parser β} {good : β → State → Prop} (hf : Lays s pre (f (g s)) good bad) :
    Lays s pre ((do return g (← get)) >>= f) good bad := hf

theorem get {f : State → Parser β} {good : β → State → Prop} (hf : Lays s pre (f s) good bad) :
    Lays s pre (MonadState.get >>= f) good bad := hf

theorem fresh {f : NodeId → Parser β} {good : β → State → Prop}
    (hf : Lays { s with nextId := s.nextId + 1 } pre (f s.nextId) good bad) :
    Lays s pre (freshId >>= f) good bad := hf

theorem calm_advance (h : s.advance.Calm) : s.Calm := by
  unfold State.Calm at h
  rwa [advance_problems] at h

/-- A run that is one from behind the current token. -/
theorem of_advance {p q : Parser β} {good : β → State → Prop} (hrun : p s = q s.advance)
    (hq : Lays s.advance pre q good bad) : Lays s pre p good bad := by
  unfold Lays Ends
  rw [hrun]
  exact Ends.mono hq (fun _ _ _ h hcalm => (h hcalm).imp_left calm_advance) fun _ _ _ h hcalm =>
    (h hcalm).imp_left calm_advance

theorem of_run {p q : Parser β} {good : β → State → Prop} (hrun : p s = q s) (hq : Lays s pre q good bad) :
    Lays s pre p good bad := by
  unfold Lays Ends
  rw [hrun]
  exact hq

theorem advance {f : Unit → Parser β} {good : β → State → Prop} (hf : Lays s.advance pre (f ()) good bad) :
    Lays s pre (advance >>= f) good bad := hf.of_advance rfl

/-- A mistake at the current token. -/
theorem failAt {problem : Terminal → Problem} (hbad : pre → ∀ problems, bad { s with problems }) :
    Lays s pre (failAt problem : Parser α) good bad :=
  fun hcalm => ⟨fun q hq => hcalm q (List.mem_cons_of_mem _ hq), fun h _ => hbad h _⟩

theorem accept {m : Punct} {f : Bool → Parser β} {good : β → State → Prop}
    (hyes : s.terminal = .punct m → Lays s.advance pre (f true) good bad)
    (hno : s.terminal ≠ .punct m → Lays s pre (f false) good bad) : Lays s pre (accept m >>= f) good bad := by
  have hrun := accept_bind m f s
  by_cases h : s.terminal = .punct m
  · rw [if_pos h] at hrun
    exact (hyes h).of_advance hrun
  · rw [if_neg h] at hrun
    exact (hno h).of_run hrun

theorem acceptKeyword {k : Keyword} {f : Bool → Parser β} {good : β → State → Prop}
    (hyes : s.terminal = .keyword k → Lays s.advance pre (f true) good bad)
    (hno : s.terminal ≠ .keyword k → Lays s pre (f false) good bad) :
    Lays s pre (acceptKeyword k >>= f) good bad := by
  rw [Parse.acceptKeyword, bind_assoc]
  by_cases h : s.terminal = .keyword k
  · refine (hyes h).of_advance ?_
    rw [terminal_bind, if_pos h]
    rfl
  · refine (hno h).of_run ?_
    rw [terminal_bind, if_neg h]
    rfl

theorem expect {m : Punct} {f : Unit → Parser β} {good : β → State → Prop}
    (hyes : s.terminal = .punct m → Lays s.advance pre (f ()) good bad)
    (hno : s.terminal ≠ .punct m → pre → ∀ problems, bad { s with problems }) :
    Lays s pre (expect m >>= f) good bad := by
  rw [Parse.expect, bind_assoc]
  exact accept hyes fun h hcalm => ⟨fun q hq => hcalm q (List.mem_cons_of_mem _ hq), fun hpre _ => hno h hpre _⟩

theorem attempt (h : Lays s pre p good bad) :
    Lays s pre (attempt p) (fun found t => found.elim (bad t) (good · t)) fun _ => False := by
  unfold Lays Ends Parse.attempt
  unfold Lays Ends at h
  cases hrun : p s with
  | ok a t =>
    rw [hrun] at h
    exact h
  | error e t =>
    rw [hrun] at h
    cases e with
    | reported => exact fun hcalm => (h hcalm).imp_right fun hbad hpre => hbad hpre rfl
    | unsupported construct place => exact fun hcalm => (h hcalm).imp_right fun _ _ => Abort.noConfusion
    | exhausted => exact fun hcalm => (h hcalm).imp_right fun _ _ => Abort.noConfusion

theorem report {problem : Problem} {place : Span} {f : Unit → Parser β} {good : β → State → Prop}
    (hf : Lays { s with problems := ⟨problem, place⟩ :: s.problems } pre (f ()) good bad) :
    Lays s pre (report problem place >>= f) good bad := by
  refine Ends.mono hf ?_ ?_
  · exact fun _ _ _ h hcalm => (h hcalm).imp_left fun hs q hq => hs q (List.mem_cons_of_mem _ hq)
  · exact fun _ _ _ h hcalm => (h hcalm).imp_left fun hs q hq => hs q (List.mem_cons_of_mem _ hq)

theorem unexpected {wanted : Wanted} {f : Unit → Parser β} {good : β → State → Prop}
    (hf : Lays { s with problems := ⟨.unexpected wanted s.terminal, s.span⟩ :: s.problems } pre (f ()) good bad) :
    Lays s pre (unexpected wanted >>= f) good bad := report hf

end Lays

/-! ## From one state to another -/

/-- From one state on to another, with as many braces open. -/
structure Moves (tokens : List Token) (d : Nat) (s t : State) : Prop where
  reached : t.At tokens d
  le : t.rest.length ≤ s.rest.length

/-- No brace, and not the end of input. -/
def Braceless (t : Terminal) : Prop := t ≠ .endOfInput ∧ t ≠ .punct .lbrace ∧ t ≠ .punct .rbrace

theorem braceless_name (text : String) : Braceless (.name text) := by simp [Braceless]

theorem braceless_literal (value : Literal) : Braceless (.literal value) := by simp [Braceless]

theorem braceless_keyword (k : Keyword) : Braceless (.keyword k) := by simp [Braceless]

theorem braceless_punct {m : Punct} (hm : m ≠ .lbrace ∧ m ≠ .rbrace) : Braceless (.punct m) := by
  simpa [Braceless] using hm

namespace Moves

variable {d : Nat} {s t u : State}

theorem refl (h : s.At tokens d) : Moves tokens d s s := ⟨h, Nat.le_refl _⟩

theorem trans (h : Moves tokens d s t) (h' : Moves tokens d t u) : Moves tokens d s u :=
  ⟨h'.reached, Nat.le_trans h'.le h.le⟩

/-- Numbers and problems do not matter. -/
theorem still (h : Moves tokens d s t) {nextId : NodeId} {problems : List (Located Problem)} :
    Moves tokens d s { t with nextId, problems } := ⟨h.reached, h.le⟩

theorem advance (h : Moves tokens d s t) (ht : Braceless t.terminal) : Moves tokens d s t.advance :=
  ⟨h.reached.advance ht.1 ht.2.1 ht.2.2,
    Nat.le_trans (Nat.le_of_succ_le (advance_passes ht.1).2) h.le⟩

end Moves

namespace Lays

variable {α β : Type} {d : Nat} {s t : State} {pre : Prop} {p : Parser α} {mid : α → State → Prop}

/-- A production on the way from a state to others. -/
theorem call {f : α → Parser β} {good : β → State → Prop} (hp : Lays t (t.At tokens d) p mid (Moves tokens d t))
    (hpre : pre → Moves tokens d s t) (hf : ∀ a u, Lays u (pre ∧ mid a u) (f a) good (Moves tokens d s)) :
    Lays t pre (p >>= f) good (Moves tokens d s) :=
  hp.step (fun h => (hpre h).reached) (fun _ h hu => (hpre h).trans hu) hf

/-- The last production on the way. -/
theorem tail {good : α → State → Prop} (hp : Lays t (t.At tokens d) p mid (Moves tokens d t))
    (hpre : pre → Moves tokens d s t) (hgood : ∀ a u, pre → mid a u → good a u) :
    Lays t pre p good (Moves tokens d s) :=
  hp.mono (fun h => (hpre h).reached) hgood fun _ h hu => (hpre h).trans hu

end Lays

/-- Behind the production as many braces are open as before it, and what it gives is as it should be. -/
def Stays (tokens : List Token) {α : Type} (p : Parser α) (holds : α → Prop) : Prop :=
  ∀ d s, Lays s (s.At tokens d) p (fun a t => Moves tokens d s t ∧ holds a) (Moves tokens d s)

section

variable {α : Type} {holds : α → Prop}

theorem expectName_stays : Stays tokens expectName fun _ => True := by
  intro d s
  refine .read ?_
  split
  · rename_i text hname
    exact .read (.advance (.pure fun h => ⟨(Moves.refl h).advance (hname ▸ braceless_name text), trivial⟩))
  · exact .failAt fun h _ => (Moves.refl h).still

theorem commaList_stays {element : Parser α} (he : Stays tokens element holds) (bound : Nat) (comma : Bool) :
    Stays tokens (commaList element bound comma) fun list => ∀ a ∈ list.1, holds a := by
  induction bound generalizing comma with
  | zero => exact fun _ _ => .throw Abort.noConfusion
  | succ bound ih =>
    intro d s
    unfold commaList
    refine .read (.read (.ite (fun _ => .pure fun h => ⟨.refl h, by simp⟩) fun _ => ?_))
    refine .call (he d s) .refl fun a t => .accept (fun hcomma => ?_) fun _ => ?_
    · have hcomma : Braceless t.terminal := hcomma ▸ braceless_punct (by decide)
      refine .call (ih true d _) (fun h => h.2.1.advance hcomma) fun list u => .pure ?_
      rintro ⟨⟨-, ht, ha⟩, hu, hlist⟩
      exact ⟨(ht.advance hcomma).trans hu, List.forall_mem_cons.mpr ⟨ha, hlist⟩⟩
    · exact .pure fun h => ⟨h.2.1, by simpa using h.2.2⟩

theorem parenthesized_stays {element : Parser α} (he : Stays tokens element holds) :
    Stays tokens (parenthesized element) fun list => ∀ a ∈ list.1, holds a := by
  intro d s
  unfold parenthesized
  refine .expect (fun hopen => .read ?_) fun _ h _ => (Moves.refl h).still
  have hopen : Braceless s.terminal := hopen ▸ braceless_punct (by decide)
  refine .call (commaList_stays he _ _ d _) (fun h => (Moves.refl h).advance hopen) fun list t => ?_
  have ht (h : s.At tokens d ∧ Moves tokens d s.advance t ∧ ∀ a ∈ list.1, holds a) : Moves tokens d s t :=
    ((Moves.refl h.1).advance hopen).trans h.2.1
  refine .expect (fun hclose => .pure fun h => ⟨(ht h).advance (hclose ▸ braceless_punct (by decide)), h.2.2⟩) ?_
  exact fun _ h _ => (ht h).still

theorem resultOf_stays {type : Parser Ty} (ht : Stays tokens type fun _ => True) :
    Stays tokens (resultOf type) fun _ => True := by
  intro d s
  unfold resultOf
  refine .accept (fun harrow => ?_) fun _ => .pure fun h => ⟨.refl h, trivial⟩
  have harrow : Braceless s.terminal := harrow ▸ braceless_punct (by decide)
  refine .tail (ht d _) (fun h => (Moves.refl h).advance harrow) ?_
  exact fun _ _ h hu => ⟨((Moves.refl h).advance harrow).trans hu.1, trivial⟩

theorem typeWithin_stays (bound : Nat) : Stays tokens (typeWithin bound) fun _ => True := by
  induction bound with
  | zero => exact fun _ _ => .throw Abort.noConfusion
  | succ bound ih =>
    have hlist := parenthesized_stays ih
    intro d s
    unfold typeWithin
    refine .read (.read ?_)
    split
    · rename_i text hname
      have hs (h : s.At tokens d) : Moves tokens d s s.advance := (Moves.refl h).advance (hname ▸ braceless_name text)
      refine .advance ?_
      split
      · exact .pure fun h => ⟨hs h, trivial⟩
      · exact .report (.pure fun h => ⟨(hs h).still, trivial⟩)
    · rename_i hnot
      exact .advance (.pure fun h => ⟨(Moves.refl h).advance (hnot ▸ braceless_punct (by decide)), trivial⟩)
    · exact .call (hlist d s) .refl fun _ _ => .pure fun h => ⟨h.2.1, trivial⟩
    · rename_i hfn
      have hs (h : s.At tokens d) : Moves tokens d s s.advance := (Moves.refl h).advance (hfn ▸ braceless_keyword _)
      refine .advance (.call (hlist d _) hs fun params t => ?_)
      refine .call (resultOf_stays ih d t) (fun h => (hs h.1).trans h.2.1) fun result u => .pure ?_
      rintro ⟨⟨h, ht, -⟩, hu, -⟩
      exact ⟨((hs h).trans ht).trans hu, trivial⟩
    · exact .throw Abort.noConfusion
    · exact .throw Abort.noConfusion
    · exact .failAt fun h _ => (Moves.refl h).still

theorem type_stays : Stays tokens type fun _ => True := fun d s => .read (typeWithin_stays _ d s)

theorem param_stays : Stays tokens param fun _ => True := by
  intro d s
  have hrest (t : State) : Lays t (Moves tokens d s t)
      (do
        let name ← expectName
        expect .colon
        return (name, ← type)) (fun _ u => Moves tokens d s u ∧ True) (Moves tokens d s) := by
    refine .call (expectName_stays d t) (fun h => h) fun name u => ?_
    refine .expect (fun hcolon => ?_) fun _ h _ => (h.1.trans h.2.1).still
    have hu (h : Moves tokens d s t ∧ Moves tokens d t u ∧ True) : Moves tokens d s u.advance :=
      (h.1.trans h.2.1).advance (hcolon ▸ braceless_punct (by decide))
    exact .call (type_stays d _) hu fun _ v => .pure fun h => ⟨(hu h.1).trans h.2.1, trivial⟩
  unfold param
  refine .acceptKeyword (fun hmut => ?_) fun _ => ?_
  · exact (hrest _).mono (fun h => (Moves.refl h).advance (hmut ▸ braceless_keyword _)) (fun _ _ _ h => h)
      fun _ _ h => h
  · exact (hrest s).mono .refl (fun _ _ _ h => h) fun _ _ h => h

theorem header_lays (start : Span) {d : Nat} {s : State} (hfn : s.terminal = .keyword .fn) :
    Lays s (s.At tokens d) (header start) (fun _ t => Moves tokens d s t) (Moves tokens d s) := by
  unfold header
  refine .fresh (.advance ?_)
  have hs (h : s.At tokens d) : Moves tokens d s (State.advance { s with nextId := s.nextId + 1 }) :=
    (Moves.refl h).still.advance (show Braceless s.terminal from hfn ▸ braceless_keyword _)
  refine .call (expectName_stays d _) hs fun name t => ?_
  refine .call (parenthesized_stays param_stays d t) (fun h => (hs h.1).trans h.2.1) fun params u => ?_
  refine .call (resultOf_stays type_stays d u) (fun h => ((hs h.1.1).trans h.1.2.1).trans h.2.1) fun result v => ?_
  exact .read (.pure fun h => (((hs h.1.1.1).trans h.1.1.2.1).trans h.1.2.1).trans h.2.1)

theorem declaration_lays {d : Nat} {s : State} (hfn : s.terminal = .keyword .fn) :
    Lays s (s.At tokens d) declaration (fun _ t => Moves tokens d s t) (Moves tokens d s) := by
  unfold declaration
  refine .read (.call (header_lays _ hfn) .refl fun h t => ?_)
  refine .expect (fun hsemi => ?_) fun _ h _ => h.2.still
  exact .read (.pure fun h => h.2.advance (hsemi ▸ braceless_punct (by decide)))

end

/-! ## Behind mistakes -/

theorem skipStatement_passes {last : Option Token} {t : Token} {ts : List Token} (hend : t.terminal ≠ .endOfInput)
    (hclose : t.terminal ≠ .punct .rbrace) : (skipStatement 0 last (t :: ts)).2.length ≤ ts.length := by
  unfold skipStatement
  split
  · exact absurd ‹_› hend
  · exact Nat.le_refl _
  · exact (skipStatement_suffix _ _ _).length_le
  · exact absurd ‹_› hclose
  · exact absurd ‹_› hclose
  · exact absurd ‹_› hclose
  · exact (skipStatement_suffix _ _ _).length_le

theorem skipItem_stops (depth : Nat) (last : Option Token) (ts : List Token) :
    ∀ t ∈ (skipItem depth last ts).2.head?, t.terminal = .endOfInput ∨ StartsItem t.terminal := by
  fun_induction skipItem depth last ts with
  | case1 => simp
  | case2 _ _ _ _ hend => simp [hend]
  | case3 _ _ _ hfn => simp [StartsItem, hfn]
  | case4 _ _ _ hforeign => simp [StartsItem, hforeign]
  | case5 _ _ _ _ _ ih => exact ih
  | case6 _ _ _ _ _ ih => exact ih
  | case7 _ _ _ _ _ _ _ _ _ ih => exact ih

theorem Lays.recover {β : Type} {t u : State} {pre : Prop} {p : Parser Unit} {f : Unit → Parser β}
    {good : β → State → Prop} {bad : State → Prop} (hrun : p t = .ok () u) (hproblems : u.problems = t.problems)
    (hf : Lays u pre (f ()) good bad) : Lays t pre (p >>= f) good bad := by
  have hcalm (h : u.Calm) : t.Calm := by
    unfold State.Calm at h
    rwa [hproblems] at h
  unfold Lays
  rw [Ends.bind_iff]
  unfold Ends
  rw [hrun]
  exact Ends.mono hf (fun _ _ _ h hu => (h hu).imp_left hcalm) fun _ _ _ h hu => (h hu).imp_left hcalm

section

variable {β : Type} {s t : State} {pre : Prop} {f : Unit → Parser β} {good : β → State → Prop} {bad : State → Prop}

/-- Behind a mistake made at a state, which is not at a closing brace, or behind it, as many braces are
open as there. -/
theorem Lays.recoverStatement (hb : Balanced tokens) {d : Nat} (hend : s.terminal ≠ .endOfInput)
    (hclose : s.terminal ≠ .punct .rbrace) (hs : pre → s.At tokens d) (ht : pre → Moves tokens d s t)
    (hf : ∀ u, Lays u (pre ∧ Moves tokens d s u) (f ()) good bad) :
    Lays t pre (recoverStatement s.rest.length >>= f) good bad := by
  generalize hu : ({ t with
    last := (skipStatement 0 t.last t.rest).1, rest := (skipStatement 0 t.last t.rest).2 } : State) = u
  have hrun : Parse.recoverStatement s.rest.length t =
      .ok () (if u.rest.length = s.rest.length then u.advance else u) := by
    rw [← ensureProgress_run, ← hu]
    rfl
  have hmoves (h : pre) : Moves tokens d s u := by
    rw [← hu]
    exact ⟨skipStatement_reached hb (ht h).reached, Nat.le_trans (skipStatement_suffix _ _ _).length_le (ht h).le⟩
  -- the current token of the first state is passed in any case
  have hless (h : pre) : u.rest.length < s.rest.length := by
    have hskip : u.rest.length ≤ t.rest.length := by
      rw [← hu]
      exact (skipStatement_suffix _ _ _).length_le
    rcases Nat.lt_or_eq_of_le (ht h).le with hlt | heq
    · exact Nat.lt_of_le_of_lt hskip hlt
    · obtain ⟨mid, hrest, -⟩ := (hs h).between (ht h).reached (ht h).le
      have hmid : mid = [] := by
        have hlength := congrArg List.length hrest
        rw [List.length_append, heq] at hlength
        exact List.length_eq_zero_iff.mp (by omega)
      rw [hmid, List.nil_append] at hrest
      obtain ⟨first, rest, hfirst, hterminal, -⟩ := State.exists_rest hend
      have hpass : (skipStatement 0 t.last (first :: rest)).2.length ≤ rest.length :=
        skipStatement_passes (hterminal ▸ hend) (hterminal ▸ hclose)
      rw [← hfirst, hrest] at hpass
      rw [← hu, hfirst]
      exact Nat.lt_succ_of_le hpass
  refine .recover hrun ?_ ((hf _).mono (fun h => ⟨h, ?_⟩) (fun _ _ _ h => h) fun _ _ h => h)
  · rw [← hu]
    split
    · exact advance_problems _
    · rfl
  · rw [if_neg (Nat.ne_of_lt (hless h))]
    exact hmoves h

/-- Behind a mistake outside all braces, the next item is outside all braces. -/
theorem Lays.recoverItem (hb : Balanced tokens) {before : Nat} (ht : pre → t.At tokens 0)
    (hf : ∀ u, Lays u (pre ∧ u.At tokens 0) (f ()) good bad) :
    Lays t pre (recoverItem before >>= f) good bad := by
  generalize hu : ({ t with
    last := (skipItem 0 t.last t.rest).1, rest := (skipItem 0 t.last t.rest).2 } : State) = u
  have hrun : Parse.recoverItem before t = .ok () (if u.rest.length = before then u.advance else u) := by
    rw [← ensureProgress_run, ← hu]
    rfl
  have hreached (h : pre) : u.At tokens 0 := by
    rw [← hu]
    exact skipItem_reached hb (ht h)
  have hstops : u.terminal = .endOfInput ∨ StartsItem u.terminal := by
    have hhead : ∀ t ∈ u.rest.head?, t.terminal = .endOfInput ∨ StartsItem t.terminal := by
      rw [← hu]
      exact skipItem_stops 0 _ _
    unfold State.terminal
    cases h : u.rest.head? with
    | none => exact .inl rfl
    | some t => exact hhead t h
  refine .recover hrun ?_ ((hf _).mono (fun h => ⟨h, ?_⟩) (fun _ _ _ h => h) fun _ _ h => h)
  · rw [← hu]
    split
    · exact advance_problems _
    · rfl
  · split
    · rcases hstops with hend | hstart
      · rw [State.advance_atEnd hend]
        exact hreached h
      · have hbraceless : Braceless u.terminal := by rcases hstart with hfn | hfn <;> exact hfn ▸ braceless_keyword _
        exact (hreached h).advance hbraceless.1 hbraceless.2.1 hbraceless.2.2
    · exact hreached h

end

end Ferrite.Parse
