import Ferrite.Proofs.Parse.Reports
import Ferrite.Proofs.Parse.Takes

/-!
The parser only moves forwards and never passes the end of input. A loop of the parser takes one turn after the
other, and passes a token in each turn that is not its last one, also where it looks for the place to go on
behind a mistake.
-/

namespace Ferrite.Parse

variable {σ α β : Type} {s t u : State} {n m : Nat}

/-- Between the states so many tokens were passed at least, and no end of input. -/
def Goes (least : Nat) (s t : State) : Prop :=
  ∃ ts, Passes ts s t ∧ (∀ u ∈ ts, u.isEnd = false) ∧ least ≤ ts.length

namespace Goes

theorem of_eq (hrest : t.rest = s.rest) (hlast : t.last = s.last) : Goes 0 s t :=
  ⟨[], .of_eq hrest hlast, List.forall_mem_nil _, Nat.le_refl 0⟩

theorem refl (s : State) : Goes 0 s s := of_eq rfl rfl

theorem mono (h : Goes n s t) (hle : m ≤ n) : Goes m s t := by
  obtain ⟨ts, hpasses, hend, hleast⟩ := h
  exact ⟨ts, hpasses, hend, Nat.le_trans hle hleast⟩

theorem trans (h : Goes n s t) (h' : Goes m t u) : Goes (n + m) s u := by
  obtain ⟨ts, hpasses, hend, hleast⟩ := h
  obtain ⟨us, hpasses', hend', hleast'⟩ := h'
  refine ⟨ts ++ us, hpasses.trans hpasses', List.forall_mem_append.mpr ⟨hend, hend'⟩, ?_⟩
  rw [List.length_append]
  exact Nat.add_le_add hleast hleast'

theorem further (h : Goes 0 s t) (h' : Goes n t u) : Goes n s u := (h.trans h').mono (Nat.le_of_eq (Nat.zero_add n).symm)

/-- From an earlier state, with so many of the tokens passed before. -/
theorem after (h : Goes (n - m) t u) (h' : Goes m s t) : Goes n s u := (h'.trans h).mono (by omega)

theorem length (h : Goes n s t) : t.rest.length + n ≤ s.rest.length := by
  obtain ⟨ts, hpasses, -, hleast⟩ := h
  rw [hpasses.rest, List.length_append]
  omega

theorem suffix (h : Goes n s t) : t.rest <:+ s.rest := by
  obtain ⟨ts, hpasses, -⟩ := h
  exact ⟨ts, hpasses.rest.symm⟩

theorem pass (h : s.terminal ≠ .endOfInput) : Goes 1 s s.advance := by
  obtain ⟨t, ht, -, hpasses⟩ := Passes.advance h
  exact ⟨[t], hpasses, by simpa [Token.isEnd, ht] using h, Nat.le_refl 1⟩

theorem advance (s : State) : Goes 0 s s.advance := by
  by_cases h : s.terminal = .endOfInput
  · cases hrest : s.rest with
    | nil => simp only [State.advance, hrest, refl]
    | cons t ts =>
      have hend : t.isEnd = true := by simpa [State.terminal, hrest, Token.isEnd] using h
      simp only [State.advance, hrest, hend, if_true, refl]
  · exact (pass h).mono (Nat.zero_le 1)

end Goes

/-- At a token of `here`, the parser passes as many tokens at least as its result tells, if it ends well, and in
any case it only goes forwards. -/
def Walks (here : Terminal → Prop) (least : α → Nat) (p : Parser α) : Prop :=
  ∀ s, here s.terminal → Ends p s (fun a t => Goes (least a) s t) fun _ t => Goes 0 s t

variable {here : Terminal → Prop} {least least' : α → Nat} {p : Parser α}

namespace Walks

theorem mono (h : Walks here least p) (hle : ∀ a, least' a ≤ least a) : Walks here least' p :=
  fun s hs => (h s hs).mono (fun a _ _ ht => ht.mono (hle a)) fun _ _ _ ht => ht

theorem zero (h : Walks here least p) : Walks here (fun _ => 0) p := h.mono fun _ => Nat.zero_le _

theorem here_mono {there : Terminal → Prop} (h : Walks there least p) (hthere : ∀ t, here t → there t) :
    Walks here least p := fun s hs => h s (hthere _ hs)

theorem anywhere (h : Walks Parse.anywhere least p) : Walks here least p := h.here_mono fun _ _ => trivial

theorem pure {a : α} (h : least a = 0) : Walks here least (pure a : Parser α) :=
  fun s _ => show Goes (least a) s s from h ▸ .refl s

theorem throw {e : Abort} : Walks here least (throw e : Parser α) := fun s _ => .refl s

/-- From behind a state on. -/
theorem after (h : Walks Parse.anywhere (fun a => least a - n) p) (ht : Goes n s t) :
    Ends p t (fun a u => Goes (least a) s u) fun _ u => Goes 0 s u :=
  (h t trivial).mono (fun _ _ _ hu => hu.after ht) fun _ _ _ hu => (ht.trans hu).mono (Nat.zero_le _)

theorem bind {f : α → Parser β} {least' : β → Nat} (hp : Walks here least p)
    (hf : ∀ a, Walks Parse.anywhere (fun b => least' b - least a) (f a)) : Walks here least' (p >>= f) := by
  intro s hs
  rw [Ends.bind_iff]
  exact (hp s hs).mono (fun a _ _ ht => (hf a).after ht) fun _ _ _ ht => ht

theorem map {g : α → β} {least' : β → Nat} (hp : Walks here least p) (hg : ∀ a, least' (g a) = least a) :
    Walks here least' (g <$> p) := by
  intro s hs
  rw [Ends.map_iff]
  exact (hp s hs).mono (fun a _ _ ht => (hg a).symm ▸ ht) fun _ _ _ ht => ht

theorem ite {c : Prop} [Decidable c] {q : Parser α} (hp : Walks here least p) (hq : Walks here least q) :
    Walks here least (if c then p else q) := by
  split
  · exact hp
  · exact hq

/-- What is read off the state leaves the current token where it is. -/
theorem read {g : State → β} {f : β → Parser α} (hf : ∀ b, Walks here least (f b)) :
    Walks here least ((do return g (← get)) >>= f) :=
  fun s hs => hf (g s) s hs

/-- The current token decides what is done. -/
theorem dispatch {g : Terminal → Parser α} (hg : ∀ t, here t → Walks (· = t) least (g t)) :
    Walks here least (terminal >>= g) :=
  fun s hs => hg s.terminal hs s rfl

/-- What gives up at a mistake is not far behind where it began. -/
theorem attempt (h : Walks here least p) :
    Walks here (fun found => (found.map least).getD 0) (attempt p) := by
  intro s hs
  have hends := h s hs
  unfold Ends at hends ⊢
  unfold Parse.attempt
  cases hrun : p s with
  | ok a t =>
    rw [hrun] at hends
    exact hends
  | error e t =>
    rw [hrun] at hends
    cases e <;> exact hends

end Walks

/-! ## Single tokens -/

theorem report_walks (problem : Problem) (place : Span) : Walks here (fun _ => 0) (report problem place) :=
  fun _ _ => .of_eq rfl rfl

theorem freshId_walks : Walks here (fun _ => 0) freshId := fun _ _ => .of_eq rfl rfl

theorem advance_walks : Walks here (fun _ => 0) advance := fun s _ => .advance s

theorem known_walks {t : Terminal} (ht : t ≠ .endOfInput) : Walks (· = t) (fun _ => 1) advance :=
  fun _ hs => .pass (hs ▸ ht)

theorem failAt_walks (problem : Terminal → Problem) : Walks here least (failAt problem : Parser α) :=
  .dispatch fun _ _ => .read fun _ => (report_walks _ _).bind fun _ => .throw

theorem unexpected_walks (wanted : Wanted) : Walks here (fun _ => 0) (unexpected wanted) :=
  .dispatch fun _ _ => .read fun _ => report_walks _ _

theorem accept_walks (p : Punct) : Walks here (fun found => if found then 1 else 0) (accept p) := by
  intro s _
  have hrun := accept_bind p pure s
  rw [bind_pure] at hrun
  unfold Ends
  rw [hrun]
  by_cases hp : s.terminal = .punct p
  · rw [if_pos hp]
    exact .pass (hp ▸ Terminal.noConfusion)
  · rw [if_neg hp]
    exact .refl s

theorem acceptKeyword_walks (k : Keyword) : Walks here (fun _ => 0) (acceptKeyword k) :=
  .dispatch fun _ _ => .ite (advance_walks.bind fun _ => .pure rfl) (.pure rfl)

theorem expect_walks (p : Punct) : Walks here (fun _ => 1) (expect p) := by
  refine (accept_walks p).bind fun found => ?_
  cases found with
  | false => exact failAt_walks _
  | true => exact .pure rfl

theorem expectName_walks : Walks here (fun _ => 1) expectName := by
  refine .dispatch fun t _ => ?_
  split
  · exact .read fun _ => (known_walks Terminal.noConfusion).bind fun _ => .pure rfl
  · exact failAt_walks _

theorem failAt_bind (problem : Terminal → Problem) (f : α → Parser β) :
    (failAt problem : Parser α) >>= f = failAt problem := rfl

/-! ## Loops -/

/-- A turn of a loop is the last one, or the loop goes on and something is made of what it gives then. -/
inductive Turn (σ α : Type)
  | done (a : α)
  | again (x : σ) (finish : α → α)

namespace Turn

/-- How many tokens a turn passes at least. -/
def passed : Turn σ α → Nat
  | done _ => 0
  | again .. => 1

def follow (loop : σ → Parser α) : Turn σ α → Parser α
  | done a => pure a
  | again x finish => finish <$> loop x

end Turn

/-- A bounded loop takes one turn after the other. In each one a token is passed, or the loop ends with it. -/
structure Loops (loop : Nat → σ → Parser α) (turn : σ → Parser (Turn σ α)) : Prop where
  turns : ∀ bound x, loop (bound + 1) x = turn x >>= Turn.follow (loop bound)
  walks : ∀ x, Walks anywhere Turn.passed (turn x)

namespace Loops

variable {loop : Nat → σ → Parser α} {turn : σ → Parser (Turn σ α)}

/-- A loop has fewer turns than there are tokens left, the last one apart: greater bounds change nothing. -/
theorem bound_free (h : Loops loop turn) {x : σ} (hn : s.rest.length < n) (hm : s.rest.length < m) :
    loop n x s = loop m x s := by
  induction n generalizing m x s with
  | zero => omega
  | succ n ih =>
    obtain ⟨m, rfl⟩ := Nat.exists_eq_succ_of_ne_zero (Nat.ne_zero_of_lt hm)
    rw [h.turns, h.turns]
    have hwalks := h.walks x s trivial
    simp only [bind, EStateM.bind]
    cases hturn : turn x s with
    | error e t => rfl
    | ok r t =>
      cases r with
      | done a => rfl
      | again y finish =>
        have hless : t.rest.length + 1 ≤ s.rest.length := (hwalks.ok hturn).length
        have hsame : loop n y t = loop m y t := ih (by omega) (by omega)
        simp only [Turn.follow, Functor.map, EStateM.map, hsame]

/-- What the last turn leaves behind, the loop leaves behind. -/
theorem ends (h : Loops loop turn) {good : State → Prop}
    (hdone : ∀ x s, Ends (turn x) s (fun r t => ∀ a, r = .done a → good t) fun _ _ => True) (x : σ)
    (hn : s.rest.length < n) : Ends (loop n x) s (fun _ t => Goes 0 s t ∧ good t) fun _ t => Goes 0 s t := by
  induction hlength : s.rest.length using Nat.strongRecOn generalizing n x s with
  | _ length ih =>
    obtain ⟨n, rfl⟩ := Nat.exists_eq_succ_of_ne_zero (Nat.ne_zero_of_lt hn)
    rw [h.turns, Ends.bind_iff]
    refine (h.walks x s trivial).mono (fun r t hturn ht => ?_) fun _ _ _ ht => ht
    cases r with
    | done a => exact ⟨ht, (hdone x s).ok hturn a rfl⟩
    | again y finish =>
      have hless : t.rest.length + 1 ≤ s.rest.length := ht.length
      rw [Turn.follow, Ends.map_iff]
      refine (ih t.rest.length (by omega) y (by omega) rfl).mono ?_ fun _ _ _ hu => ?_
      · exact fun _ _ _ hu => ⟨(ht.trans hu.1).mono (Nat.zero_le _), hu.2⟩
      · exact (ht.trans hu).mono (Nat.zero_le _)

/-- With any bound, a loop only goes forwards. -/
theorem forwards (h : Loops loop turn) (hzero : ∀ x, Walks anywhere (fun _ => 0) (loop 0 x)) (x : σ) :
    Walks anywhere (fun _ => 0) (loop n x) := by
  induction n generalizing x with
  | zero => exact hzero x
  | succ n ih =>
    rw [h.turns]
    refine (h.walks x).zero.bind fun r => ?_
    cases r with
    | done a => exact .pure rfl
    | again y finish => exact .map (ih y) fun _ => rfl

end Loops

/-! ## Behind mistakes -/

/-- Goes on where the function says, from so many open braces. -/
def skipping (skip : Nat → Option Token → List Token → Skip) (depth : Nat) : Parser Unit :=
  modify fun s =>
    let (last, rest) := skip depth s.last s.rest
    { s with last, rest }

def statementSkip (depth : Nat) : Parser (Turn Nat Unit) := do
  match ← terminal, depth with
  | .endOfInput, _ => return .done ()
  | .punct .semi, 0 => do
      advance
      return .done ()
  | .punct .lbrace, depth => do
      advance
      return .again (depth + 1) id
  | .punct .rbrace, 0 => return .done ()
  | .punct .rbrace, 1 => do
      advance
      return .done ()
  | .punct .rbrace, depth + 2 => do
      advance
      return .again (depth + 1) id
  | _, depth => do
      advance
      return .again depth id

def itemSkip (depth : Nat) : Parser (Turn Nat Unit) := do
  match ← terminal, depth with
  | .endOfInput, _ | .keyword .fn, 0 | .keyword .foreign, 0 => return .done ()
  | .punct .lbrace, depth => do
      advance
      return .again (depth + 1) id
  | .punct .rbrace, depth => do
      advance
      return .again (depth - 1) id
  | _, depth => do
      advance
      return .again depth id

theorem run_pure (a : α) (s : State) : (pure a : Parser α) s = .ok a s := rfl

theorem advance_bind (f : Unit → Parser α) (s : State) : (advance >>= f) s = f () s.advance := rfl

theorem run_skipping (skip : Nat → Option Token → List Token → Skip) (depth : Nat) (s : State) :
    skipping skip depth s =
      .ok () { s with last := (skip depth s.last s.rest).1, rest := (skip depth s.last s.rest).2 } := rfl

theorem statementSkip_turns (depth : Nat) :
    skipping skipStatement depth = statementSkip depth >>= Turn.follow (skipping skipStatement) := by
  funext s
  obtain ⟨rest, last, nextId, problems⟩ := s
  rw [run_skipping, statementSkip, bind_assoc, terminal_bind]
  fun_cases skipStatement depth last rest
  all_goals simp_all [State.terminal, State.advance, Token.isEnd, Turn.follow, advance_bind, run_pure, run_skipping]

theorem itemSkip_turns (depth : Nat) :
    skipping skipItem depth = itemSkip depth >>= Turn.follow (skipping skipItem) := by
  funext s
  obtain ⟨rest, last, nextId, problems⟩ := s
  rw [run_skipping, itemSkip, bind_assoc, terminal_bind]
  fun_cases skipItem depth last rest
  all_goals simp_all [State.terminal, State.advance, Token.isEnd, Turn.follow, advance_bind, run_pure, run_skipping]

theorem statementSkip_loops : Loops (fun _ => skipping skipStatement) statementSkip where
  turns _ := statementSkip_turns
  walks depth := by
    refine .dispatch fun t _ => ?_
    split
    · exact .pure rfl
    · exact advance_walks.bind fun _ => .pure rfl
    · exact (known_walks Terminal.noConfusion).bind fun _ => .pure rfl
    · exact .pure rfl
    · exact advance_walks.bind fun _ => .pure rfl
    · exact (known_walks Terminal.noConfusion).bind fun _ => .pure rfl
    · rename_i hend _ _ _ _ _
      exact (known_walks hend).bind fun _ => .pure rfl

theorem itemSkip_loops : Loops (fun _ => skipping skipItem) itemSkip where
  turns _ := itemSkip_turns
  walks depth := by
    refine .dispatch fun t _ => ?_
    split
    · exact .pure rfl
    · exact .pure rfl
    · exact .pure rfl
    · exact (known_walks Terminal.noConfusion).bind fun _ => .pure rfl
    · exact (known_walks Terminal.noConfusion).bind fun _ => .pure rfl
    · rename_i hend _ _ _ _
      exact (known_walks hend).bind fun _ => .pure rfl

/-- A loop that has no bound only goes forwards. -/
theorem Loops.goes {loop : σ → Parser α} {turn : σ → Parser (Turn σ α)} (h : Loops (fun _ => loop) turn) (x : σ) :
    Walks anywhere (fun _ => 0) (loop x) := by
  intro s _
  have hdone : ∀ x s, Ends (turn x) s (fun r _ => ∀ a, r = .done a → True) fun _ _ => True := fun x s =>
    (h.walks x s trivial).mono (fun _ _ _ _ _ _ => trivial) fun _ _ _ _ => trivial
  exact (h.ends hdone x (Nat.lt_succ_self s.rest.length)).mono (fun _ _ _ ht => ht.1) fun _ _ _ ht => ht

theorem ensureProgress_goes (hs : s.terminal ≠ .endOfInput) (h : Goes 0 s t) :
    Ends (ensureProgress s.rest.length) t (fun _ u => Goes 1 s u) fun _ u => Goes 0 s u := by
  unfold Ends
  rw [ensureProgress_run]
  show Goes 1 s (if t.rest.length = s.rest.length then t.advance else t)
  split
  case isTrue hlength =>
    have hterminal : t.terminal = s.terminal := by
      rw [State.terminal, State.terminal, h.suffix.eq_of_length hlength]
    exact (Goes.pass (hterminal ▸ hs)).after h
  case isFalse hlength =>
    obtain ⟨ts, hpasses, hend, -⟩ := h
    refine ⟨ts, hpasses, hend, Nat.one_le_iff_ne_zero.mpr fun hzero => hlength ?_⟩
    rw [hpasses.rest, List.length_append, hzero, Nat.zero_add]

/-- From wherever a mistake was made behind the current token, the recovery passes that token at least. -/
def Resumes (recover : Nat → Parser Unit) : Prop :=
  ∀ s t : State, s.terminal ≠ .endOfInput → Goes 0 s t →
    Ends (recover s.rest.length) t (fun _ u => Goes 1 s u) fun _ u => Goes 0 s u

theorem Loops.resumes {skip : Nat → Option Token → List Token → Skip} {turn : Nat → Parser (Turn Nat Unit)}
    (h : Loops (fun _ => skipping skip) turn) :
    Resumes fun before => skipping skip 0 >>= fun _ => ensureProgress before := by
  intro s t hs ht
  rw [Ends.bind_iff]
  refine (h.goes 0 t trivial).mono (fun _ _ _ hu => ?_) fun _ _ _ hu => ht.trans hu
  exact ensureProgress_goes hs (ht.trans hu)

theorem recoverStatement_resumes : Resumes recoverStatement := statementSkip_loops.resumes

theorem recoverItem_resumes : Resumes recoverItem := itemSkip_loops.resumes

/-- A turn that ends with a recovery has passed a token. -/
theorem Resumes.turn {recover : Nat → Parser Unit} (h : Resumes recover) (hs : s.terminal ≠ .endOfInput)
    (ht : Goes 0 s t) (x : σ) (finish : α → α) :
    Ends (do recover s.rest.length; return .again x finish) t (fun (r : Turn σ α) u => Goes r.passed s u)
      fun _ u => Goes 0 s u := by
  rw [Ends.bind_iff]
  exact (h s t hs ht).mono (fun _ _ _ hu => hu) fun _ _ _ hu => hu

end Ferrite.Parse
