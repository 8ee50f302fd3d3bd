import Ferrite.Proofs.Parse.Depth
import Ferrite.Proofs.Tree.Places

/-!
The parser only moves forwards, from token to token, also behind a mistake. So what is placed from the current
token at one state to the token passed last at a later one has the tokens between them inside it, and with
these all that was read there.
-/

namespace Ferrite

/-- Begins and ends no later than the other place. -/
structure Span.NoLater (a b : Span) : Prop where
  start : a.start ≤ b.start
  stop : a.stop ≤ b.stop

namespace Span.NoLater

variable {a b c : Span}

theorem refl (a : Span) : a.NoLater a := ⟨Nat.le_refl _, Nat.le_refl _⟩

theorem trans (h : a.NoLater b) (h' : b.NoLater c) : a.NoLater c :=
  ⟨Nat.le_trans h.start h'.start, Nat.le_trans h.stop h'.stop⟩

end Span.NoLater

namespace Parse

variable {ok : Span → Prop}

/-! ## Where the parser stands -/

/-- The tokens around the parser and the problems so far are at allowed places, the tokens in order. -/
structure Sited (ok : Span → Prop) (s : State) : Prop where
  ne_nil : s.last.toList ++ s.rest ≠ []
  ordered : (s.last.toList ++ s.rest).Pairwise fun t u => t.span.stop ≤ u.span.start
  tokens : ∀ t ∈ s.last.toList ++ s.rest, ok t.span
  problems : ∀ q ∈ s.problems, ok q.span

/-- From one state to another one that is not in front of it. -/
structure Advances (ok : Span → Prop) (s t : State) : Prop where
  sited : Sited ok t
  span : s.span.NoLater t.span
  lastSpan : s.lastSpan.NoLater t.lastSpan

/-- At least one token further. -/
structure Crosses (ok : Span → Prop) (s t : State) : Prop extends Advances ok s t where
  crossed : s.span.NoLater t.lastSpan

/-- The place begins no earlier than what is next at the one state, and ends no later than what was passed
last at the other. -/
structure Between (s t : State) (place : Span) : Prop where
  start : s.span.start ≤ place.start
  stop : place.stop ≤ t.lastSpan.stop

variable {s s₀ t u v : State} {place : Span}

namespace Sited

theorem span (h : Sited ok s) : ok s.span := by
  have hne := h.ne_nil
  cases hrest : s.rest with
  | cons t ts =>
    rw [show s.span = t.span by simp [State.span, hrest]]
    exact h.tokens t (by simp [hrest])
  | nil =>
    cases hlast : s.last with
    | none => simp [hrest, hlast] at hne
    | some l =>
      rw [show s.span = l.span by simp [State.span, hrest, hlast]]
      exact h.tokens l (by simp [hlast])

theorem lastSpan (h : Sited ok s) : ok s.lastSpan := by
  cases hlast : s.last with
  | none =>
    rw [show s.lastSpan = s.span by simp [State.lastSpan, hlast]]
    exact h.span
  | some l =>
    rw [show s.lastSpan = l.span by simp [State.lastSpan, hlast]]
    exact h.tokens l (by simp [hlast])

/-- Of two tokens one behind the other, the first one begins and ends no later. -/
theorem noLater (h : Sited ok s) (hok : Places ok) {a b : Token} {ts us vs : List Token}
    (htokens : s.last.toList ++ s.rest = ts ++ a :: (us ++ b :: vs)) : a.span.NoLater b.span := by
  have hordered := h.ordered
  rw [htokens, List.pairwise_append, List.pairwise_cons] at hordered
  have hab : a.span.stop ≤ b.span.start := hordered.2.1.1 b (by simp)
  have ha := hok.ordered _ (h.tokens a (by simp [htokens]))
  have hb := hok.ordered _ (h.tokens b (by simp [htokens]))
  exact ⟨Nat.le_trans ha hab, Nat.le_trans hab hb⟩

theorem last_noLater (h : Sited ok s) (hok : Places ok) : s.lastSpan.NoLater s.span := by
  cases hlast : s.last with
  | none =>
    rw [show s.lastSpan = s.span by simp [State.lastSpan, hlast]]
    exact .refl _
  | some l =>
    have hl : s.lastSpan = l.span := by simp [State.lastSpan, hlast]
    cases hrest : s.rest with
    | nil =>
      rw [hl, show s.span = l.span by simp [State.span, hrest, hlast]]
      exact .refl _
    | cons t ts =>
      rw [hl, show s.span = t.span by simp [State.span, hrest]]
      exact @noLater _ _ h hok l t [] [] ts (by simp [hlast, hrest])

/-- Behind a token that is passed. -/
theorem pass (h : Sited ok s) (hok : Places ok) {t : Token} {ts : List Token} (hrest : s.rest = t :: ts) :
    Crosses ok s { s with rest := ts, last := some t } := by
  have hsub : (t :: ts).Sublist (s.last.toList ++ s.rest) := hrest ▸ List.sublist_append_right _ _
  have hs : s.span = t.span := by simp [State.span, hrest]
  have hspan : t.span.NoLater (State.span { s with rest := ts, last := some t }) := by
    cases hts : ts with
    | nil => exact .refl _
    | cons u us => exact @noLater _ _ h hok t u s.last.toList [] us (by simp [hrest, hts])
  exact {
    sited := {
      ne_nil := List.cons_ne_nil _ _
      ordered := h.ordered.sublist hsub
      tokens := fun u hu => h.tokens u (hsub.mem hu)
      problems := h.problems }
    span := hs ▸ hspan
    lastSpan := show s.lastSpan.NoLater t.span from hs ▸ h.last_noLater hok
    crossed := show s.span.NoLater t.span from hs ▸ .refl _ }

end Sited

namespace Advances

theorem refl (h : Sited ok s) : Advances ok s s := ⟨h, .refl _, .refl _⟩

theorem trans (h : Advances ok s t) (h' : Advances ok t u) : Advances ok s u :=
  ⟨h'.sited, h.span.trans h'.span, h.lastSpan.trans h'.lastSpan⟩

theorem fresh (h : Advances ok s t) {nextId : NodeId} : Advances ok s { t with nextId } :=
  ⟨⟨h.sited.ne_nil, h.sited.ordered, h.sited.tokens, h.sited.problems⟩, h.span, h.lastSpan⟩

theorem report (h : Advances ok s t) (hplace : ok place) {problem : Problem} :
    Advances ok s { t with problems := ⟨problem, place⟩ :: t.problems } where
  sited := {
    ne_nil := h.sited.ne_nil
    ordered := h.sited.ordered
    tokens := h.sited.tokens
    problems := List.forall_mem_cons.mpr ⟨hplace, h.sited.problems⟩ }
  span := h.span
  lastSpan := h.lastSpan

theorem crosses (h : Advances ok s t) (h' : Crosses ok t u) : Crosses ok s u :=
  ⟨h.trans h'.toAdvances, h.span.trans h'.crossed⟩

theorem pass (h : Advances ok s t) (hok : Places ok) (hend : t.terminal ≠ .endOfInput) :
    Crosses ok s t.advance := by
  obtain ⟨first, rest, hrest, -, -, hadvance⟩ := State.exists_rest hend
  rw [hadvance]
  exact h.crosses (h.sited.pass hok hrest)

theorem advance (h : Advances ok s t) (hok : Places ok) : Advances ok s t.advance := by
  by_cases hend : t.terminal = .endOfInput
  · rw [State.advance_atEnd hend]
    exact h
  · exact (h.pass hok hend).toAdvances

end Advances

theorem Sited.cross (h : Sited ok s) (hok : Places ok) (hend : s.terminal ≠ .endOfInput) : Crosses ok s s.advance :=
  (Advances.refl h).pass hok hend

theorem State.lastSpan_advance (hend : s.terminal ≠ .endOfInput) : s.advance.lastSpan = s.span := by
  obtain ⟨first, rest, -, -, hspan, hadvance⟩ := State.exists_rest hend
  rw [hadvance, hspan]
  rfl

theorem Sited.advance (h : Sited ok s) (hok : Places ok) : Advances ok s s.advance := (Advances.refl h).advance hok

namespace Crosses

theorem trans (h : Crosses ok s t) (h' : Advances ok t u) : Crosses ok s u :=
  ⟨h.toAdvances.trans h', h.crossed.trans h'.lastSpan⟩

theorem fresh (h : Crosses ok s t) {nextId : NodeId} : Crosses ok s { t with nextId } :=
  ⟨h.toAdvances.fresh, h.crossed⟩

/-- The first token is one of those that were passed. -/
theorem first (h : Crosses ok s t) : Between s t s.span := ⟨Nat.le_refl _, h.crossed.stop⟩

theorem last (h : Crosses ok s t) : Between s t t.lastSpan := ⟨h.crossed.start, Nat.le_refl _⟩

end Crosses

namespace Between

theorem wider (h : Between t u place) (hst : Advances ok s t) (huv : Advances ok u v) : Between s v place :=
  ⟨Nat.le_trans hst.span.start h.start, Nat.le_trans h.stop huv.lastSpan.stop⟩

theorem within (h : Between s t place) : place.Within (s.span.join t.lastSpan) :=
  ⟨Nat.le_trans (Nat.min_le_left ..) h.start, Nat.le_trans h.stop (Nat.le_max_right ..)⟩

theorem join {place' : Span} (h : Between s t place) (h' : Between s t place') : Between s t (place.join place') :=
  ⟨Nat.le_min.mpr ⟨h.start, h'.start⟩, Nat.max_le.mpr ⟨h.stop, h'.stop⟩⟩

end Between

/-! ## Where a tree stands -/

/-- A name that was read between the states. -/
structure Named (ok : Span → Prop) (s t : State) (name : Ident) : Prop where
  place : ok name.span
  between : Between s t name.span

/-- A tree that was read between the states, with all its nodes where they should be. -/
structure Lies (ok : Span → Prop) (s t : State) (n : Node) : Prop where
  between : Between s t n.span
  sits : AllSit ok n.nodes

theorem Named.wider {name : Ident} (h : Named ok t u name) (hst : Advances ok s t) (huv : Advances ok u v) :
    Named ok s v name := ⟨h.place, h.between.wider hst huv⟩

namespace Lies

variable {n m : Node}

theorem wider (h : Lies ok t u n) (hst : Advances ok s t) (huv : Advances ok u v) : Lies ok s v n :=
  ⟨h.between.wider hst huv, h.sits⟩

theorem ok_span (h : Lies ok s t n) : ok n.span := h.sits.self.span

theorem part (h : Lies ok s t n) (hm : m ∈ n.parts) : Lies ok s t m where
  between :=
    ⟨Nat.le_trans h.between.start (h.sits.self.parts m hm).start,
      Nat.le_trans (h.sits.self.parts m hm).stop h.between.stop⟩
  sits := h.sits.part hm

end Lies

/-- At least one token further, and the tree that was read there. -/
structure Stands (ok : Span → Prop) (s t : State) (n : Node) : Prop extends Crosses ok s t, Lies ok s t n

/-- What is placed from the first token to the one passed last lies there, if its parts do. -/
theorem Crosses.node (h : Crosses ok s t) (hok : Places ok) (hs : Sited ok s) {n : Node}
    (hspan : n.span = s.span.join t.lastSpan) (hnames : ∀ name ∈ n.names, Named ok s t name)
    (hdeclared : ∀ f ∈ n.declared, f.Sits ok ∧ Between s t f.span) (hparts : ∀ m ∈ n.parts, Lies ok s t m) :
    Lies ok s t n where
  between := hspan ▸ h.first.join h.last
  sits := by
    refine allSit_nodes ?_ fun m hm => (hparts m hm).sits
    -- what lies between the ends lies inside the place from the one to the other
    exact {
      span := hspan ▸ hok.join _ _ hs.span h.sited.lastSpan
      names := fun name hname => ⟨(hnames name hname).place, hspan ▸ (hnames name hname).between.within⟩
      declared := fun f hf => ⟨(hdeclared f hf).1, hspan ▸ (hdeclared f hf).2.within⟩
      parts := fun m hm => hspan ▸ (hparts m hm).between.within }

/-- What is placed over its parts lies where these do. -/
theorem Lies.of_parts {n : Node} (hplace : ok n.span) (hbetween : Between s t n.span) (hnames : n.names = [])
    (hdeclared : n.declared = []) (hparts : ∀ m ∈ n.parts, m.span.Within n.span ∧ AllSit ok m.nodes) :
    Lies ok s t n where
  between := hbetween
  sits := by
    refine allSit_nodes ?_ fun m hm => (hparts m hm).2
    exact {
      span := hplace
      names := by simp [hnames]
      declared := by simp [hdeclared]
      parts := fun m hm => (hparts m hm).1 }

/-! ## Runs -/

/-- From a state on the way from the first one, the parser comes to states that are not in front of the first
one, and names an allowed place where it meets something that ends the parse. -/
def Tracks (ok : Span → Prop) {α : Type} (s₀ s : State) (p : Parser α) (good : α → State → Prop) : Prop :=
  Ends p s (fun a t => Advances ok s₀ t ∧ good a t)
    fun e t => Advances ok s₀ t ∧ ∀ construct place, e = .unsupported construct place → ok place

/-- From every state, what the parser gives is good for that state and the one behind. -/
def Traces (ok : Span → Prop) {α : Type} (p : Parser α) (good : State → State → α → Prop) : Prop :=
  ∀ s, Sited ok s → Tracks ok s s p fun a t => good s t a

theorem Traces.mono {α : Type} {p : Parser α} {good good' : State → State → α → Prop} (h : Traces ok p good)
    (hgood : ∀ s t a, good s t a → good' s t a) : Traces ok p good' :=
  fun s hs => (h s hs).mono (fun a t _ ht => ⟨ht.1, hgood s t a ht.2⟩) fun _ _ _ ht => ht

namespace Tracks

variable {α β : Type} {p : Parser α} {good : α → State → Prop} {mid : State → State → α → Prop}

theorem pure {a : α} (h : Advances ok s₀ s) (ha : good a s) : Tracks ok s₀ s (pure a) good := ⟨h, ha⟩

theorem exhausted (h : Advances ok s₀ s) : Tracks ok s₀ s (throw .exhausted : Parser α) good :=
  ⟨h, fun _ _ => Abort.noConfusion⟩

theorem unsupported {construct : Construct} (h : Advances ok s₀ s) (hplace : ok place) :
    Tracks ok s₀ s (throw (.unsupported construct place) : Parser α) good :=
  ⟨h, fun _ _ heq => (Abort.unsupported.inj heq).2 ▸ hplace⟩

/-- A mistake at the current token. -/
theorem failAt {problem : Terminal → Problem} (h : Advances ok s₀ s) :
    Tracks ok s₀ s (failAt problem : Parser α) good :=
  ⟨h.report h.sited.span, fun _ _ => Abort.noConfusion⟩

/-- A production on the way. -/
theorem call {f : α → Parser β} {good : β → State → Prop} (h : Advances ok s₀ s) (hp : Traces ok p mid)
    (hf : ∀ a t, Advances ok s t → mid s t a → Tracks ok s₀ t (f a) good) : Tracks ok s₀ s (p >>= f) good := by
  unfold Tracks
  rw [Ends.bind_iff]
  refine (hp s h.sited).mono (fun a t _ ht => hf a t ht.1 ht.2) fun e t _ ht => ?_
  exact ⟨h.trans ht.1, ht.2⟩

/-- The last production on the way. -/
theorem tail (h : Advances ok s₀ s) (hp : Traces ok p mid) (hgood : ∀ a t, Advances ok s t → mid s t a → good a t) :
    Tracks ok s₀ s p good :=
  (hp s h.sited).mono (fun a t _ ht => ⟨h.trans ht.1, hgood a t ht.1 ht.2⟩) fun _ _ _ ht => ⟨h.trans ht.1, ht.2⟩

/-- A production whose mistakes are made good. -/
theorem attempt {f : Option α → Parser β} {good : β → State → Prop} (h : Advances ok s₀ s) (hp : Traces ok p mid)
    (hf : ∀ found t, Advances ok s t → (∀ a, found = some a → mid s t a) → Tracks ok s₀ t (f found) good) :
    Tracks ok s₀ s (attempt p >>= f) good := by
  have hrun := hp s h.sited
  unfold Tracks
  rw [Ends.bind_iff]
  unfold Tracks Ends at hrun
  unfold Ends Parse.attempt
  cases hps : p s with
  | ok a t =>
    rw [hps] at hrun
    refine hf (some a) t hrun.1 ?_
    rintro _ ⟨⟩
    exact hrun.2
  | error e t =>
    rw [hps] at hrun
    cases e with
    | reported => exact hf none t hrun.1 (by simp)
    | unsupported construct place => exact ⟨h.trans hrun.1, hrun.2⟩
    | exhausted => exact ⟨h.trans hrun.1, hrun.2⟩

theorem map {f : α → β} {good : β → State → Prop} (hp : Tracks ok s₀ s p fun a t => good (f a) t) :
    Tracks ok s₀ s (f <$> p) good := by
  unfold Tracks
  rw [Ends.map_iff]
  exact hp

theorem ite {c : Prop} [Decidable c] {q : Parser α} (hp : c → Tracks ok s₀ s p good)
    (hq : ¬c → Tracks ok s₀ s q good) : Tracks ok s₀ s (if c then p else q) good := by
  split
  · exact hp ‹_›
  · exact hq ‹_›

/-- What is read off the state. -/
theorem read {g : State → α} {f : α → Parser β} {good : β → State → Prop} (hf : Tracks ok s₀ s (f (g s)) good) :
    Tracks ok s₀ s ((do return g (← get)) >>= f) good := hf

theorem get {f : State → Parser β} {good : β → State → Prop} (hf : Tracks ok s₀ s (f s) good) :
    Tracks ok s₀ s (MonadState.get >>= f) good := hf

theorem fresh {f : NodeId → Parser β} {good : β → State → Prop}
    (hf : Tracks ok s₀ { s with nextId := s.nextId + 1 } (f s.nextId) good) :
    Tracks ok s₀ s (freshId >>= f) good := hf

theorem advance {f : Unit → Parser β} {good : β → State → Prop} (hf : Tracks ok s₀ s.advance (f ()) good) :
    Tracks ok s₀ s (advance >>= f) good := hf

theorem report {problem : Problem} {f : Unit → Parser β} {good : β → State → Prop}
    (hf : Tracks ok s₀ { s with problems := ⟨problem, place⟩ :: s.problems } (f ()) good) :
    Tracks ok s₀ s (report problem place >>= f) good := hf

theorem unexpected {wanted : Wanted} {f : Unit → Parser β} {good : β → State → Prop}
    (hf : Tracks ok s₀ { s with problems := ⟨.unexpected wanted s.terminal, s.span⟩ :: s.problems } (f ()) good) :
    Tracks ok s₀ s (unexpected wanted >>= f) good := hf

theorem accept {m : Punct} {f : Bool → Parser β} {good : β → State → Prop}
    (hyes : s.terminal = .punct m → Tracks ok s₀ s.advance (f true) good)
    (hno : Tracks ok s₀ s (f false) good) : Tracks ok s₀ s (accept m >>= f) good := by
  unfold Tracks Ends
  rw [accept_bind]
  by_cases h : s.terminal = .punct m
  · rw [if_pos h]
    exact hyes h
  · rw [if_neg h]
    exact hno

theorem acceptKeyword {k : Keyword} {f : Bool → Parser β} {good : β → State → Prop}
    (hyes : s.terminal = .keyword k → Tracks ok s₀ s.advance (f true) good)
    (hno : Tracks ok s₀ s (f false) good) : Tracks ok s₀ s (acceptKeyword k >>= f) good := by
  rw [Parse.acceptKeyword, bind_assoc]
  unfold Tracks Ends
  rw [terminal_bind]
  by_cases h : s.terminal = .keyword k
  · rw [if_pos h]
    exact hyes h
  · rw [if_neg h]
    exact hno

theorem expect {m : Punct} {f : Unit → Parser β} {good : β → State → Prop} (h : Advances ok s₀ s)
    (hyes : s.terminal = .punct m → Tracks ok s₀ s.advance (f ()) good) :
    Tracks ok s₀ s (expect m >>= f) good := by
  rw [Parse.expect, bind_assoc]
  exact accept hyes (failAt h)

end Tracks

/-! ## Behind mistakes -/

/-- Behind a token that is passed, and on from there. -/
theorem Sited.passThen (h : Sited ok s) (hok : Places ok) {first : Token} {ts : List Token}
    (hrest : s.rest = first :: ts)
    (hnext : Sited ok { s with rest := ts, last := some first } →
      Advances ok { s with rest := ts, last := some first } t) : Advances ok s t :=
  (h.pass hok hrest).toAdvances.trans (hnext (h.pass hok hrest).sited)

theorem skipStatement_advances (hok : Places ok) (depth : Nat) (last : Option Token) (ts : List Token)
    (h : Sited ok { s with last, rest := ts }) : Advances ok { s with last, rest := ts }
      { s with last := (skipStatement depth last ts).1, rest := (skipStatement depth last ts).2 } := by
  fun_induction skipStatement depth last ts with
  | case1 => exact .refl h
  | case2 => exact .refl h
  | case3 => exact (h.pass hok rfl).toAdvances
  | case4 _ _ _ _ _ ih => exact h.passThen hok rfl ih
  | case5 => exact .refl h
  | case6 => exact (h.pass hok rfl).toAdvances
  | case7 _ _ _ _ _ ih => exact h.passThen hok rfl ih
  | case8 _ _ _ _ _ _ _ _ _ _ ih => exact h.passThen hok rfl ih

theorem skipItem_advances (hok : Places ok) (depth : Nat) (last : Option Token) (ts : List Token)
    (h : Sited ok { s with last, rest := ts }) : Advances ok { s with last, rest := ts }
      { s with last := (skipItem depth last ts).1, rest := (skipItem depth last ts).2 } := by
  fun_induction skipItem depth last ts with
  | case1 => exact .refl h
  | case2 => exact .refl h
  | case3 => exact .refl h
  | case4 => exact .refl h
  | case5 _ _ _ _ _ ih => exact h.passThen hok rfl ih
  | case6 _ _ _ _ _ ih => exact h.passThen hok rfl ih
  | case7 _ _ _ _ _ _ _ _ _ ih => exact h.passThen hok rfl ih

namespace Tracks

variable {β : Type} {f : Unit → Parser β} {good : β → State → Prop}

/-- A step that skips to a state, and one token more if nothing was passed since the mistake. -/
theorem skip (hok : Places ok) {p : Parser Unit} {before : Nat} (h : Advances ok s₀ s) (ht : Advances ok s t)
    (hrun : p s = ensureProgress before t) (hf : ∀ u, Advances ok s₀ u → Tracks ok s₀ u (f ()) good) :
    Tracks ok s₀ s (p >>= f) good := by
  rw [ensureProgress_run] at hrun
  have hu : Advances ok s (if t.rest.length = before then t.advance else t) := by
    split
    · exact ht.advance hok
    · exact ht
  unfold Tracks
  rw [Ends.bind_iff]
  unfold Ends
  rw [hrun]
  exact hf _ (h.trans hu)

theorem recoverStatement (hok : Places ok) {before : Nat} (h : Advances ok s₀ s)
    (hf : ∀ t, Advances ok s₀ t → Tracks ok s₀ t (f ()) good) :
    Tracks ok s₀ s (recoverStatement before >>= f) good :=
  skip hok h (skipStatement_advances hok 0 s.last s.rest h.sited) rfl hf

theorem recoverItem (hok : Places ok) {before : Nat} (h : Advances ok s₀ s)
    (hf : ∀ t, Advances ok s₀ t → Tracks ok s₀ t (f ()) good) :
    Tracks ok s₀ s (recoverItem before >>= f) good :=
  skip hok h (skipItem_advances hok 0 s.last s.rest h.sited) rfl hf

end Tracks

end Parse
end Ferrite
