import Ferrite.Proofs.Parse.Grammar
import Ferrite.Proofs.Run

/-!
Runs of parsers in which nothing is reported. `Reads` says what such a run does; it also says of all
runs that problems are never taken back, and that giving up at a mistake reports one.
-/

namespace Ferrite.Parse

/-- Passes exactly the tokens. -/
structure Passes (ts : List Token) (s s' : State) : Prop where
  rest : s.rest = ts ++ s'.rest
  last : s'.last = ts.getLast?.or s.last

namespace Passes

variable {ts us : List Token} {s s' s'' : State}

theorem refl (s : State) : Passes [] s s := ⟨rfl, rfl⟩

/-- A step that leaves the tokens alone. -/
theorem of_eq (hr : s'.rest = s.rest) (hl : s'.last = s.last) : Passes [] s s' := ⟨hr.symm, hl⟩

theorem trans (h : Passes ts s s') (h' : Passes us s' s'') : Passes (ts ++ us) s s'' where
  rest := by rw [h.rest, h'.rest, List.append_assoc]
  last := by rw [h'.last, h.last, List.getLast?_append, Option.or_assoc]

theorem cons {t : Token} (h : Passes [t] s s') (h' : Passes ts s' s'') : Passes (t :: ts) s s'' :=
  h.trans h'

/-- Passing one token that is not the end. -/
theorem advance (h : s.terminal ≠ .endOfInput) :
    ∃ t, t.terminal = s.terminal ∧ s.span = t.span ∧ Passes [t] s s.advance := by
  cases hs : s.rest with
  | nil => exact absurd (by simp [State.terminal, hs]) h
  | cons t ts =>
    have hterminal : s.terminal = t.terminal := by simp [State.terminal, hs]
    have hend : t.isEnd = false := by simpa [Token.isEnd, hterminal] using h
    refine ⟨t, hterminal.symm, by simp [State.span, hs], ?_, ?_⟩ <;> simp [State.advance, hs, hend]

theorem span {t : Token} (h : Passes (t :: ts) s s') : s.span = t.span := by
  simp [State.span, h.rest]

theorem terminal {t : Token} (h : Passes (t :: ts) s s') : s.terminal = t.terminal := by
  simp [State.terminal, h.rest]

theorem terminal_eq (h : Passes [] s s') : s'.terminal = s.terminal := by
  have hrest := h.rest
  rw [List.nil_append] at hrest
  rw [State.terminal, State.terminal, hrest]

theorem lastSpan {t : Token} (h : Passes ts s s') (ht : ts.getLast? = some t) : s'.lastSpan = t.span := by
  rw [State.lastSpan, h.last, ht]
  rfl

/-- The place from the current token on to the one passed last. -/
theorem covers {located : Prop} (h : Passes ts s s') (hne : ts ≠ []) :
    Covers located (s.span.join s'.lastSpan) ts := by
  intro _
  obtain ⟨t, us, rfl⟩ := List.exists_cons_of_ne_nil hne
  have hlast := List.getLast?_eq_some_getLast hne
  exact ⟨t, rfl, _, hlast, by rw [h.span, h.lastSpan hlast]⟩

end Passes

/-- A run in which nothing is reported is `silent`. -/
def Reads {α : Type} (p : Parser α) (silent : State → α → State → Prop) : Prop :=
  ∀ s, Ends p s
    (fun a s' => s.problems <:+ s'.problems ∧ (s'.problems = s.problems → silent s a s'))
    (fun e s' => s.problems <:+ s'.problems ∧ (e = .reported → s'.problems ≠ s.problems))

namespace Reads

variable {α β : Type} {p : Parser α} {silent silent' : State → α → State → Prop}

theorem mono (h : Reads p silent) (hsilent : ∀ s a s', silent s a s' → silent' s a s') : Reads p silent' :=
  fun s => (h s).mono (fun a s' _ hg => ⟨hg.1, fun heq => hsilent s a s' (hg.2 heq)⟩) fun _ _ _ hb => hb

theorem pure (a : α) : Reads (pure a : Parser α) fun s b s' => b = a ∧ s' = s :=
  fun _ => ⟨List.suffix_refl _, fun _ => ⟨rfl, rfl⟩⟩

/-- Giving up for another reason than a mistake. -/
theorem throw {e : Abort} (he : e ≠ .reported) : Reads (throw e : Parser α) fun _ _ _ => False :=
  fun _ => ⟨List.suffix_refl _, fun h => absurd h he⟩

/-- Two steps, one after the other. -/
theorem bind {f : α → Parser β} {next : α → State → β → State → Prop} (hp : Reads p silent)
    (hf : ∀ a, Reads (f a) (next a)) :
    Reads (p >>= f) fun s b s'' => ∃ a s', silent s a s' ∧ next a s' b s'' := by
  intro s
  rw [Ends.bind_iff]
  refine (hp s).mono ?_ fun _ _ _ hb => hb
  rintro a s' - ⟨hsuffix, hfirst⟩
  refine (hf a s').mono ?_ ?_
  · rintro b s'' - ⟨hsuffix', hsecond⟩
    refine ⟨hsuffix.trans hsuffix', fun heq => ?_⟩
    -- between two equal ends nothing was reported
    have hmid : s'.problems = s.problems := (heq ▸ hsuffix').eq_of_length_le hsuffix.length_le
    exact ⟨a, s', hfirst hmid, hsecond (heq.trans hmid.symm)⟩
  · rintro e s'' - ⟨hsuffix', hreported⟩
    refine ⟨hsuffix.trans hsuffix', fun he heq => hreported he ?_⟩
    have hmid : s'.problems = s.problems := (heq ▸ hsuffix').eq_of_length_le hsuffix.length_le
    exact heq.trans hmid.symm

/-- A step, and what is left to do behind it. -/
theorem andThen {f : α → Parser β} {all : State → β → State → Prop} (hp : Reads p silent)
    (hf : ∀ a, Reads (f a) fun s' b s'' => ∀ s, silent s a s' → all s b s'') : Reads (p >>= f) all := by
  refine (hp.bind hf).mono ?_
  rintro s b s'' ⟨a, s', ha, h⟩
  exact h s ha

theorem ite {c : Prop} [Decidable c] {q : Parser α} (hp : Reads p silent) (hq : Reads q silent') :
    Reads (if c then p else q) fun s a s' => c ∧ silent s a s' ∨ ¬c ∧ silent' s a s' := by
  split
  · rename_i h
    exact hp.mono fun _ _ _ hs => .inl ⟨h, hs⟩
  · rename_i h
    exact hq.mono fun _ _ _ hs => .inr ⟨h, hs⟩

theorem map {f : α → β} (hp : Reads p silent) :
    Reads (f <$> p) fun s b s' => ∃ a, silent s a s' ∧ b = f a := by
  intro s
  rw [Ends.map_iff]
  exact (hp s).mono (fun a s' _ hg => ⟨hg.1, fun heq => ⟨a, hg.2 heq, rfl⟩⟩) fun _ _ _ hb => hb

theorem read {f : State → α} : Reads (do return f (← get)) fun s a s' => a = f s ∧ s' = s :=
  fun _ => ⟨List.suffix_refl _, fun _ => ⟨rfl, rfl⟩⟩

/-- A parser that never ends silently. -/
theorem never (h : Reads p fun _ _ _ => False) : Reads p silent := h.mono fun _ _ _ hf => hf.elim

end Reads

/-! ## The current token -/

theorem terminal_reads : Reads terminal fun s t s' => t = s.terminal ∧ s' = s := .read

theorem span_reads : Reads span fun s place s' => place = s.span ∧ s' = s := .read

/-- The current token decides what is done. -/
theorem Reads.dispatch {α : Type} {f : Terminal → Parser α} {all : State → α → State → Prop}
    (hf : ∀ t, Reads (f t) fun s a s' => s.terminal = t → all s a s') : Reads (terminal >>= f) all := by
  refine terminal_reads.andThen fun t => (hf t).mono ?_
  rintro _ a s' h s ⟨rfl, rfl⟩
  exact h rfl

/-- A construct starts at the current token. -/
theorem Reads.start {α : Type} {f : Span → Parser α} {all : State → α → State → Prop}
    (hf : ∀ place, Reads (f place) fun s a s' => s.span = place → all s a s') : Reads (span >>= f) all := by
  refine span_reads.andThen fun place => (hf place).mono ?_
  rintro _ a s' h s ⟨rfl, rfl⟩
  exact h rfl

theorem lastSpan_reads : Reads lastSpan fun s place s' => place = s.lastSpan ∧ s' = s := .read

theorem remaining_reads : Reads remaining fun s n s' => n = s.rest.length ∧ s' = s := .read

theorem isAt_reads (p : Punct) :
    Reads (isAt p) fun s b s' => (b = true ↔ s.terminal = .punct p) ∧ s' = s :=
  Reads.read.mono fun _ _ _ h => ⟨by rw [h.1, decide_eq_true_eq], h.2⟩

theorem isAtEnd_reads : Reads isAtEnd fun s b s' => (b = true ↔ s.terminal = .endOfInput) ∧ s' = s :=
  Reads.read.mono fun _ _ _ h => ⟨by rw [h.1, decide_eq_true_eq], h.2⟩

theorem get_reads : Reads (get : Parser State) fun s a s' => a = s ∧ s' = s :=
  fun _ => ⟨List.suffix_refl _, fun _ => ⟨rfl, rfl⟩⟩

theorem modify_reads {f : State → State} (hf : ∀ s, (f s).problems = s.problems) :
    Reads (modify f) fun s _ s' => s' = f s :=
  fun s => ⟨(hf s).symm ▸ List.suffix_refl _, fun _ => rfl⟩

theorem advance_problems (s : State) : s.advance.problems = s.problems := by
  unfold State.advance
  split
  · rfl
  · split <;> rfl

theorem advance_reads : Reads advance fun s _ s' => s' = s.advance := modify_reads advance_problems

/-- Passes the current token, which is known. -/
theorem Passes.advance_of {s : State} {t : Terminal} (h : s.terminal = t) (ht : t ≠ .endOfInput) :
    ∃ tok : Token, tok.terminal = t ∧ s.span = tok.span ∧ Passes [tok] s s.advance := by
  obtain ⟨tok, htok, hspan, hpass⟩ := Passes.advance (s := s) (h ▸ ht)
  exact ⟨tok, htok.trans h, hspan, hpass⟩

theorem freshId_reads : Reads freshId fun s _ s' => Passes [] s s' :=
  fun _ => ⟨List.suffix_refl _, fun _ => .of_eq rfl rfl⟩

theorem report_reads (problem : Problem) (place : Span) : Reads (report problem place) fun _ _ _ => False := by
  intro s
  refine ⟨List.suffix_cons _ _, fun heq => ?_⟩
  exact absurd heq (List.cons_ne_self _ _)

/-- Giving up after a report. -/
theorem reported_reads {α : Type} (problem : Problem) (place : Span) :
    Reads (do report problem place; throw .reported : Parser α) fun _ _ _ => False :=
  fun _ => ⟨List.suffix_cons _ _, fun _ heq => absurd heq (List.cons_ne_self _ _)⟩

theorem failAt_reads {α : Type} (problem : Terminal → Problem) :
    Reads (failAt problem : Parser α) fun _ _ _ => False := by
  refine (Reads.bind terminal_reads fun _ => .bind span_reads fun _ => reported_reads _ _).mono ?_
  rintro s a s' ⟨_, _, -, _, _, -, h⟩
  exact h

theorem accept_reads (p : Punct) : Reads (accept p) fun s b s' =>
    b = true ∧ (∃ t, t.terminal = .punct p ∧ Passes [t] s s') ∨
      b = false ∧ s.terminal ≠ .punct p ∧ s' = s := by
  refine (Reads.bind (isAt_reads p) fun _ =>
    .ite (.bind advance_reads fun _ => .pure true) (.pure false)).mono ?_
  rintro _ b s' ⟨c, s, ⟨hc, rfl⟩, ⟨hyes, _, _, rfl, rfl, rfl⟩ | ⟨hno, rfl, rfl⟩⟩
  · have hs := hc.mp hyes
    obtain ⟨t, ht, -, hpass⟩ := Passes.advance_of hs Terminal.noConfusion
    exact .inl ⟨rfl, t, ht, hpass⟩
  · exact .inr ⟨rfl, fun h => hno (hc.mpr h), rfl⟩

theorem acceptKeyword_reads (k : Keyword) : Reads (acceptKeyword k) fun s b s' =>
    b = true ∧ (∃ t, t.terminal = .keyword k ∧ Passes [t] s s') ∨
      b = false ∧ s.terminal ≠ .keyword k ∧ s' = s := by
  refine (Reads.bind terminal_reads fun _ =>
    .ite (.bind advance_reads fun _ => .pure true) (.pure false)).mono ?_
  rintro _ b s' ⟨_, s, ⟨rfl, rfl⟩, ⟨hs, _, _, rfl, rfl, rfl⟩ | ⟨hno, rfl, rfl⟩⟩
  · obtain ⟨t, ht, -, hpass⟩ := Passes.advance_of hs Terminal.noConfusion
    exact .inl ⟨rfl, t, ht, hpass⟩
  · exact .inr ⟨rfl, hno, rfl⟩

theorem expect_reads (p : Punct) :
    Reads (expect p) fun s _ s' => ∃ t, t.terminal = .punct p ∧ Passes [t] s s' := by
  refine (Reads.bind (accept_reads p) fun _ => .ite (.pure ()) (failAt_reads _)).mono ?_
  rintro s _ s' ⟨b, s₁, ⟨rfl, h⟩ | ⟨rfl, -⟩, ⟨hb, -, rfl⟩ | ⟨-, hf⟩⟩
  · exact h
  · exact hf.elim
  · cases hb
  · exact hf.elim

theorem expectName_reads : Reads expectName fun s name s' =>
    ∃ t, t.terminal = .name name.text ∧ name.span = t.span ∧ Passes [t] s s' := by
  refine .dispatch fun t => ?_
  split
  · refine (Reads.bind span_reads fun _ => .bind advance_reads fun _ => .pure _).mono ?_
    rintro _ name s' ⟨_, s, ⟨rfl, rfl⟩, _, _, rfl, rfl, rfl⟩ hs
    obtain ⟨t, ht, hspan, hpass⟩ := Passes.advance_of hs Terminal.noConfusion
    exact ⟨t, ht, hspan, hpass⟩
  · exact (failAt_reads _).never

/-! ## Behind mistakes -/

/-- Where the mistakes of a parser are made good, none was made. -/
theorem attempt_reads {α : Type} {p : Parser α} {silent : State → α → State → Prop} (hp : Reads p silent) :
    Reads (attempt p) fun s found s' => ∃ a, found = some a ∧ silent s a s' := by
  intro s
  have hs := hp s
  unfold Ends at hs ⊢
  unfold attempt
  cases h : p s with
  | ok a s' =>
    rw [h] at hs
    exact ⟨hs.1, fun heq => ⟨a, rfl, hs.2 heq⟩⟩
  | error e s' =>
    rw [h] at hs
    cases e with
    | reported => exact ⟨hs.1, fun heq => absurd heq (hs.2 rfl)⟩
    | unsupported construct place => exact hs
    | exhausted => exact hs

theorem ensureProgress_reads (before : Nat) : Reads (ensureProgress before) fun _ _ _ => True :=
  (Reads.bind remaining_reads fun _ => .ite advance_reads (.pure ())).mono fun _ _ _ _ => trivial

theorem recoverStatement_reads (before : Nat) : Reads (recoverStatement before) fun _ _ _ => True := by
  refine (Reads.bind (modify_reads ?_) fun _ => ensureProgress_reads before).mono fun _ _ _ _ => trivial
  exact fun _ => rfl

theorem recoverItem_reads (before : Nat) : Reads (recoverItem before) fun _ _ _ => True := by
  refine (Reads.bind (modify_reads ?_) fun _ => ensureProgress_reads before).mono fun _ _ _ _ => trivial
  exact fun _ => rfl

/-! ## Lists in parentheses -/

/-- What a parser passes is what it gives, spelled out. -/
abbrev Yields {α : Type} (p : Parser α) (spelled : α → List Token → Prop) : Prop :=
  Reads p fun s a s' => ∃ ts, Passes ts s s' ∧ spelled a ts

theorem commaList_yields {α : Type} {element : Parser α} {spelled : α → List Token → Prop}
    (he : Yields element spelled) (bound : Nat) (comma : Bool) :
    Yields (commaList element bound comma) (Commas spelled comma) := by
  induction bound generalizing comma with
  | zero => exact (Reads.throw (by decide)).never
  | succ bound ih =>
    unfold commaList
    refine (Reads.bind (isAt_reads _) fun _ => .bind isAtEnd_reads fun _ => .ite (.pure _) (.bind he fun _ =>
      .bind (accept_reads _) fun _ => .ite (.bind (ih true) fun _ => .pure _) (.pure _))).mono ?_
    rintro _ list s' ⟨_, _, ⟨-, rfl⟩, _, s, ⟨-, rfl⟩,
      ⟨-, rfl, rfl⟩ | ⟨-, x, s₁, ⟨ts, hts, hx⟩, b, s₂, hb, hrest⟩⟩
    · exact ⟨[], .refl _, .nil⟩
    · rcases hb with ⟨rfl, c, hc, hpass⟩ | ⟨rfl, -, rfl⟩
      · obtain ⟨-, ⟨xs, last⟩, s₃, ⟨us, hus, hxs⟩, rfl, rfl⟩ | ⟨hno, -⟩ := hrest
        · exact ⟨ts ++ c :: us, hts.trans (hpass.cons hus), .cons hx hc hxs⟩
        · exact absurd rfl hno
      · obtain ⟨hyes, -⟩ | ⟨-, rfl, rfl⟩ := hrest
        · cases hyes
        · exact ⟨ts, hts, .last hx⟩

theorem parenthesized_reads {α : Type} {element : Parser α} {spelled : α → List Token → Prop}
    (he : Yields element spelled) :
    Reads (parenthesized element) fun s list s' => ∃ l r ts, l.terminal = .punct .lparen ∧
      Commas spelled false list ts ∧ r.terminal = .punct .rparen ∧ Passes (l :: (ts ++ [r])) s s' := by
  refine (Reads.bind (expect_reads _) fun _ => .bind remaining_reads fun _ =>
    .bind (commaList_yields he _ _) fun _ => .bind (expect_reads _) fun _ => .pure _).mono ?_
  rintro s list s' ⟨_, _, ⟨l, hl, hpass⟩, _, _, ⟨-, rfl⟩, _, _, ⟨ts, hts, hlist⟩, _, _, ⟨r, hr, hpass'⟩, rfl, rfl⟩
  exact ⟨l, r, ts, hl, hlist, hr, hpass.cons (hts.trans hpass')⟩

end Ferrite.Parse
