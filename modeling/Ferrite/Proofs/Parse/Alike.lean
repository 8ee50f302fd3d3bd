import Ferrite.Proofs.Parse.Relabel

/-!
Two parses of the same words do the same, wherever the words stand and however much was read and
reported before, as long as the bounds on nesting and repetition are great enough for the tokens that
are left. Such bounds are never met.
-/

namespace Ferrite.Parse

/-- Of the tokens passed last, both or neither is a `;`. Nothing else is ever asked of them. -/
def LastAlike (last last' : Option Token) : Prop :=
  last.map Token.terminal = some (.punct .semi) ↔ last'.map Token.terminal = some (.punct .semi)

/-- Apart from numbers, places and reports, the same is left to do. -/
structure State.Alike (s s' : State) : Prop where
  words : s.rest.map Token.terminal = s'.rest.map Token.terminal
  last : LastAlike s.last s'.last

namespace State.Alike

variable {s s' : State}

theorem refl (s : State) : s.Alike s := ⟨rfl, Iff.rfl⟩

theorem terminal (h : s.Alike s') : s'.terminal = s.terminal := by
  have hhead := congrArg List.head? h.words
  rw [List.head?_map, List.head?_map] at hhead
  rw [State.terminal, State.terminal, hhead]

theorem length (h : s.Alike s') : s'.rest.length = s.rest.length := by
  have hlength := congrArg List.length h.words
  rw [List.length_map, List.length_map] at hlength
  exact hlength.symm

theorem advance (h : s.Alike s') : s.advance.Alike s'.advance := by
  have hwords := h.words
  unfold State.advance
  cases hs : s.rest with
  | nil =>
    rw [hs, List.map_nil] at hwords
    rw [List.map_eq_nil_iff.mp hwords.symm]
    exact h
  | cons t ts =>
    rw [hs, List.map_cons] at hwords
    obtain ⟨t', ts', hs', ht, hts⟩ := List.map_eq_cons_iff.mp hwords.symm
    have hend : t'.isEnd = t.isEnd := by rw [Token.isEnd, Token.isEnd, ht]
    rw [hs']
    simp only [hend]
    split
    · exact h
    · exact ⟨hts.symm, by simp [LastAlike, ht]⟩

end State.Alike

/-- Both parses gave up for one reason, and not because a bound was met. -/
def Abort.Alike (e f : Abort) : Prop := e ≠ .exhausted ∧ e.relabel .bare = f.relabel .bare

/-- The same up to what the map forgets. -/
def Same {α β : Type} (map : α → β) (a b : α) : Prop := map a = map b

/-- Two parses went on from where `start` was left in the same way, and passed `least` tokens at
least if they ended well. -/
def Meets {α β : Type} (start : List Token) (least : Nat) (same : α → β → Prop) :
    EStateM.Result Abort State α → EStateM.Result Abort State β → Prop
  | .ok a t, .ok b t' =>
      same a b ∧ t.Alike t' ∧ t.rest <:+ start ∧ t.rest.length + least ≤ start.length
  | .error e t, .error f t' => e.Alike f ∧ t.Alike t' ∧ t.rest <:+ start
  | _, _ => False

/-- The parsers do the same in alike states with at most `size` tokens left, where the current token
is one of `here`. -/
def Agree {α β : Type} (here : Terminal → Prop) (size least : Nat) (same : α → β → Prop) (p : Parser α)
    (q : Parser β) : Prop :=
  ∀ s s', s.Alike s' → here s.terminal → s.rest.length ≤ size → Meets s.rest least same (p s) (q s')

/-- Any token. -/
def anywhere (_ : Terminal) : Prop := True

section

variable {α β γ δ : Type} {start start' : List Token} {least least' size size' : Nat} {same : α → β → Prop}
  {same' : γ → δ → Prop} {here : Terminal → Prop}

namespace Meets

variable {r : EStateM.Result Abort State α} {r' : EStateM.Result Abort State β}

theorem ends (h : Meets start least same r r') :
    (∃ a b t t', r = .ok a t ∧ r' = .ok b t' ∧ same a b ∧ t.Alike t' ∧ t.rest <:+ start ∧
      t.rest.length + least ≤ start.length) ∨
    ∃ e f t t', r = .error e t ∧ r' = .error f t' ∧ e.Alike f ∧ t.Alike t' ∧ t.rest <:+ start := by
  cases r with
  | ok a t =>
    cases r' with
    | ok b t' => exact .inl ⟨a, b, t, t', rfl, rfl, h⟩
    | error f t' => exact False.elim h
  | error e t =>
    cases r' with
    | ok b t' => exact False.elim h
    | error f t' => exact .inr ⟨e, f, t, t', rfl, rfl, h⟩

/-- What goes on from a later point goes on from an earlier one. -/
theorem lift (h : Meets start least same r r') (hsuffix : start <:+ start')
    (hleast : start.length + least' ≤ start'.length + least) : Meets start' least' same r r' := by
  rcases h.ends with ⟨a, b, t, t', rfl, rfl, hsame, halike, hrest, hlength⟩ |
    ⟨e, f, t, t', rfl, rfl, habort, halike, hrest⟩
  · exact ⟨hsame, halike, hrest.trans hsuffix, by omega⟩
  · exact ⟨habort, halike, hrest.trans hsuffix⟩

theorem bind {p : Parser α} {q : Parser β} {f : α → Parser γ} {f' : β → Parser δ} {s s' : State}
    (h : Meets start least same (p s) (q s'))
    (hf : ∀ a b t t', same a b → t.Alike t' → t.rest <:+ start → t.rest.length + least ≤ start.length →
      Meets start least' same' (f a t) (f' b t')) : Meets start least' same' ((p >>= f) s) ((q >>= f') s') := by
  rcases h.ends with ⟨a, b, t, t', hp, hq, hsame, halike, hrest, hlength⟩ | ⟨e, f, t, t', hp, hq, hends⟩
  · simp only [Bind.bind, EStateM.bind, hp, hq]
    exact hf a b t t' hsame halike hrest hlength
  · simp only [Bind.bind, EStateM.bind, hp, hq]
    exact hends

end Meets

namespace Agree

variable {p : Parser α} {q : Parser β} {f : α → Parser γ} {f' : β → Parser δ}

theorem mono (h : Agree here size least same p q) (hleast : least' ≤ least) (hsize : size' ≤ size) :
    Agree here size' least' same p q :=
  fun s s' hs hhere hlength =>
    (h s s' hs hhere (Nat.le_trans hlength hsize)).lift (List.suffix_refl _) (by omega)

theorem weaken {same' : α → β → Prop} (h : Agree here size least same p q) (hsame : ∀ a b, same a b → same' a b) :
    Agree here size least same' p q := by
  intro s s' hs hhere hlength
  rcases (h s s' hs hhere hlength).ends with ⟨a, b, t, t', hp, hq, hsame', hends⟩ | ⟨e, f, t, t', hp, hq, hends⟩
  · rw [hp, hq]
    exact ⟨hsame _ _ hsame', hends⟩
  · rw [hp, hq]
    exact hends

theorem pure {a : α} {b : β} (h : same a b) : Agree here size 0 same (pure a : Parser α) (pure b : Parser β) :=
  fun s _ hs _ _ => ⟨h, hs, List.suffix_refl _, Nat.le_refl s.rest.length⟩

theorem throw {e f : Abort} (h : e.Alike f) :
    Agree here size least same (throw e : Parser α) (throw f : Parser β) :=
  fun _ _ hs _ _ => ⟨h, hs, List.suffix_refl _⟩

/-- Two steps. The second one has fewer tokens left, and fewer of them to pass. -/
theorem bind (hp : Agree here size least same p q)
    (hf : least ≤ size → ∀ a b, same a b →
      Agree anywhere (size - least) (least' - least) same' (f a) (f' b)) :
    Agree here size least' same' (p >>= f) (q >>= f') := by
  intro s s' hs hhere hlength
  refine (hp s s' hs hhere hlength).bind fun a b t t' hsame halike hrest hpassed => ?_
  exact (hf (by omega) a b hsame t t' halike trivial (by omega)).lift hrest (by omega)

theorem map {g : α → γ} {g' : β → δ} (hp : Agree here size least same p q)
    (hg : ∀ a b, same a b → same' (g a) (g' b)) : Agree here size least same' (g <$> p) (g' <$> q) := by
  rw [map_eq_pure_bind, map_eq_pure_bind]
  exact hp.bind fun _ a b h => by
    rw [Nat.sub_self]
    exact .pure (hg a b h)

theorem ite {c : Prop} [Decidable c] {p' : Parser α} {q' : Parser β} (h : Agree here size least same p q)
    (h' : Agree here size least same p' q') :
    Agree here size least same (if c then p else p') (if c then q else q') := by
  split
  · exact h
  · exact h'

/-- The current token decides what is done. -/
theorem dispatch {g : Terminal → Parser α} {g' : Terminal → Parser β}
    (hg : ∀ t, here t → Agree (· = t) size least same (g t) (g' t)) :
    Agree here size least same (Parse.terminal >>= g) (Parse.terminal >>= g') := by
  intro s s' hs hhere hlength
  show Meets s.rest least same (g s.terminal s) (g' s'.terminal s')
  rw [hs.terminal]
  exact hg s.terminal hhere s s' hs rfl hlength

theorem here_mono {there : Terminal → Prop} (h : Agree there size least same p q)
    (hthere : ∀ t, here t → there t) : Agree here size least same p q :=
  fun s s' hs hhere hlength => h s s' hs (hthere _ hhere) hlength

theorem anywhere (h : Agree Parse.anywhere size least same p q) : Agree here size least same p q :=
  h.here_mono fun _ _ => trivial

end Agree

/-! ## The current token -/

/-- The parsers read something off alike states and leave the tokens alone. -/
def Still (same : α → β → Prop) (p : Parser α) (q : Parser β) : Prop :=
  ∀ s s', s.Alike s' → ∃ a b t t', p s = .ok a t ∧ q s' = .ok b t' ∧ same a b ∧ t.Alike t' ∧ t.rest = s.rest

theorem Still.bind {p : Parser α} {q : Parser β} {f : α → Parser γ} {f' : β → Parser δ} (hp : Still same p q)
    (hf : ∀ a b, same a b → Agree here size least same' (f a) (f' b)) :
    Agree here size least same' (p >>= f) (q >>= f') := by
  intro s s' hs hhere hlength
  obtain ⟨a, b, t, t', hps, hqs, hsame, halike, hrest⟩ := hp s s' hs
  simp only [Bind.bind, EStateM.bind, hps, hqs]
  rw [← hrest]
  refine hf a b hsame t t' halike ?_ (by rw [hrest]; exact hlength)
  rwa [State.terminal, hrest]

theorem still_span : Still (fun _ _ => True) span span :=
  fun s s' hs => ⟨_, _, s, s', rfl, rfl, trivial, hs, rfl⟩

theorem still_lastSpan : Still (fun _ _ => True) lastSpan lastSpan :=
  fun s s' hs => ⟨_, _, s, s', rfl, rfl, trivial, hs, rfl⟩

theorem still_freshId : Still (fun _ _ => True) freshId freshId :=
  fun _ _ hs => ⟨_, _, _, _, rfl, rfl, trivial, ⟨hs.words, hs.last⟩, rfl⟩

theorem still_isAt (p : Punct) : Still (· = ·) (isAt p) (isAt p) :=
  fun s s' hs => ⟨_, _, s, s', rfl, rfl, by rw [hs.terminal], hs, rfl⟩

theorem still_isAtEnd : Still (· = ·) isAtEnd isAtEnd :=
  fun s s' hs => ⟨_, _, s, s', rfl, rfl, by rw [hs.terminal], hs, rfl⟩

theorem still_report (problem : Problem) (place place' : Span) :
    Still (fun _ _ => True) (report problem place) (report problem place') :=
  fun _ _ hs => ⟨_, _, _, _, rfl, rfl, trivial, ⟨hs.words, hs.last⟩, rfl⟩

/-- How many tokens are left is a bound on them. -/
theorem remaining_agree {f : Nat → Parser α} {f' : Nat → Parser β}
    (hf : ∀ n ≤ size, Agree here n least same (f n) (f' n)) :
    Agree here size least same (remaining >>= f) (remaining >>= f') := by
  intro s s' hs hhere hlength
  show Meets s.rest least same (f s.rest.length s) (f' s'.rest.length s')
  rw [hs.length]
  exact hf s.rest.length hlength s s' hs hhere (Nat.le_refl _)

theorem advance_passes {s : State} (h : s.terminal ≠ .endOfInput) :
    s.advance.rest <:+ s.rest ∧ s.advance.rest.length + 1 ≤ s.rest.length := by
  cases hs : s.rest with
  | nil => exact absurd (by simp [State.terminal, hs]) h
  | cons t ts =>
    have hend : t.isEnd = false := by simpa [Token.isEnd, State.terminal, hs] using h
    simp [State.advance, hs, hend]

theorem advance_agree (hhere : ∀ t, here t → t ≠ .endOfInput) :
    Agree here size 1 (fun _ _ => True) advance advance := by
  intro s s' hs hs' _
  obtain ⟨hsuffix, hlength⟩ := advance_passes (hhere _ hs')
  exact ⟨trivial, hs.advance, hsuffix, hlength⟩

/-- Passes the current token, which is known. -/
theorem known_agree {t : Terminal} (ht : t ≠ .endOfInput) :
    Agree (· = t) size 1 (fun _ _ => True) advance advance := advance_agree fun _ h => h ▸ ht

theorem unexpected_agree (wanted : Wanted) :
    Agree here size 0 (fun _ _ => True) (unexpected wanted) (unexpected wanted) :=
  .dispatch fun _ _ => still_span.bind fun _ _ _ s _ hs _ _ =>
    ⟨trivial, ⟨hs.words, hs.last⟩, List.suffix_refl _, Nat.le_refl s.rest.length⟩

theorem failAt_agree (problem : Terminal → Problem) :
    Agree here size least same (failAt problem : Parser α) (failAt problem : Parser β) :=
  .dispatch fun _ _ => still_span.bind fun _ _ _ => (still_report _ _ _).bind fun _ _ _ =>
    .throw ⟨by decide, rfl⟩

theorem isAt_bind (p : Punct) (f : Bool → Parser α) (s : State) :
    (isAt p >>= f) s = f (decide (s.terminal = .punct p)) s := rfl

theorem accept_bind (p : Punct) (f : Bool → Parser α) (s : State) :
    (accept p >>= f) s = if s.terminal = .punct p then f true s.advance else f false s := by
  rw [accept, bind_assoc, isAt_bind]
  by_cases h : s.terminal = .punct p
  · rw [decide_eq_true h, if_pos h]
    rfl
  · rw [decide_eq_false h, if_neg h]
    rfl

/-- Passes the mark or nothing, and goes on. -/
theorem accept_bind_agree {p : Punct} {f : Bool → Parser α} {f' : Bool → Parser β}
    (hyes : 1 ≤ size → Agree anywhere (size - 1) (least - 1) same (f true) (f' true))
    (hno : Agree here size least same (f false) (f' false)) :
    Agree here size least same (accept p >>= f) (accept p >>= f') := by
  intro s s' hs hhere hlength
  rw [accept_bind, accept_bind, hs.terminal]
  split
  case isTrue hp =>
    obtain ⟨hsuffix, hpassed⟩ := advance_passes (s := s) (by rw [hp]; exact Terminal.noConfusion)
    exact (hyes (by omega) _ _ hs.advance trivial (by omega)).lift hsuffix (by omega)
  case isFalse => exact hno s s' hs hhere hlength

theorem accept_agree (p : Punct) : Agree here size 0 (· = ·) (accept p) (accept p) := by
  have h : Agree here size 0 (· = ·) (accept p >>= pure) (accept p >>= pure) :=
    accept_bind_agree (fun _ => .pure rfl) (.pure rfl)
  rwa [bind_pure] at h

theorem acceptKeyword_agree (k : Keyword) : Agree here size 0 (· = ·) (acceptKeyword k) (acceptKeyword k) := by
  refine .dispatch fun t _ => ?_
  split
  case isTrue ht =>
    have hknown : Agree (· = t) size 1 (fun _ _ => True) advance advance :=
      known_agree (by rw [ht]; exact Terminal.noConfusion)
    exact hknown.bind fun _ _ _ _ => .pure rfl
  case isFalse => exact .pure rfl

theorem expect_agree (p : Punct) : Agree here size 1 (fun _ _ => True) (expect p) (expect p) :=
  accept_bind_agree (fun _ => .pure trivial) (failAt_agree _)

theorem expectName_agree : Agree here size 1 (Same (Ident.relabel .bare)) expectName expectName := by
  refine .dispatch fun t _ => ?_
  split
  · exact still_span.bind fun _ _ _ => (known_agree Terminal.noConfusion).bind fun _ _ _ _ => .pure rfl
  · exact failAt_agree _

/-! ## Behind mistakes -/

theorem Meets.attempt {p : Parser α} {q : Parser β} {f : Option α → Parser γ} {f' : Option β → Parser δ}
    {s s' : State} (h : Meets start least same (p s) (q s'))
    (hsome : ∀ a b t t', same a b → t.Alike t' → t.rest <:+ start → t.rest.length + least ≤ start.length →
      Meets start least' same' (f (some a) t) (f' (some b) t'))
    (hnone : ∀ t t', t.Alike t' → t.rest <:+ start → Meets start least' same' (f none t) (f' none t')) :
    Meets start least' same' ((Parse.attempt p >>= f) s) ((Parse.attempt q >>= f') s') := by
  simp only [Parse.attempt, Bind.bind, EStateM.bind]
  rcases h.ends with ⟨a, b, t, t', hp, hq, hsame, halike, hrest, hlength⟩ |
    ⟨e, g, t, t', hp, hq, habort, halike, hrest⟩
  · rw [hp, hq]
    exact hsome a b t t' hsame halike hrest hlength
  · rw [hp, hq]
    obtain ⟨hexhausted, habort⟩ := habort
    cases e with
    | exhausted => exact (hexhausted rfl).elim
    | reported =>
      cases g with
      | reported => exact hnone t t' halike hrest
      | _ => cases habort
    | unsupported =>
      cases g with
      | unsupported => exact ⟨⟨Abort.noConfusion, habort⟩, halike, hrest⟩
      | _ => cases habort

/-- From wherever a mistake was made behind the current token, the recovery passes that token. -/
def Recovers (recover : Nat → Parser Unit) : Prop :=
  ∀ s t t' : State, s.terminal ≠ .endOfInput → t.Alike t' → t.rest <:+ s.rest →
    Meets s.rest 1 (fun _ _ => True) (recover s.rest.length t) (recover s.rest.length t')

/-- Passes some of the tokens that are left, and looks at nothing but their terminals. -/
structure Skips (skip : Option Token → List Token → Skip) : Prop where
  suffix : ∀ last ts, (skip last ts).2 <:+ ts
  alike : ∀ s s' : State, s.Alike s' →
    (skip s.last s.rest).2.map Token.terminal = (skip s'.last s'.rest).2.map Token.terminal ∧
      LastAlike (skip s.last s.rest).1 (skip s'.last s'.rest).1

theorem ensureProgress_run (before : Nat) (s : State) :
    ensureProgress before s = .ok () (if s.rest.length = before then s.advance else s) := by
  show (if s.rest.length = before then advance else pure ()) s = _
  split <;> rfl

theorem Skips.recovers {skip : Option Token → List Token → Skip} (h : Skips skip) :
    Recovers (fun before => do
      modify fun s =>
        let (last, rest) := skip s.last s.rest
        { s with last, rest }
      ensureProgress before) := by
  intro s t t' hs ht hsuffix
  have hrest := (h.suffix t.last t.rest).trans hsuffix
  obtain ⟨hwords, hlast⟩ := h.alike t t' ht
  show Meets s.rest 1 _ (ensureProgress s.rest.length { t with last := _, rest := (skip t.last t.rest).2 })
    (ensureProgress s.rest.length { t' with last := _, rest := (skip t'.last t'.rest).2 })
  rw [ensureProgress_run, ensureProgress_run]
  generalize hu : State.mk (skip t.last t.rest).2 _ _ _ = u
  generalize hu' : State.mk (skip t'.last t'.rest).2 _ _ _ = u'
  have halike : u.Alike u' := hu ▸ hu' ▸ ⟨hwords, hlast⟩
  have hrest : u.rest <:+ s.rest := hu ▸ hrest
  rw [halike.length]
  split
  case isTrue hlength =>
    have hsame : u.rest = s.rest := hrest.eq_of_length hlength
    obtain ⟨hpassed, hless⟩ := advance_passes (s := u) (by rw [State.terminal, hsame]; exact hs)
    exact ⟨trivial, halike.advance, hsame ▸ hpassed, hsame ▸ hless⟩
  case isFalse hlength =>
    exact ⟨trivial, halike, hrest, Nat.lt_of_le_of_ne hrest.length_le hlength⟩

theorem skipStatement_suffix (depth : Nat) (last : Option Token) (ts : List Token) :
    (skipStatement depth last ts).2 <:+ ts := by
  fun_induction skipStatement depth last ts with
  | case1 | case2 | case5 => exact List.suffix_refl _
  | case3 | case6 => exact List.suffix_cons _ _
  | _ =>
    rename_i ih
    exact ih.trans (List.suffix_cons _ _)

theorem skipItem_suffix (depth : Nat) (last : Option Token) (ts : List Token) :
    (skipItem depth last ts).2 <:+ ts := by
  fun_induction skipItem depth last ts with
  | case1 | case2 | case3 | case4 => exact List.suffix_refl _
  | _ =>
    rename_i ih
    exact ih.trans (List.suffix_cons _ _)

theorem skipStatement_alike {depth : Nat} {last last' : Option Token} {ts ts' : List Token}
    (hwords : ts.map Token.terminal = ts'.map Token.terminal) (hlast : LastAlike last last') :
    (skipStatement depth last ts).2.map Token.terminal = (skipStatement depth last' ts').2.map Token.terminal ∧
      LastAlike (skipStatement depth last ts).1 (skipStatement depth last' ts').1 := by
  induction ts generalizing depth last last' ts' with
  | nil =>
    obtain rfl := List.map_eq_nil_iff.mp hwords.symm
    exact ⟨rfl, hlast⟩
  | cons t ts ih =>
    obtain ⟨t', ts'', rfl, ht, hts⟩ := List.map_eq_cons_iff.mp hwords.symm
    have hts : ts.map Token.terminal = ts''.map Token.terminal := hts.symm
    have hnext : LastAlike (some t) (some t') := by rw [LastAlike, Option.map_some, Option.map_some, ht]
    unfold skipStatement
    rw [ht]
    split
    · exact ⟨hwords, hlast⟩
    · exact ⟨hts, hnext⟩
    · exact ih hts hnext
    · exact ⟨hwords, hlast⟩
    · exact ⟨hts, hnext⟩
    · exact ih hts hnext
    · exact ih hts hnext

theorem skipItem_alike {depth : Nat} {last last' : Option Token} {ts ts' : List Token}
    (hwords : ts.map Token.terminal = ts'.map Token.terminal) (hlast : LastAlike last last') :
    (skipItem depth last ts).2.map Token.terminal = (skipItem depth last' ts').2.map Token.terminal ∧
      LastAlike (skipItem depth last ts).1 (skipItem depth last' ts').1 := by
  induction ts generalizing depth last last' ts' with
  | nil =>
    obtain rfl := List.map_eq_nil_iff.mp hwords.symm
    exact ⟨rfl, hlast⟩
  | cons t ts ih =>
    obtain ⟨t', ts'', rfl, ht, hts⟩ := List.map_eq_cons_iff.mp hwords.symm
    have hts : ts.map Token.terminal = ts''.map Token.terminal := hts.symm
    have hnext : LastAlike (some t) (some t') := by rw [LastAlike, Option.map_some, Option.map_some, ht]
    unfold skipItem
    rw [ht]
    split
    · exact ⟨hwords, hlast⟩
    · exact ⟨hwords, hlast⟩
    · exact ⟨hwords, hlast⟩
    · exact ih hts hnext
    · exact ih hts hnext
    · exact ih hts hnext

theorem recoverStatement_recovers : Recovers recoverStatement :=
  Skips.recovers ⟨skipStatement_suffix 0, fun _ _ h => skipStatement_alike h.words h.last⟩

theorem recoverItem_recovers : Recovers recoverItem :=
  Skips.recovers ⟨skipItem_suffix 0, fun _ _ h => skipItem_alike h.words h.last⟩

end

end Ferrite.Parse
