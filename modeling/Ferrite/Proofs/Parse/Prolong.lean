import Ferrite.Proofs.Parse.Recovery
import Ferrite.Proofs.Parse.Silent

/-!
Other tokens behind those that are read, and greater bounds, change nothing. A parser looks at the
current token only; as long as it stays ahead of the seam where the other tokens begin, it does
exactly the same. A construct that ends with its closing brace may end at the seam itself.
-/

namespace Ferrite.Parse

/-- Other tokens, no fewer than before, to come behind those that are read. -/
structure Seam where
  old : List Token
  new : List Token
  le : old.length ≤ new.length

variable (c : Seam)

namespace State

/-- The same state with the other tokens behind the seam. -/
def across (s : State) : State := { s with rest := s.rest.take (s.rest.length - c.old.length) ++ c.new }

/-- Some token is left ahead of the seam, unless there is nothing behind it. -/
def Ahead (s : State) : Prop := c.old = [] ∧ c.new = [] ∨ ∃ ws, ws ≠ [] ∧ s.rest = ws ++ c.old

variable {c} {s t : State}

theorem across_of_rest {ws : List Token} (h : s.rest = ws ++ c.old) :
    s.across c = { s with rest := ws ++ c.new } := by
  rw [across, h, List.length_append, Nat.add_sub_cancel, List.take_left']
  rfl

theorem across_nothing (hold : c.old = []) (hnew : c.new = []) (s : State) : s.across c = s := by
  rw [across, hold, hnew, List.length_nil, Nat.sub_zero, List.take_length, List.append_nil]

/-- Ahead of the seam, both states are the same in front. -/
theorem Ahead.rest (h : s.Ahead c) : ∃ ws, s.rest = ws ++ c.old ∧ s.across c = { s with rest := ws ++ c.new } ∧
    (ws ≠ [] ∨ c.old = [] ∧ c.new = []) := by
  rcases h with ⟨hold, hnew⟩ | ⟨ws, hne, hrest⟩
  · have hrest : s.rest = s.rest ++ c.old := by rw [hold, List.append_nil]
    exact ⟨s.rest, hrest, across_of_rest hrest, .inr ⟨hold, hnew⟩⟩
  · exact ⟨ws, hrest, across_of_rest hrest, .inl hne⟩

theorem Ahead.mono (h : t.Ahead c) (hsuffix : t.rest <:+ s.rest) : s.Ahead c := by
  refine h.imp_right ?_
  rintro ⟨ws, hne, hrest⟩
  obtain ⟨front, hfront⟩ := hsuffix
  exact ⟨front ++ ws, by simp [hne], by rw [← hfront, hrest, List.append_assoc]⟩

theorem Ahead.head? (h : s.Ahead c) : (s.across c).rest.head? = s.rest.head? := by
  obtain ⟨ws, hrest, hacross, hne | ⟨hold, hnew⟩⟩ := h.rest
  · obtain ⟨t, ws, rfl⟩ := List.exists_cons_of_ne_nil hne
    rw [hacross, hrest]
    rfl
  · rw [hacross, hrest, hold, hnew]

theorem Ahead.terminal (h : s.Ahead c) : (s.across c).terminal = s.terminal := by
  rw [State.terminal, State.terminal, h.head?]

theorem Ahead.span (h : s.Ahead c) : (s.across c).span = s.span := by
  rw [State.span, State.span, h.head?]
  rfl

theorem Ahead.lastSpan (h : s.Ahead c) : (s.across c).lastSpan = s.lastSpan := by
  rw [State.lastSpan, State.lastSpan, h.span]
  rfl

theorem Ahead.length (h : s.Ahead c) : s.rest.length + c.new.length = (s.across c).rest.length + c.old.length := by
  obtain ⟨ws, hrest, hacross, -⟩ := h.rest
  rw [hacross, hrest, List.length_append, List.length_append]
  omega

theorem Ahead.advance (h : s.Ahead c) : (s.across c).advance = s.advance.across c := by
  obtain ⟨ws, hrest, hacross, hne⟩ := h.rest
  cases ws with
  | nil =>
    obtain ⟨hold, hnew⟩ := hne.resolve_left fun hne => hne rfl
    rw [across_nothing hold hnew, across_nothing hold hnew]
  | cons t ws =>
    have hstay : t.isEnd = true → s.advance = s := fun hend => by simp [State.advance, hrest, hend]
    have hgo : t.isEnd = false → s.advance = { s with rest := ws ++ c.old, last := some t } := fun hend => by
      simp [State.advance, hrest, hend]
    cases hend : t.isEnd with
    | true =>
      rw [hstay hend, hacross]
      simp [State.advance, hend]
    | false =>
      have hrest' : (State.mk (ws ++ c.old) (some t) s.nextId s.problems).rest = ws ++ c.old := rfl
      rw [hgo hend, across_of_rest hrest', hacross]
      simp [State.advance, hend]

theorem advance_suffix (s : State) : s.advance.rest <:+ s.rest := by
  unfold State.advance
  cases hrest : s.rest with
  | nil => simp [hrest]
  | cons t ts =>
    simp only
    split
    · exact hrest ▸ List.suffix_refl _
    · exact List.suffix_cons _ _

end State

/-- Up to a state that is ahead of the seam, the second parser does the same with the other tokens
behind it, unless the first one met a bound. -/
def Prolongs {α : Type} (p q : Parser α) : Prop :=
  ∀ s, Ends p s
    (fun a t => t.rest <:+ s.rest ∧ (t.Ahead c → q (s.across c) = .ok a (t.across c)))
    (fun e t => t.rest <:+ s.rest ∧ (e ≠ .exhausted → t.Ahead c → q (s.across c) = .error e (t.across c)))

namespace Prolongs

variable {c} {α β : Type} {p q : Parser α}

theorem pure (a : α) : Prolongs c (pure a : Parser α) (pure a) := fun _ => ⟨List.suffix_refl _, fun _ => rfl⟩

theorem throw (e : Abort) : Prolongs c (throw e : Parser α) (throw e) := fun _ => ⟨List.suffix_refl _, fun _ _ => rfl⟩

/-- Whatever is done where the first parser met a bound. -/
theorem exhausted : Prolongs c (MonadExcept.throw .exhausted) q :=
  fun _ => ⟨List.suffix_refl _, fun h => absurd rfl h⟩

theorem bind {f g : α → Parser β} (hp : Prolongs c p q) (hf : ∀ a, Prolongs c (f a) (g a)) :
    Prolongs c (p >>= f) (q >>= g) := by
  intro s
  rw [Ends.bind_iff]
  simp only [Bind.bind, EStateM.bind]
  refine (hp s).mono ?_ ?_
  · rintro a t - ⟨hsuffix, hq⟩
    refine (hf a t).mono ?_ ?_
    · rintro b u - ⟨hsuffix', hg⟩
      refine ⟨hsuffix'.trans hsuffix, fun hu => ?_⟩
      rw [hq (hu.mono hsuffix')]
      exact hg hu
    · rintro e u - ⟨hsuffix', hg⟩
      refine ⟨hsuffix'.trans hsuffix, fun he hu => ?_⟩
      rw [hq (hu.mono hsuffix')]
      exact hg he hu
  · rintro e t - ⟨hsuffix, hq⟩
    refine ⟨hsuffix, fun he ht => ?_⟩
    rw [hq he ht]

theorem map {f : α → β} (hp : Prolongs c p q) : Prolongs c (f <$> p) (f <$> q) := by
  rw [map_eq_pure_bind, map_eq_pure_bind]
  exact hp.bind fun _ => .pure _

theorem ite {b : Prop} [Decidable b] {p' q' : Parser α} (h : Prolongs c p q) (h' : Prolongs c p' q') :
    Prolongs c (if b then p else p') (if b then q else q') := by
  split
  · exact h
  · exact h'

theorem attempt (hp : Prolongs c p q) : Prolongs c (attempt p) (attempt q) := by
  intro s
  have hs := hp s
  unfold Ends at hs
  unfold Ends Parse.attempt
  cases hrun : p s with
  | ok a t =>
    rw [hrun] at hs
    exact ⟨hs.1, fun ht => by rw [hs.2 ht]⟩
  | error e t =>
    rw [hrun] at hs
    cases e with
    | reported => exact ⟨hs.1, fun ht => by rw [hs.2 Abort.noConfusion ht]⟩
    | unsupported construct place => exact ⟨hs.1, fun he ht => by rw [hs.2 he ht]⟩
    | exhausted => exact ⟨hs.1, fun he => absurd rfl he⟩

/-- What is read off a state ahead of the seam. -/
theorem reads {f : State → α} (h : ∀ s, s.Ahead c → f (s.across c) = f s) :
    Prolongs c (do return f (← get)) (do return f (← get)) :=
  fun s => ⟨List.suffix_refl _, fun hs => congrArg (EStateM.Result.ok · _) (h s hs)⟩

theorem modifies {f g : State → State} (hsuffix : ∀ s, (f s).rest <:+ s.rest)
    (h : ∀ s, (f s).Ahead c → g (s.across c) = (f s).across c) :
    Prolongs c (modify f : Parser Unit) (modify g : Parser Unit) :=
  fun s => ⟨hsuffix s, fun hs => congrArg (EStateM.Result.ok () ·) (h s hs)⟩

/-- What looks at the state, and goes on with what is the same ahead of the seam. -/
theorem look {f g : State → Parser α} (hp : ∀ s, p s = f s s) (hq : ∀ s, q s = g s s)
    (h : ∀ s s' : State, s'.last = s.last → s.rest.length + c.new.length = s'.rest.length + c.old.length →
      Prolongs c (f s) (g s')) : Prolongs c p q := by
  intro s
  -- some state is in the place of the one across, so that the tokens are only passed
  let s' : State := { s with rest := s.rest ++ c.new.drop c.old.length }
  have hs' : s.rest.length + c.new.length = s'.rest.length + c.old.length := by
    have hle := c.le
    simp only [s', List.length_append, List.length_drop]
    omega
  have hahead : s.Ahead c → Prolongs c (f s) (g (s.across c)) := fun hs => h s _ rfl hs.length
  have hany := h s s' rfl hs' s
  unfold Ends at hany ⊢
  rw [hp]
  cases hrun : f s s with
  | ok a t =>
    rw [hrun] at hany
    refine ⟨hany.1, fun ht => ?_⟩
    have hs := (hahead (ht.mono hany.1) s).ok hrun
    rw [hq]
    exact hs.2 ht
  | error e t =>
    rw [hrun] at hany
    refine ⟨hany.1, fun he ht => ?_⟩
    have hs := (hahead (ht.mono hany.1) s).error hrun
    rw [hq]
    exact hs.2 he ht

/-- How many tokens are left is a bound, or a mark of the place where a mistake was made. -/
theorem remaining {f g : Nat → Parser α}
    (h : ∀ n m, n + c.new.length = m + c.old.length → Prolongs c (f n) (g m)) :
    Prolongs c (Parse.remaining >>= f) (Parse.remaining >>= g) :=
  look (f := fun s => f s.rest.length) (g := fun s => g s.rest.length) (fun _ => rfl) (fun _ => rfl)
    fun _ _ _ hlength => h _ _ hlength

/-- The token passed last. -/
theorem get {f g : State → Parser α} (h : ∀ s s' : State, s'.last = s.last → Prolongs c (f s) (g s')) :
    Prolongs c (MonadState.get >>= f) (MonadState.get >>= g) :=
  look (f := f) (g := g) (fun _ => rfl) (fun _ => rfl) fun _ _ hlast _ => h _ _ hlast

end Prolongs

/-- No other tokens. -/
def Seam.none : Seam := ⟨[], [], Nat.le_refl 0⟩

/-- What prolongs a run that meets no bound is the same run. -/
theorem Prolongs.eq {α : Type} {p q : Parser α} (h : Prolongs .none p q) {s : State} (hbound : ∀ t, p s ≠ .error .exhausted t) :
    q s = p s := by
  have hsame : ∀ t : State, t.across .none = t := State.across_nothing rfl rfl
  have hends := h s
  unfold Ends at hends
  cases hrun : p s with
  | ok a t =>
    rw [hrun] at hends
    have hq := hends.2 (.inl ⟨rfl, rfl⟩)
    rwa [hsame, hsame] at hq
  | error e t =>
    rw [hrun] at hends
    have hq := hends.2 (fun he => hbound t (he ▸ hrun)) (.inl ⟨rfl, rfl⟩)
    rwa [hsame, hsame] at hq

/-! ## The current token -/

section Steps

variable {c} {α : Type}

theorem terminal_prolongs : Prolongs c terminal terminal := .reads fun _ hs => hs.terminal

theorem span_prolongs : Prolongs c span span := .reads fun _ hs => hs.span

theorem lastSpan_prolongs : Prolongs c lastSpan lastSpan := .reads fun _ hs => hs.lastSpan

theorem isAt_prolongs (p : Punct) : Prolongs c (isAt p) (isAt p) := .reads fun _ hs => by rw [hs.terminal]

theorem isAtEnd_prolongs : Prolongs c isAtEnd isAtEnd := .reads fun _ hs => by rw [hs.terminal]

theorem advance_prolongs : Prolongs c advance advance :=
  .modifies State.advance_suffix fun s hs => (hs.mono s.advance_suffix).advance

theorem freshId_prolongs : Prolongs c freshId freshId := fun _ => ⟨List.suffix_refl _, fun _ => rfl⟩

theorem report_prolongs (problem : Problem) (place : Span) :
    Prolongs c (report problem place) (report problem place) :=
  .modifies (fun _ => List.suffix_refl _) fun _ _ => rfl

theorem unexpected_prolongs (wanted : Wanted) : Prolongs c (unexpected wanted) (unexpected wanted) :=
  .bind terminal_prolongs fun _ => .bind span_prolongs fun _ => report_prolongs _ _

theorem failAt_prolongs (problem : Terminal → Problem) :
    Prolongs c (failAt problem : Parser α) (failAt problem) :=
  .bind terminal_prolongs fun _ => .bind span_prolongs fun _ => .bind (report_prolongs _ _) fun _ => .throw _

theorem accept_prolongs (p : Punct) : Prolongs c (accept p) (accept p) :=
  .bind (isAt_prolongs p) fun _ => .ite (.bind advance_prolongs fun _ => .pure _) (.pure _)

theorem acceptKeyword_prolongs (k : Keyword) : Prolongs c (acceptKeyword k) (acceptKeyword k) :=
  .bind terminal_prolongs fun _ => .ite (.bind advance_prolongs fun _ => .pure _) (.pure _)

theorem expect_prolongs (p : Punct) : Prolongs c (expect p) (expect p) :=
  .bind (accept_prolongs p) fun _ => .ite (.pure _) (failAt_prolongs _)

theorem expectName_prolongs : Prolongs c expectName expectName := by
  refine .bind terminal_prolongs fun t => ?_
  split
  · exact .bind span_prolongs fun _ => .bind advance_prolongs fun _ => .pure _
  · exact failAt_prolongs _

/-! ## Behind mistakes -/

/-- Passes the same tokens ahead of the seam. -/
def SkipsAhead (c : Seam) (skip : Option Token → List Token → Skip) : Prop :=
  ∀ last ws zs, zs ≠ [] → (skip last (ws ++ c.old)).2 = zs ++ c.old →
    skip last (ws ++ c.new) = ((skip last (ws ++ c.old)).1, zs ++ c.new)

/-- A skip that stops ahead of the seam has not passed all tokens there. -/
theorem ahead_of_suffix {ts zs : List Token} (hne : zs ≠ []) (hsuffix : ts <:+ c.old) : ts ≠ zs ++ c.old := by
  rintro rfl
  have hlength := hsuffix.length_le
  have hpos := List.length_pos_iff.mpr hne
  rw [List.length_append] at hlength
  omega

theorem skipStatement_ahead (depth : Nat) : SkipsAhead c (skipStatement depth) := by
  intro last ws zs hne h
  induction ws generalizing depth last with
  | nil => exact absurd h (ahead_of_suffix hne (skipStatement_suffix depth last c.old))
  | cons t ws ih =>
    have hstay : t :: (ws ++ c.old) = zs ++ c.old → t :: (ws ++ c.new) = zs ++ c.new := by
      intro h
      rw [← List.cons_append] at h
      rw [← List.append_cancel_right h]
      rfl
    rw [List.cons_append] at h ⊢
    rw [List.cons_append]
    unfold skipStatement at h ⊢
    split at h <;> simp_all

theorem skipItem_ahead (depth : Nat) : SkipsAhead c (skipItem depth) := by
  intro last ws zs hne h
  induction ws generalizing depth last with
  | nil => exact absurd h (ahead_of_suffix hne (skipItem_suffix depth last c.old))
  | cons t ws ih =>
    have hstay : t :: (ws ++ c.old) = zs ++ c.old → t :: (ws ++ c.new) = zs ++ c.new := by
      intro h
      rw [← List.cons_append] at h
      rw [← List.append_cancel_right h]
      rfl
    rw [List.cons_append] at h ⊢
    rw [List.cons_append]
    unfold skipItem at h ⊢
    split at h <;> simp_all

theorem ensureProgress_prolongs {n m : Nat} (h : n + c.new.length = m + c.old.length) :
    Prolongs c (ensureProgress n) (ensureProgress m) := by
  refine .remaining fun k l hkl => ?_
  have hiff : k = n ↔ l = m := by omega
  by_cases hk : k = n
  · rw [if_pos hk, if_pos (hiff.mp hk)]
    exact advance_prolongs
  · rw [if_neg hk, if_neg fun hl => hk (hiff.mpr hl)]
    exact .pure _

theorem skip_prolongs {skip : Option Token → List Token → Skip} (hsuffix : ∀ last ts, (skip last ts).2 <:+ ts)
    (h : SkipsAhead c skip) {n m : Nat} (hnm : n + c.new.length = m + c.old.length) :
    Prolongs c
      (do
        modify fun s =>
          let (last, rest) := skip s.last s.rest
          { s with last, rest }
        ensureProgress n)
      (do
        modify fun s =>
          let (last, rest) := skip s.last s.rest
          { s with last, rest }
        ensureProgress m) := by
  refine .bind (.modifies (fun s => hsuffix s.last s.rest) fun s hs => ?_) fun _ => ensureProgress_prolongs hnm
  have hahead : s.Ahead c := hs.mono (hsuffix s.last s.rest)
  obtain ⟨ws, hrest, hacross, -⟩ := hahead.rest
  rcases hs with ⟨hold, hnew⟩ | ⟨zs, hne, hzs⟩
  · rw [State.across_nothing hold hnew, State.across_nothing hold hnew]
  · rw [State.across_of_rest hzs, hacross]
    simp only [hrest] at hzs ⊢
    rw [h s.last ws zs hne hzs]

theorem recoverStatement_prolongs {n m : Nat} (h : n + c.new.length = m + c.old.length) :
    Prolongs c (recoverStatement n) (recoverStatement m) :=
  skip_prolongs (skipStatement_suffix 0) (skipStatement_ahead 0) h

theorem recoverItem_prolongs {n m : Nat} (h : n + c.new.length = m + c.old.length) :
    Prolongs c (recoverItem n) (recoverItem m) :=
  skip_prolongs (skipItem_suffix 0) (skipItem_ahead 0) h

/-! ## Lists in parentheses, types and headers -/

theorem commaList_prolongs {element element' : Parser α} (he : Prolongs c element element') {n m : Nat}
    (hle : n ≤ m) (comma : Bool) : Prolongs c (commaList element n comma) (commaList element' m comma) := by
  induction n generalizing m comma with
  | zero => exact .exhausted
  | succ n ih =>
    obtain ⟨m, rfl⟩ := Nat.exists_eq_succ_of_ne_zero (Nat.ne_zero_of_lt hle)
    unfold commaList
    refine .bind (isAt_prolongs _) fun _ => .bind isAtEnd_prolongs fun _ => ?_
    refine .ite (.pure _) (.bind he fun x => .bind (accept_prolongs _) fun _ => ?_)
    exact .ite (.bind (ih (Nat.le_of_succ_le_succ hle) true) fun _ => .pure _) (.pure _)

theorem parenthesized_prolongs {element element' : Parser α} (he : Prolongs c element element') :
    Prolongs c (parenthesized element) (parenthesized element') := by
  have hle := c.le
  refine .bind (expect_prolongs _) fun _ => .remaining fun n m hnm => ?_
  refine .bind (commaList_prolongs he (by omega) false) fun _ => ?_
  exact .bind (expect_prolongs _) fun _ => .pure _

theorem resultOf_prolongs {type type' : Parser Ty} (h : Prolongs c type type') :
    Prolongs c (resultOf type) (resultOf type') :=
  .bind (accept_prolongs _) fun _ => .ite h (.pure _)

theorem typeWithin_prolongs {n m : Nat} (hle : n ≤ m) : Prolongs c (typeWithin n) (typeWithin m) := by
  induction n generalizing m with
  | zero => exact .exhausted
  | succ n ih =>
    obtain ⟨m, rfl⟩ := Nat.exists_eq_succ_of_ne_zero (Nat.ne_zero_of_lt hle)
    have htype : Prolongs c (typeWithin n) (typeWithin m) := ih (Nat.le_of_succ_le_succ hle)
    unfold typeWithin
    refine .bind span_prolongs fun start => .bind terminal_prolongs fun t => ?_
    split
    · refine .bind advance_prolongs fun _ => ?_
      split
      · exact .pure _
      · exact .bind (report_prolongs _ _) fun _ => .pure _
    · exact .bind advance_prolongs fun _ => .pure _
    · exact .bind (parenthesized_prolongs htype) fun _ => .pure _
    · exact .bind advance_prolongs fun _ => .bind (parenthesized_prolongs htype) fun _ =>
        .bind (resultOf_prolongs htype) fun _ => .pure _
    · exact .throw _
    · exact .throw _
    · exact failAt_prolongs _

theorem type_prolongs : Prolongs c type type := by
  have hle := c.le
  exact .remaining fun n m hnm => typeWithin_prolongs (by omega)

theorem param_prolongs : Prolongs c param param :=
  .bind (acceptKeyword_prolongs _) fun _ => .bind expectName_prolongs fun _ => .bind (expect_prolongs _) fun _ =>
    .bind type_prolongs fun _ => .pure _

theorem header_prolongs (start : Span) : Prolongs c (header start) (header start) :=
  .bind freshId_prolongs fun _ => .bind advance_prolongs fun _ => .bind expectName_prolongs fun _ =>
    .bind (parenthesized_prolongs param_prolongs) fun _ => .bind (resultOf_prolongs type_prolongs) fun _ =>
      .bind lastSpan_prolongs fun _ => .pure _

theorem declaration_prolongs : Prolongs c declaration declaration :=
  .bind span_prolongs fun _ => .bind (header_prolongs _) fun _ => .bind (expect_prolongs _) fun _ =>
    .bind lastSpan_prolongs fun _ => .pure _

theorem declarations_prolongs {n m : Nat} (hle : n ≤ m) : Prolongs c (declarations n) (declarations m) := by
  induction n generalizing m with
  | zero => exact .exhausted
  | succ n ih =>
    obtain ⟨m, rfl⟩ := Nat.exists_eq_succ_of_ne_zero (Nat.ne_zero_of_lt hle)
    have hmore : Prolongs c (declarations n) (declarations m) := ih (Nat.le_of_succ_le_succ hle)
    unfold declarations
    refine .bind terminal_prolongs fun t => ?_
    split
    · exact .pure _
    · exact .pure _
    · refine .remaining fun k l hkl => .bind declaration_prolongs.attempt fun found => ?_
      cases found with
      | some h => exact .bind hmore fun _ => .pure _
      | none => exact .bind (recoverStatement_prolongs hkl) fun _ => hmore
    · exact failAt_prolongs _

theorem foreign_prolongs : Prolongs c foreign foreign := by
  have hle := c.le
  have hrest (start : Span) (abi : String) : Prolongs c
      (do
        expect .lbrace
        let functions ← declarations ((← remaining) + 1)
        expect .rbrace
        return Item.foreign (start.join (← lastSpan)) abi functions)
      (do
        expect .lbrace
        let functions ← declarations ((← remaining) + 1)
        expect .rbrace
        return Item.foreign (start.join (← lastSpan)) abi functions) := by
    refine .bind (expect_prolongs _) fun _ => .remaining fun n m hnm => ?_
    exact .bind (declarations_prolongs (by omega)) fun _ => .bind (expect_prolongs _) fun _ =>
      .bind lastSpan_prolongs fun _ => .pure _
  refine .bind span_prolongs fun start => .bind advance_prolongs fun _ => .bind terminal_prolongs fun t => ?_
  split
  · exact .bind advance_prolongs fun _ => .bind (.pure _) fun _ => hrest start _
  · exact .bind (.pure _) fun _ => hrest start _

end Steps

/-! ## Expressions and blocks -/

/-- The parsers for what is nested do the same with the other tokens. -/
structure Nested.Prolongs (c : Seam) (nested nested' : Nested) : Prop where
  block : Parse.Prolongs c nested.block nested'.block
  operand : ∀ marks power, Parse.Prolongs c (nested.operand marks power) (nested'.operand marks power)
  cond : Parse.Prolongs c nested.cond nested'.cond

namespace Nested

variable {c} {nested nested' : Nested}

theorem operators_prolongs (hn : nested.Prolongs c nested') (marks : List Punct) (power : Nat) {n m : Nat}
    (hle : n ≤ m) (lhs : Expr) :
    Parse.Prolongs c (nested.operators marks power n lhs) (nested'.operators marks power m lhs) := by
  induction n generalizing m lhs with
  | zero => exact .exhausted
  | succ n ih =>
    obtain ⟨m, rfl⟩ := Nat.exists_eq_succ_of_ne_zero (Nat.ne_zero_of_lt hle)
    unfold operators
    refine .bind terminal_prolongs fun t => .ite (.pure _) ?_
    split
    · exact failAt_prolongs _
    · exact failAt_prolongs _
    · exact .bind span_prolongs fun _ => .throw _
    · split
      · exact .pure _
      · exact .ite (.pure _) (.bind advance_prolongs fun _ => .bind (hn.operand marks _) fun rhs =>
          .bind freshId_prolongs fun id => ih (Nat.le_of_succ_le_succ hle) _)

/-- A construct that is numbered and ends with the token passed last. -/
theorem closed_prolongs (make : NodeId → Span → Expr) : Parse.Prolongs c
    (do let id ← freshId; return make id (← lastSpan)) (do let id ← freshId; return make id (← lastSpan)) :=
  .bind freshId_prolongs fun _ => .bind lastSpan_prolongs fun _ => .pure _

theorem call_prolongs (hn : nested.Prolongs c nested') (start : Span) (callee : Ident) :
    Parse.Prolongs c (nested.call start callee) (nested'.call start callee) :=
  .bind (parenthesized_prolongs (hn.operand _ _)) fun _ => closed_prolongs _

/-- A tuple is met, whatever would come behind it. -/
theorem tuple_prolongs (start : Span) {α : Type} (rest rest' : Unit → Parser α) : Parse.Prolongs c
    (do let place ← span; throw (.unsupported .tuple (start.join place)) >>= rest)
    (do let place ← span; throw (.unsupported .tuple (start.join place)) >>= rest') :=
  .bind span_prolongs fun _ _ => ⟨List.suffix_refl _, fun _ _ => rfl⟩

theorem group_prolongs (hn : nested.Prolongs c nested') (start : Span) :
    Parse.Prolongs c (nested.group start) (nested'.group start) := by
  refine .bind advance_prolongs fun _ => .bind (isAt_prolongs _) fun _ => .ite (tuple_prolongs start _ _) ?_
  refine .bind (hn.operand _ _) fun inner => .bind (isAt_prolongs _) fun _ => ?_
  exact .ite (tuple_prolongs start _ _) (.bind (expect_prolongs _) fun _ => closed_prolongs _)

theorem returning_prolongs (hn : nested.Prolongs c nested') (start : Span) (marks : List Punct) :
    Parse.Prolongs c (nested.returning start marks) (nested'.returning start marks) :=
  .bind advance_prolongs fun _ => .bind terminal_prolongs fun _ =>
    .ite (.bind (.pure _) fun _ => closed_prolongs _) (.bind (.map (hn.operand _ _)) fun _ => closed_prolongs _)

theorem blockLike_prolongs (hn : nested.Prolongs c nested') :
    Parse.Prolongs c nested.blockLike nested'.blockLike := by
  refine .bind span_prolongs fun start => .bind terminal_prolongs fun t => ?_
  split
  · exact .bind hn.block fun _ => closed_prolongs _
  · exact .bind hn.cond fun _ => closed_prolongs _
  · exact .bind advance_prolongs fun _ => .bind hn.block fun _ => closed_prolongs _
  · exact .bind advance_prolongs fun _ => .bind (hn.operand _ _) fun _ => .bind hn.block fun _ => closed_prolongs _
  · exact failAt_prolongs _

theorem primary_prolongs (hn : nested.Prolongs c nested') (marks : List Punct) :
    Parse.Prolongs c (nested.primary marks) (nested'.primary marks) := by
  refine .bind span_prolongs fun start => .bind terminal_prolongs fun t => ?_
  refine .ite (failAt_prolongs _) (.ite (blockLike_prolongs hn) ?_)
  split
  · exact .bind advance_prolongs fun _ => .bind freshId_prolongs fun _ => .pure _
  · exact .bind advance_prolongs fun _ => .bind (isAt_prolongs _) fun _ =>
      .ite (call_prolongs hn _ _) (.bind freshId_prolongs fun _ => .pure _)
  · exact group_prolongs hn start
  · exact returning_prolongs hn start marks
  · exact .throw _
  · exact .throw _
  · exact .throw _
  · exact .throw _
  · exact failAt_prolongs _

theorem unary_prolongs (hn : nested.Prolongs c nested') (marks : List Punct) :
    Parse.Prolongs c (nested.unary marks) (nested'.unary marks) := by
  refine .bind terminal_prolongs fun t => ?_
  split
  · exact primary_prolongs hn marks
  · exact .bind span_prolongs fun start => .bind advance_prolongs fun _ => .bind (hn.operand _ _) fun operand =>
      .bind freshId_prolongs fun id => .pure _

theorem binary_prolongs (hn : nested.Prolongs c nested') (marks : List Punct) (power : Nat) :
    Parse.Prolongs c (nested.binary marks power) (nested'.binary marks power) := by
  have hle := c.le
  exact .bind (unary_prolongs hn marks) fun lhs => .remaining fun n m hnm =>
    operators_prolongs hn marks power (by omega) lhs

theorem conditions_prolongs (hn : nested.Prolongs c nested') :
    Parse.Prolongs c nested.conditions nested'.conditions := by
  refine .bind advance_prolongs fun _ => .bind (hn.operand _ _) fun cond => .bind hn.block fun yes => ?_
  refine .bind (acceptKeyword_prolongs _) fun _ => .ite (.bind terminal_prolongs fun _ => ?_) (.pure _)
  exact .ite (.bind hn.cond fun _ => .pure _) (.bind hn.block fun _ => .pure _)

theorem function_prolongs (hn : nested.Prolongs c nested') : Parse.Prolongs c nested.function nested'.function :=
  .bind span_prolongs fun start => .bind (header_prolongs start) fun _ => .bind hn.block fun _ =>
    .bind lastSpan_prolongs fun _ => .pure _

theorem item?_prolongs (hn : nested.Prolongs c nested') : Parse.Prolongs c nested.item? nested'.item? := by
  refine .bind terminal_prolongs fun t => ?_
  split
  · exact .map (function_prolongs hn)
  · exact .map foreign_prolongs
  · exact .bind span_prolongs fun _ => .throw _
  · exact .ite (.bind span_prolongs fun _ => .throw _) (.pure _)
  · exact .pure _

theorem binding_prolongs (hn : nested.Prolongs c nested') : Parse.Prolongs c nested.binding nested'.binding := by
  refine .bind span_prolongs fun start => .bind freshId_prolongs fun id => .bind advance_prolongs fun _ => ?_
  refine .bind (acceptKeyword_prolongs _) fun _ => .bind expectName_prolongs fun name => ?_
  refine .bind (accept_prolongs _) fun _ => ?_
  have hrest (declared : Option Ty) : Parse.Prolongs c
      (do
        expect .eq
        let init ← nested.expr [.semi]
        expect .semi
        return Stmt.bind id (start.join (← lastSpan)) name declared init)
      (do
        expect .eq
        let init ← nested'.expr [.semi]
        expect .semi
        return Stmt.bind id (start.join (← lastSpan)) name declared init) :=
    .bind (expect_prolongs _) fun _ => .bind (hn.operand _ _) fun _ => .bind (expect_prolongs _) fun _ =>
      .bind lastSpan_prolongs fun _ => .pure _
  exact .ite (.bind (.map type_prolongs) hrest) (.bind (.pure _) hrest)

theorem exprStatement_prolongs (hn : nested.Prolongs c nested') :
    Parse.Prolongs c nested.exprStatement nested'.exprStatement := by
  have hrest (start : Span) (e : Expr) : Parse.Prolongs c
      (do
        let semi ← accept .semi
        if !semi && !e.endsInBlock && !(← isAt .rbrace) then failAt (.unexpected .statementEnd)
        else return Stmt.expr (start.join (← lastSpan)) e semi)
      (do
        let semi ← accept .semi
        if !semi && !e.endsInBlock && !(← isAt .rbrace) then failAt (.unexpected .statementEnd)
        else return Stmt.expr (start.join (← lastSpan)) e semi) :=
    .bind (accept_prolongs _) fun _ => .bind (isAt_prolongs _) fun _ =>
      .ite (failAt_prolongs _) (.bind lastSpan_prolongs fun _ => .pure _)
  refine .bind span_prolongs fun start => .bind terminal_prolongs fun _ => ?_
  exact .ite (.bind (blockLike_prolongs hn) (hrest start)) (.bind (hn.operand _ _) (hrest start))

theorem statement_prolongs (hn : nested.Prolongs c nested') :
    Parse.Prolongs c nested.statement nested'.statement :=
  .bind terminal_prolongs fun _ => .ite (binding_prolongs hn) (exprStatement_prolongs hn)

theorem entries_prolongs (hn : nested.Prolongs c nested') {n m : Nat} (hle : n ≤ m) :
    Parse.Prolongs c (nested.entries n) (nested'.entries m) := by
  induction n generalizing m with
  | zero => exact .exhausted
  | succ n ih =>
    obtain ⟨m, rfl⟩ := Nat.exists_eq_succ_of_ne_zero (Nat.ne_zero_of_lt hle)
    have hmore : Parse.Prolongs c (nested.entries n) (nested'.entries m) := ih (Nat.le_of_succ_le_succ hle)
    unfold entries
    refine .bind terminal_prolongs fun t => ?_
    split
    · exact .pure _
    · exact .pure _
    · exact .bind advance_prolongs fun _ => hmore
    · refine .remaining fun k l hkl => .bind (item?_prolongs hn).attempt fun found => ?_
      rcases found with _ | _ | i
      · exact .bind (recoverStatement_prolongs hkl) fun _ => hmore
      · refine .bind (statement_prolongs hn).attempt fun found => ?_
        cases found with
        | some s => exact .bind hmore fun _ => .pure _
        | none => exact .bind (recoverStatement_prolongs hkl) fun _ => hmore
      · exact .bind hmore fun _ => .pure _

theorem braced_prolongs (hn : nested.Prolongs c nested') : Parse.Prolongs c nested.braced nested'.braced := by
  have hle := c.le
  refine .bind span_prolongs fun start => .bind freshId_prolongs fun id => .bind (expect_prolongs _) fun _ => ?_
  refine .remaining fun n m hnm => .bind (entries_prolongs hn (by omega)) fun es => ?_
  refine .get fun s s' hlast => ?_
  simp only [hlast]
  exact .bind (expect_prolongs _) fun _ => .bind lastSpan_prolongs fun _ => .pure _

end Nested

theorem level_prolongs {n m : Nat} (hle : n ≤ m) : (level n).Prolongs c (level m) := by
  induction n generalizing m with
  | zero => exact ⟨.exhausted, fun _ _ => .exhausted, .exhausted⟩
  | succ n ih =>
    obtain ⟨m, rfl⟩ := Nat.exists_eq_succ_of_ne_zero (Nat.ne_zero_of_lt hle)
    have hless := ih (Nat.le_of_succ_le_succ hle)
    exact {
      block := Nested.braced_prolongs hless
      operand := Nested.binary_prolongs hless
      cond := Nested.conditions_prolongs hless }

theorem items_prolongs {nested nested' : Nested} (hn : nested.Prolongs c nested') {n m : Nat} (hle : n ≤ m) :
    Prolongs c (items nested n) (items nested' m) := by
  induction n generalizing m with
  | zero => exact .exhausted
  | succ n ih =>
    obtain ⟨m, rfl⟩ := Nat.exists_eq_succ_of_ne_zero (Nat.ne_zero_of_lt hle)
    have hmore : Prolongs c (items nested n) (items nested' m) := ih (Nat.le_of_succ_le_succ hle)
    unfold items
    refine .bind isAtEnd_prolongs fun _ => .ite (.pure _) ?_
    refine .remaining fun k l hkl => .bind (Nested.item?_prolongs hn).attempt fun found => ?_
    rcases found with _ | _ | i
    · exact .bind (recoverItem_prolongs hkl) fun _ => hmore
    · exact .bind (unexpected_prolongs _) fun _ => .bind (recoverItem_prolongs hkl) fun _ => hmore
    · exact .bind hmore fun _ => .pure _

/-! ## Up to the seam -/

variable {c} in
theorem State.Ahead.of_less {s t : State} (h : c.old <:+ t.rest) (hsuffix : t.rest <:+ s.rest)
    (hless : t.rest.length < s.rest.length) : s.Ahead c := by
  obtain ⟨ws, hws⟩ := h.trans hsuffix
  refine .inr ⟨ws, ?_, hws.symm⟩
  rintro rfl
  rw [List.nil_append] at hws
  have hlength := h.length_le
  rw [hws] at hlength
  omega

/-- The parser passes tokens, and looks at none behind them. So the second one does the same where the
other tokens come right behind these. -/
def Closes {α : Type} (p q : Parser α) : Prop :=
  ∀ s a t, p s = .ok a t → t.last ≠ none ∧ t.rest <:+ s.rest ∧ t.rest.length < s.rest.length ∧
    (c.old <:+ t.rest → q (s.across c) = .ok a (t.across c))

namespace Closes

variable {c} {α β : Type} {p q : Parser α}

/-- Behind what may look at the token that comes next. -/
theorem after {p q : Parser β} {f g : β → Parser α} (hp : Prolongs c p q) (hf : ∀ b, Closes c (f b) (g b)) :
    Closes c (p >>= f) (q >>= g) := by
  intro s a u h
  obtain ⟨b, t, hb, ha⟩ := run_bind_ok h
  obtain ⟨hsuffix, hq⟩ := (hp s).ok hb
  obtain ⟨hlast, hsuffix', hless, hg⟩ := hf b t a u ha
  refine ⟨hlast, hsuffix'.trans hsuffix, Nat.lt_of_lt_of_le hless hsuffix.length_le, fun hu => ?_⟩
  simp only [Bind.bind, EStateM.bind]
  rw [hq (.of_less hu hsuffix' hless)]
  exact hg hu

/-- What is made of the place of the token passed last. -/
theorem lastSpan (hp : Closes c p q) (make : α → Span → β) :
    Closes c (do let a ← p; return make a (← lastSpan)) (do let a ← q; return make a (← lastSpan)) := by
  intro s b t h
  obtain ⟨a, u, ha, hmake⟩ := run_bind_ok h
  cases hmake
  obtain ⟨hlast, hsuffix, hless, hq⟩ := hp s a t ha
  refine ⟨hlast, hsuffix, hless, fun ht => ?_⟩
  have hplace : (t.across c).lastSpan = t.lastSpan := by
    obtain ⟨token, htoken⟩ := Option.ne_none_iff_exists'.mp hlast
    rw [State.lastSpan, State.lastSpan, show (t.across c).last = t.last from rfl, htoken]
    rfl
  simp only [Bind.bind, EStateM.bind]
  rw [hq ht]
  exact congrArg (fun place => EStateM.Result.ok (make a place) _) hplace

theorem expect (m : Punct) : Closes c (expect m) (expect m) := by
  intro s _ t h
  obtain ⟨hm, rfl⟩ := (expect_ends m s).ok h
  have hend : s.terminal ≠ .endOfInput := by
    rw [hm]
    exact Terminal.noConfusion
  obtain ⟨hsuffix, hless⟩ := advance_passes hend
  obtain ⟨token, -, -, hpass⟩ := Passes.advance hend
  refine ⟨by simp [hpass.last], hsuffix, hless, fun ht => ?_⟩
  have hs : s.Ahead c := .of_less ht hsuffix hless
  rw [expect_run, hs.terminal, if_pos hm, hs.advance]

theorem look {f g : State → Parser α} (hp : ∀ s, p s = f s s) (hq : ∀ s, q s = g s s)
    (h : ∀ s s' : State, s'.last = s.last → s.rest.length + c.new.length = s'.rest.length + c.old.length →
      Closes c (f s) (g s')) : Closes c p q := by
  intro s a t hrun
  rw [hp] at hrun
  obtain ⟨hlast, hsuffix, hless, -⟩ := h s { s with rest := s.rest ++ c.new.drop c.old.length } rfl
    (by have hle := c.le; simp only [List.length_append, List.length_drop]; omega) s a t hrun
  refine ⟨hlast, hsuffix, hless, fun ht => ?_⟩
  have hs : s.Ahead c := .of_less ht hsuffix hless
  obtain ⟨-, -, -, hg⟩ := h s (s.across c) rfl hs.length s a t hrun
  rw [hq]
  exact hg ht

theorem remaining {f g : Nat → Parser α} (h : ∀ n m, n + c.new.length = m + c.old.length → Closes c (f n) (g m)) :
    Closes c (Parse.remaining >>= f) (Parse.remaining >>= g) :=
  look (f := fun s => f s.rest.length) (g := fun s => g s.rest.length) (fun _ => rfl) (fun _ => rfl)
    fun _ _ _ hlength => h _ _ hlength

theorem get {f g : State → Parser α} (h : ∀ s s' : State, s'.last = s.last → Closes c (f s) (g s')) :
    Closes c (MonadState.get >>= f) (MonadState.get >>= g) :=
  look (f := f) (g := g) (fun _ => rfl) (fun _ => rfl) fun _ _ hlast _ => h _ _ hlast

end Closes

section

variable {c} {nested nested' : Nested}

theorem Nested.braced_closes (hn : nested.Prolongs c nested') : Closes c nested.braced nested'.braced := by
  have hle := c.le
  refine .after span_prolongs fun start => .after freshId_prolongs fun id => .after (expect_prolongs _) fun _ => ?_
  refine .remaining fun n m hnm => .after (Nested.entries_prolongs hn (by omega)) fun es => ?_
  refine .get fun s s' hlast => ?_
  simp only [hlast]
  exact (Closes.expect .rbrace).lastSpan _

theorem level_closes {n m : Nat} (hle : n ≤ m) : Closes c (level n).block (level m).block := by
  cases n with
  | zero =>
    intro s a t h
    cases h
  | succ n =>
    obtain ⟨m, rfl⟩ := Nat.exists_eq_succ_of_ne_zero (Nat.ne_zero_of_lt hle)
    exact Nested.braced_closes (level_prolongs c (Nat.le_of_succ_le_succ hle))

theorem foreign_closes : Closes c foreign foreign := by
  have hle := c.le
  have hrest (start : Span) (abi : String) : Closes c
      (do
        expect .lbrace
        let functions ← declarations ((← remaining) + 1)
        expect .rbrace
        return Item.foreign (start.join (← lastSpan)) abi functions)
      (do
        expect .lbrace
        let functions ← declarations ((← remaining) + 1)
        expect .rbrace
        return Item.foreign (start.join (← lastSpan)) abi functions) :=
    .after (expect_prolongs _) fun _ => .remaining fun n m hnm => .after (declarations_prolongs (by omega)) fun _ =>
      (Closes.expect .rbrace).lastSpan _
  refine .after span_prolongs fun start => .after advance_prolongs fun _ => .after terminal_prolongs fun t => ?_
  split
  · exact .after advance_prolongs fun _ => .after (.pure _) fun _ => hrest start _
  · exact .after (.pure _) fun _ => hrest start _

theorem Nested.function_closes (hb : Closes c nested.block nested'.block) :
    Closes c nested.function nested'.function :=
  .after span_prolongs fun start => .after (header_prolongs start) fun _ => hb.lastSpan _

/-- An item ends with its last brace. -/
theorem Nested.item?_closes (hb : Closes c nested.block nested'.block) {s t : State} {i : Item}
    (h : nested.item? s = .ok (some i) t) : t.rest <:+ s.rest ∧ t.rest.length < s.rest.length ∧
      (c.old <:+ t.rest → nested'.item? (s.across c) = .ok (some i) (t.across c)) := by
  have hmap {p q : Parser Item} (hp : Closes c p q) (hnested : nested.item? s = (some <$> p) s)
      (hnested' : s.Ahead c → nested'.item? (s.across c) = (some <$> q) (s.across c)) : t.rest <:+ s.rest ∧
        t.rest.length < s.rest.length ∧
        (c.old <:+ t.rest → nested'.item? (s.across c) = .ok (some i) (t.across c)) := by
    rw [hnested, map_eq_pure_bind] at h
    obtain ⟨j, u, hj, hpure⟩ := run_bind_ok h
    cases hpure
    obtain ⟨-, hsuffix, hless, hq⟩ := hp s i t hj
    refine ⟨hsuffix, hless, fun ht => ?_⟩
    rw [hnested' (.of_less ht hsuffix hless), map_eq_pure_bind]
    simp only [Bind.bind, EStateM.bind]
    rw [hq ht]
    rfl
  by_cases hfn : s.terminal = .keyword .fn
  · refine hmap (function_closes hb) ?_ fun hs => ?_
    · rw [item?, terminal_bind, hfn]
    · rw [item?, terminal_bind, hs.terminal, hfn]
  by_cases hforeign : s.terminal = .keyword .foreign
  · refine hmap foreign_closes ?_ fun hs => ?_
    · rw [item?, terminal_bind, hforeign]
    · rw [item?, terminal_bind, hs.terminal, hforeign]
  -- nothing else starts an item
  have hnone : Parse.Agree (fun t => ¬StartsItem t) s.rest.length 0 _ nested.item? nested.item? := item?_none_agree
  have hmeets := hnone s s (.refl s) (by rintro (hfn' | hforeign') <;> contradiction) (Nat.le_refl _)
  rw [h] at hmeets
  cases hmeets.1.1

end

end Ferrite.Parse
