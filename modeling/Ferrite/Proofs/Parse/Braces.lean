import Ferrite.Proofs.Parse.Agree
import Ferrite.Proofs.Run

/-!
No production passes a brace that closes what it has not opened itself, whether it ends well or gives
up. So what is parsed of a body in braces, however malformed, ends before the brace that closes it.
-/

namespace Ferrite.Parse

/-- How many braces are open behind the tokens where so many are before them, if never more are closed
than are open. -/
def braces : Nat → List Token → Option Nat
  | before, [] => some before
  | before, t :: ts =>
      match t.terminal, before with
      | .punct .lbrace, before => braces (before + 1) ts
      | .punct .rbrace, 0 => none
      | .punct .rbrace, before + 1 => braces before ts
      | _, before => braces before ts

theorem braces_open {t : Token} (ht : t.terminal = .punct .lbrace) (n : Nat) (ts : List Token) :
    braces n (t :: ts) = braces (n + 1) ts := by
  simp [braces, ht]

theorem braces_close {t : Token} (ht : t.terminal = .punct .rbrace) (n : Nat) (ts : List Token) :
    braces (n + 1) (t :: ts) = braces n ts := by
  simp [braces, ht]

theorem braces_plain {t : Token} (hopen : t.terminal ≠ .punct .lbrace) (hclose : t.terminal ≠ .punct .rbrace)
    (n : Nat) (ts : List Token) : braces n (t :: ts) = braces n ts := by
  cases n <;> simp [braces, hclose]

theorem braces_append (n : Nat) (ts us : List Token) :
    braces n (ts ++ us) = (braces n ts).bind fun m => braces m us := by
  fun_induction braces n ts with
  | case1 => rfl
  | _ => simp_all [braces]

theorem braces_add {n m : Nat} {ts : List Token} (h : braces n ts = some m) (k : Nat) :
    braces (n + k) ts = some (m + k) := by
  fun_induction braces n ts with
  | case1 =>
    cases h
    rfl
  | case2 n t ts ht ih =>
    rw [braces_open ht, Nat.add_right_comm]
    exact ih h
  | case3 => cases h
  | case4 t ts n ht ih =>
    rw [Nat.succ_add, braces_close ht]
    exact ih h
  | case5 t ts n hopen hnone hclose ih =>
    have hclose : t.terminal ≠ .punct .rbrace := by
      intro ht
      cases n with
      | zero => exact hnone ht rfl
      | succ n => exact hclose n ht rfl
    rw [braces_plain hopen hclose]
    exact ih h

/-- Between the states some tokens were passed. They closed no more than `j` braces that were open
before them, and left `k` open at least. -/
def Climbs (j k : Nat) (s t : State) : Prop :=
  ∃ ts d, s.rest = ts ++ t.rest ∧ braces j ts = some d ∧ k ≤ d

namespace Climbs

variable {i j k l : Nat} {s t u : State}

theorem of_rest (h : t.rest = s.rest) : Climbs j j s t := ⟨[], j, h.symm, rfl, Nat.le_refl j⟩

theorem refl (s : State) : Climbs j j s s := of_rest rfl

theorem mono (h : Climbs j k s t) (hl : l ≤ k) : Climbs j l s t := by
  obtain ⟨ts, d, hrest, hbraces, hd⟩ := h
  exact ⟨ts, d, hrest, hbraces, Nat.le_trans hl hd⟩

theorem lift (h : Climbs j k s t) (i : Nat) : Climbs (j + i) (k + i) s t := by
  obtain ⟨ts, d, hrest, hbraces, hd⟩ := h
  exact ⟨ts, d + i, hrest, braces_add hbraces i, Nat.add_le_add_right hd i⟩

theorem trans (h : Climbs j k s t) (h' : Climbs k l t u) : Climbs j l s u := by
  obtain ⟨ts, d, hrest, hbraces, hd⟩ := h
  obtain ⟨us, e, hrest', hbraces', he⟩ := h'
  refine ⟨ts ++ us, e + (d - k), by rw [hrest, hrest', List.append_assoc], ?_, by omega⟩
  rw [braces_append, hbraces, Option.bind_some, ← braces_add hbraces' (d - k), Nat.add_sub_cancel' hd]

theorem suffix (h : Climbs j k s t) : t.rest <:+ s.rest := by
  obtain ⟨ts, _, hrest, _⟩ := h
  exact ⟨ts, hrest.symm⟩

end Climbs

/-- From `j` open braces on, at a token of `here`, the parser closes no more of them, and where it ends
well `k` are open at least. -/
def Keeps {α : Type} (here : Terminal → Prop) (j k : Nat) (p : Parser α) : Prop :=
  ∀ s, here s.terminal → Ends p s (fun _ t => Climbs j k s t) fun _ t => Climbs j 0 s t

/-- Any token but a closing brace. -/
abbrev NoClose (t : Terminal) : Prop := t ≠ .punct .rbrace

theorem noClose_of_eq {t : Terminal} (ht : NoClose t) (t' : Terminal) (h : t' = t) : NoClose t' := h ▸ ht

variable {α β : Type} {here : Terminal → Prop} {i j k l : Nat}

namespace Keeps

variable {p : Parser α} {f : α → Parser β}

theorem lift (h : Keeps here j k p) (i : Nat) : Keeps here (j + i) (k + i) p :=
  fun s hs => (h s hs).mono (fun _ _ _ h => h.lift i) fun _ _ _ h => (h.lift i).mono (Nat.zero_le _)

theorem here_mono {there : Terminal → Prop} (h : Keeps there j k p) (hthere : ∀ t, here t → there t) :
    Keeps here j k p := fun s hs => h s (hthere _ hs)

theorem anywhere (h : Keeps Parse.anywhere j k p) : Keeps here j k p := h.here_mono fun _ _ => trivial

theorem pure {a : α} : Keeps here j j (pure a : Parser α) := fun s _ => .refl s

theorem throw {e : Abort} : Keeps here j k (throw e : Parser α) :=
  fun s _ => (Climbs.refl s).mono (Nat.zero_le j)

/-- From behind the current token of a state. -/
theorem after (h : Keeps Parse.anywhere j k p) {s t : State} (ht : Climbs i j s t) :
    Ends p t (fun _ u => Climbs i k s u) fun _ u => Climbs i 0 s u :=
  (h t trivial).mono (fun _ _ _ h => ht.trans h) fun _ _ _ h => ht.trans h

theorem bind (hp : Keeps here j k p) (hf : ∀ a, Keeps Parse.anywhere k l (f a)) : Keeps here j l (p >>= f) := by
  intro s hs
  rw [Ends.bind_iff]
  exact (hp s hs).mono (fun a t _ ht => (hf a).after ht) fun _ _ _ h => h

theorem map {g : α → β} (hp : Keeps here j k p) : Keeps here j k (g <$> p) := by
  intro s hs
  rw [Ends.map_iff]
  exact hp s hs

theorem ite {c : Prop} [Decidable c] {q : Parser α} (hp : Keeps here j k p) (hq : Keeps here j k q) :
    Keeps here j k (if c then p else q) := by
  split
  · exact hp
  · exact hq

/-- What is read off the state leaves the current token where it is. -/
theorem read {g : State → α} {f : α → Parser β} (hf : ∀ a, Keeps here j k (f a)) :
    Keeps here j k ((do return g (← get)) >>= f) :=
  fun s hs => hf (g s) s hs

/-- The current token decides what is done. -/
theorem dispatch {g : Terminal → Parser α} (hg : ∀ t, here t → Keeps (· = t) j k (g t)) :
    Keeps here j k (terminal >>= g) :=
  fun s hs => hg s.terminal hs s rfl

theorem attempt (hp : Keeps here 0 0 p) : Keeps here 0 0 (attempt p) := by
  intro s hs
  have hends := hp s hs
  unfold Ends at hends ⊢
  unfold Parse.attempt
  cases hrun : p s with
  | ok a t =>
    rw [hrun] at hends
    exact hends
  | error e t =>
    rw [hrun] at hends
    cases e <;> exact hends

end Keeps

/-! ## Single tokens -/

/-- A new number leaves the current token where it is. -/
theorem Keeps.fresh {f : NodeId → Parser α} (hf : ∀ id, Keeps here j k (f id)) : Keeps here j k (freshId >>= f) := by
  intro s hs
  exact hf s.nextId { s with nextId := s.nextId + 1 } hs

theorem report_keeps (problem : Problem) (place : Span) : Keeps here j j (report problem place) :=
  fun _ _ => .of_rest rfl

theorem advance_keeps (hhere : ∀ t, here t → NoClose t) : Keeps here j j advance := by
  intro s hs
  show Climbs j j s s.advance
  have hnot := hhere _ hs
  unfold State.advance
  cases hrest : s.rest with
  | nil => exact .refl s
  | cons t ts =>
    have ht : s.terminal = t.terminal := by simp [State.terminal, hrest]
    rw [ht] at hnot
    show Climbs j j s (if t.isEnd then s else _)
    split
    · exact .refl s
    · by_cases hopen : t.terminal = .punct .lbrace
      · exact ⟨[t], j + 1, hrest, braces_open hopen j [], Nat.le_succ j⟩
      · exact ⟨[t], j, hrest, braces_plain hopen hnot j [], Nat.le_refl j⟩

theorem known_keeps {t : Terminal} (ht : NoClose t) : Keeps (· = t) j j advance :=
  advance_keeps (noClose_of_eq ht)

theorem open_keeps : Keeps (· = .punct .lbrace) j (j + 1) advance := by
  intro s hs
  show Climbs j (j + 1) s s.advance
  cases hrest : s.rest with
  | nil => simp [State.terminal, hrest] at hs
  | cons t ts =>
    have ht : t.terminal = .punct .lbrace := by simpa [State.terminal, hrest] using hs
    have hadvance : s.advance.rest = ts := by simp [State.advance, hrest, Token.isEnd, ht]
    exact ⟨[t], j + 1, by rw [hadvance, hrest]; rfl, braces_open ht j [], Nat.le_refl _⟩

theorem close_keeps : Keeps (· = .punct .rbrace) (j + 1) j advance := by
  intro s hs
  show Climbs (j + 1) j s s.advance
  cases hrest : s.rest with
  | nil => simp [State.terminal, hrest] at hs
  | cons t ts =>
    have ht : t.terminal = .punct .rbrace := by simpa [State.terminal, hrest] using hs
    have hadvance : s.advance.rest = ts := by simp [State.advance, hrest, Token.isEnd, ht]
    exact ⟨[t], j, by rw [hadvance, hrest]; rfl, braces_close ht j [], Nat.le_refl _⟩

theorem failAt_keeps (problem : Terminal → Problem) : Keeps here j k (failAt problem : Parser α) :=
  .dispatch fun _ _ => .read fun _ => (report_keeps _ _).bind fun _ => .throw

/-- What passing the mark does to the open braces, or leaving it. -/
theorem accept_bind_keeps {p : Punct} {f : Bool → Parser α} (hp : Keeps (· = .punct p) i j advance)
    (hyes : Keeps anywhere j k (f true)) (hno : Keeps here i k (f false)) : Keeps here i k (accept p >>= f) := by
  intro s hs
  have hrun := accept_bind p f s
  by_cases h : s.terminal = .punct p
  · rw [if_pos h] at hrun
    have hends := hp.bind (fun _ => hyes) s h
    unfold Ends at hends ⊢
    rw [hrun]
    exact hends
  · rw [if_neg h] at hrun
    have hends := hno s hs
    unfold Ends at hends ⊢
    rw [hrun]
    exact hends

theorem accept_keeps {p : Punct} (hp : p ≠ .rbrace) : Keeps here j j (accept p) := by
  have hknown : Keeps (· = .punct p) j j advance := known_keeps fun h => hp (Terminal.punct.inj h)
  have h : Keeps here j j (accept p >>= pure) := accept_bind_keeps hknown .pure .pure
  rwa [bind_pure] at h

theorem acceptKeyword_keeps (k : Keyword) : Keeps here j j (acceptKeyword k) := by
  refine .dispatch fun t _ => ?_
  split
  case isTrue ht =>
    subst ht
    exact (known_keeps Terminal.noConfusion).bind fun _ => .pure
  case isFalse => exact .pure

theorem expect_keeps {p : Punct} (hp : Keeps (· = .punct p) j k advance) : Keeps here j k (expect p) :=
  accept_bind_keeps hp .pure (failAt_keeps _)

theorem mark_keeps {p : Punct} (hp : p ≠ .rbrace) : Keeps here j j (expect p) :=
  expect_keeps (known_keeps fun h => hp (Terminal.punct.inj h))

theorem expectName_keeps : Keeps here j j expectName := by
  refine .dispatch fun t _ => ?_
  split
  · exact .read fun _ => (known_keeps Terminal.noConfusion).bind fun _ => .pure
  · exact failAt_keeps _

/-! ## Lists, types and headers -/

theorem commaList_keeps {element : Parser α} (he : Keeps anywhere j j element) (bound : Nat) (comma : Bool) :
    Keeps here j j (commaList element bound comma) := by
  induction bound generalizing comma here with
  | zero => exact .throw
  | succ bound ih =>
    unfold commaList
    refine .read fun _ => .read fun _ => .ite .pure (he.anywhere.bind fun _ => ?_)
    refine (accept_keeps (by decide)).bind fun _ => .ite ?_ .pure
    exact (ih true).bind fun _ => .pure

theorem parenthesized_keeps {element : Parser α} (he : Keeps anywhere j j element) :
    Keeps here j j (parenthesized element) :=
  (mark_keeps (by decide)).bind fun _ => .read fun _ => (commaList_keeps he _ _).bind fun _ =>
    (mark_keeps (by decide)).bind fun _ => .pure

theorem resultOf_keeps {type : Parser Ty} (ht : Keeps anywhere j j type) : Keeps here j j (resultOf type) :=
  (accept_keeps (by decide)).bind fun _ => .ite ht .pure

theorem typeWithin_keeps (bound : Nat) : Keeps here j j (typeWithin bound) := by
  induction bound generalizing here with
  | zero => exact .throw
  | succ bound ih =>
    unfold typeWithin
    refine .read fun start => .dispatch fun t _ => ?_
    split
    · refine (known_keeps Terminal.noConfusion).bind fun _ => ?_
      split
      · exact .pure
      · exact (report_keeps _ _).bind fun _ => .pure
    · exact (known_keeps (by decide)).bind fun _ => .pure
    · exact (parenthesized_keeps ih).bind fun _ => .pure
    · exact (known_keeps Terminal.noConfusion).bind fun _ => (parenthesized_keeps ih).bind fun _ =>
        (resultOf_keeps ih).bind fun _ => .pure
    · exact .throw
    · exact .throw
    · exact failAt_keeps _

theorem type_keeps : Keeps here j j type := .read fun _ => typeWithin_keeps _

theorem param_keeps : Keeps here j j param :=
  (acceptKeyword_keeps _).bind fun _ => expectName_keeps.bind fun _ => (mark_keeps (by decide)).bind fun _ =>
    type_keeps.bind fun _ => .pure

theorem header_keeps (start : Span) (hhere : ∀ t, here t → NoClose t) : Keeps here j j (header start) := by
  refine .fresh fun _ => (advance_keeps hhere).bind fun _ => expectName_keeps.bind fun _ => ?_
  refine (parenthesized_keeps param_keeps).bind fun _ => (resultOf_keeps type_keeps).bind fun _ => ?_
  exact .read fun _ => .pure

theorem declaration_keeps (hhere : ∀ t, here t → NoClose t) : Keeps here j j declaration :=
  .read fun start => (header_keeps start hhere).bind fun _ => (mark_keeps (by decide)).bind fun _ =>
    .read fun _ => .pure

/-! ## Behind mistakes -/

theorem skipStatement_braces (depth : Nat) (last : Option Token) (ts : List Token) :
    ∃ us d, ts = us ++ (skipStatement depth last ts).2 ∧ braces depth us = some d := by
  fun_induction skipStatement depth last ts with
  | case1 => exact ⟨[], _, rfl, rfl⟩
  | case2 => exact ⟨[], _, rfl, rfl⟩
  | case3 last t ts ht => exact ⟨[t], 0, rfl, by simp [braces, ht]⟩
  | case4 last t ts depth ht ih =>
    obtain ⟨us, d, hts, hbraces⟩ := ih
    exact ⟨t :: us, d, by rw [List.cons_append, ← hts], by rw [braces_open ht, hbraces]⟩
  | case5 last t ts ht => exact ⟨[], 0, rfl, rfl⟩
  | case6 last t ts ht => exact ⟨[t], 0, rfl, by rw [braces_close ht, braces]⟩
  | case7 last t ts depth ht ih =>
    obtain ⟨us, d, hts, hbraces⟩ := ih
    exact ⟨t :: us, d, by rw [List.cons_append, ← hts], by rw [braces_close ht, hbraces]⟩
  | case8 last t ts depth _ _ hopen hnone hone hmore ih =>
    obtain ⟨us, d, hts, hbraces⟩ := ih
    have hclose : t.terminal ≠ .punct .rbrace := by
      intro ht
      rcases depth with _ | _ | depth
      · exact hnone ht rfl
      · exact hone ht rfl
      · exact hmore depth ht rfl
    exact ⟨t :: us, d, by rw [List.cons_append, ← hts], by rw [braces_plain hopen hclose, hbraces]⟩

/-- The recovery passes the current token only if that is no closing brace. -/
theorem recoverStatement_climbs {s t : State} (hs : NoClose s.terminal) (h : Climbs 0 0 s t) :
    Ends (recoverStatement s.rest.length) t (fun _ u => Climbs 0 0 s u) fun _ u => Climbs 0 0 s u := by
  obtain ⟨us, d, hskip, hbraces⟩ := skipStatement_braces 0 t.last t.rest
  show Ends (ensureProgress s.rest.length) { t with last := _, rest := (skipStatement 0 t.last t.rest).2 } _ _
  generalize hu : State.mk (skipStatement 0 t.last t.rest).2 _ _ _ = u
  have hclimbs : Climbs 0 0 s u := h.trans ⟨us, d, by rw [← hu]; exact hskip, hbraces, Nat.zero_le d⟩
  unfold Ends
  rw [ensureProgress_run]
  show Climbs 0 0 s (if u.rest.length = s.rest.length then u.advance else u)
  split
  case isTrue hlength =>
    have hterminal : u.terminal = s.terminal := by
      rw [State.terminal, State.terminal, hclimbs.suffix.eq_of_length hlength]
    have hadvance : Climbs 0 0 u u.advance := known_keeps hs u hterminal
    exact hclimbs.trans hadvance
  case isFalse => exact hclimbs

theorem resume_climbs {g : Parser β} {s t : State} (hs : NoClose s.terminal) (ht : Climbs 0 0 s t)
    (hg : Keeps anywhere 0 0 g) : Ends (do recoverStatement s.rest.length; g) t (fun _ u => Climbs 0 0 s u)
      fun _ u => Climbs 0 0 s u := by
  rw [Ends.bind_iff]
  exact (recoverStatement_climbs hs ht).mono (fun _ _ _ hu => hg.after hu) fun _ _ _ h => h

/-- A parser whose mistakes are made good, behind the current token of a state. -/
theorem retry_climbs {p : Parser α} {f : Option α → Parser β} {g : Parser β} {s t : State}
    (hs : NoClose s.terminal) (ht : Climbs 0 0 s t) (hp : Keeps (· = t.terminal) 0 0 p)
    (hsome : ∀ a, Keeps anywhere 0 0 (f (some a))) (hnone : f none = do recoverStatement s.rest.length; g)
    (hg : Keeps anywhere 0 0 g) :
    Ends (attempt p >>= f) t (fun _ u => Climbs 0 0 s u) fun _ u => Climbs 0 0 s u := by
  rw [Ends.bind_iff]
  refine (hp.attempt t rfl).mono (fun found u _ hu => ?_) fun _ _ _ hu => ht.trans hu
  cases found with
  | some a => exact (hsome a).after (ht.trans hu)
  | none =>
    rw [hnone]
    exact resume_climbs hs (ht.trans hu) hg

theorem retry_keeps {p : Parser α} {f : Nat → Option α → Parser β} {g : Parser β}
    (hhere : ∀ t, here t → NoClose t) (hp : Keeps here 0 0 p) (hsome : ∀ n a, Keeps anywhere 0 0 (f n (some a)))
    (hnone : ∀ n, f n none = do recoverStatement n; g) (hg : Keeps anywhere 0 0 g) :
    Keeps here 0 0 (do f (← remaining) (← attempt p)) :=
  fun s hs => retry_climbs (hhere _ hs) (.refl s) (hp.here_mono fun _ h => h ▸ hs) (hsome _) (hnone _) hg

/-! ## Foreign functions -/

theorem declarations_keeps (bound : Nat) : Keeps here 0 0 (declarations bound) := by
  induction bound generalizing here with
  | zero => exact .throw
  | succ bound ih =>
    have hfn := noClose_of_eq (t := .keyword .fn) (by decide)
    unfold declarations
    refine .dispatch fun t _ => ?_
    split
    · exact .pure
    · exact .pure
    · exact retry_keeps hfn (declaration_keeps hfn) (fun _ _ => ih.bind fun _ => .pure) (fun _ => rfl) ih
    · exact failAt_keeps _

theorem foreign_keeps (hhere : ∀ t, here t → NoClose t) : Keeps here 0 0 foreign := by
  have hrest : ∀ (start : Span) (abi : String), Keeps anywhere 0 0
      (do
        expect .lbrace
        let functions ← declarations ((← remaining) + 1)
        expect .rbrace
        return Item.foreign (start.join (← lastSpan)) abi functions) := fun start abi =>
    (expect_keeps open_keeps).bind fun _ => .read fun _ => ((declarations_keeps _).lift 1).bind fun _ =>
      (expect_keeps close_keeps).bind fun _ => .read fun _ => .pure
  refine .read fun start => (advance_keeps hhere).bind fun _ => .dispatch fun t _ => ?_
  split
  · exact (known_keeps Terminal.noConfusion).bind fun _ => hrest start _
  · exact (hrest start _).anywhere

/-! ## Expressions -/

/-- Parsers for what is nested that close no brace they have not opened. -/
structure Nested.Keeps (nested : Nested) : Prop where
  block : Parse.Keeps anywhere 0 0 nested.block
  cond : Parse.Keeps NoClose 0 0 nested.cond
  operand : ∀ marks power, Parse.Keeps anywhere 0 0 (nested.operand marks power)

namespace Nested

variable {nested : Nested}

/-- A construct that is numbered and ends with the token passed last. -/
theorem closed_keeps {make : NodeId → Span → Expr} :
    Parse.Keeps here 0 0 (do let id ← freshId; return make id (← lastSpan)) :=
  .fresh fun _ => .read fun _ => .pure

theorem operators_keeps (hn : nested.Keeps) (marks : List Punct) (power bound : Nat) (lhs : Expr) :
    Parse.Keeps here 0 0 (nested.operators marks power bound lhs) := by
  induction bound generalizing lhs here with
  | zero => exact .throw
  | succ bound ih =>
    unfold operators
    refine .dispatch fun t _ => .ite .pure ?_
    split
    · exact failAt_keeps _
    · exact failAt_keeps _
    · exact .read fun _ => .throw
    · split
      · exact .pure
      · rename_i op hop
        have ht : NoClose t := by
          rintro rfl
          cases hop
        refine .ite .pure ((known_keeps ht).bind fun _ => (hn.operand _ _).bind fun rhs => .fresh fun id => ?_)
        exact ih _

theorem call_keeps (hn : nested.Keeps) (start : Span) (callee : Ident) :
    Parse.Keeps here 0 0 (nested.call start callee) :=
  (parenthesized_keeps (hn.operand _ _)).bind fun _ => closed_keeps

theorem group_keeps (hn : nested.Keeps) (start : Span) :
    Parse.Keeps (· = .punct .lparen) 0 0 (nested.group start) := by
  have htuple : ∀ f : Unit → Parser Expr, Parse.Keeps anywhere 0 0
      (do let place ← span; throw (.unsupported .tuple (start.join place)) >>= f) := fun f =>
    .read fun _ s _ => (Climbs.refl s)
  refine (known_keeps (by decide)).bind fun _ => .read fun _ => .ite (htuple _) ?_
  refine (hn.operand _ _).bind fun _ => .read fun _ => .ite (htuple _) ?_
  exact (mark_keeps (by decide)).bind fun _ => closed_keeps

theorem returning_keeps (hn : nested.Keeps) (start : Span) (marks : List Punct) :
    Parse.Keeps (· = .keyword .return) 0 0 (nested.returning start marks) := by
  have hrest : ∀ value, Parse.Keeps anywhere 0 0
      (do let id ← freshId; return Expr.ret id (start.join (← lastSpan)) value) := fun _ => closed_keeps
  refine (known_keeps (by decide)).bind fun _ => .dispatch fun t _ => .ite (hrest none).anywhere ?_
  exact (hn.operand _ _).map.anywhere.bind hrest

theorem blockLike_keeps (hn : nested.Keeps) : Parse.Keeps here 0 0 nested.blockLike := by
  refine .read fun start => .dispatch fun t _ => ?_
  split
  · exact hn.block.anywhere.bind fun _ => closed_keeps
  · exact (hn.cond.here_mono (noClose_of_eq (by decide))).bind fun _ => closed_keeps
  · exact (known_keeps (by decide)).bind fun _ => hn.block.bind fun _ => closed_keeps
  · exact (known_keeps (by decide)).bind fun _ => (hn.operand _ _).bind fun _ => hn.block.bind fun _ =>
      closed_keeps
  · exact failAt_keeps _

theorem primary_keeps (hn : nested.Keeps) (marks : List Punct) : Parse.Keeps here 0 0 (nested.primary marks) := by
  refine .read fun start => .dispatch fun t _ => .ite (failAt_keeps _) (.ite (blockLike_keeps hn) ?_)
  split
  · exact (known_keeps Terminal.noConfusion).bind fun _ => .fresh fun _ => .pure
  · refine (known_keeps Terminal.noConfusion).bind fun _ => .read fun _ => ?_
    exact .ite (call_keeps hn start _) (.fresh fun _ => .pure)
  · exact group_keeps hn start
  · exact returning_keeps hn start marks
  · exact .throw
  · exact .throw
  · exact .throw
  · exact .throw
  · exact failAt_keeps _

theorem unary_keeps (hn : nested.Keeps) (marks : List Punct) : Parse.Keeps here 0 0 (nested.unary marks) := by
  refine .dispatch fun t _ => ?_
  split
  · exact primary_keeps hn marks
  · rename_i op hop
    have ht : NoClose t := by
      rintro rfl
      cases hop
    exact .read fun _ => (known_keeps ht).bind fun _ => (hn.operand _ _).bind fun _ => .fresh fun _ => .pure

theorem binary_keeps (hn : nested.Keeps) (marks : List Punct) (power : Nat) :
    Parse.Keeps here 0 0 (nested.binary marks power) :=
  (unary_keeps hn marks).bind fun _ => .read fun _ => operators_keeps hn marks power _ _

theorem conditions_keeps (hn : nested.Keeps) : Parse.Keeps NoClose 0 0 nested.conditions := by
  refine (advance_keeps fun _ h => h).bind fun _ => (hn.operand _ _).bind fun _ => hn.block.bind fun _ => ?_
  refine (acceptKeyword_keeps _).bind fun _ => .ite (.dispatch fun t _ => ?_) .pure
  split
  case isTrue ht =>
    subst ht
    exact (hn.cond.here_mono (noClose_of_eq (by decide))).bind fun _ => .pure
  case isFalse => exact hn.block.anywhere.bind fun _ => .pure

/-! ## Items, statements and blocks -/

theorem function_keeps (hn : nested.Keeps) (hhere : ∀ t, here t → NoClose t) :
    Parse.Keeps here 0 0 nested.function :=
  .read fun start => (header_keeps start hhere).bind fun _ => hn.block.bind fun _ => .read fun _ => .pure

theorem item?_keeps (hn : nested.Keeps) : Parse.Keeps here 0 0 nested.item? := by
  refine .dispatch fun t _ => ?_
  split
  · exact (function_keeps hn (noClose_of_eq (by decide))).map
  · exact (foreign_keeps (noClose_of_eq (by decide))).map
  · exact .read fun _ => .throw
  · exact .ite (.read fun _ => .throw) .pure
  · exact .pure

theorem binding_keeps (hn : nested.Keeps) : Parse.Keeps (· = .keyword .let) 0 0 nested.binding := by
  have hrest : ∀ start id name declared, Parse.Keeps anywhere 0 0
      (do
        expect .eq
        let init ← nested.expr [.semi]
        expect .semi
        return Stmt.bind id (Span.join start (← lastSpan)) name declared init) := fun _ _ _ _ =>
    (mark_keeps (by decide)).bind fun _ => (hn.operand _ _).bind fun _ => (mark_keeps (by decide)).bind fun _ =>
      .read fun _ => .pure
  refine .read fun start => .fresh fun id => (known_keeps (by decide)).bind fun _ => ?_
  refine (acceptKeyword_keeps _).bind fun _ => expectName_keeps.bind fun name => ?_
  refine (accept_keeps (by decide)).bind fun _ => .ite ?_ (hrest start id name none)
  exact type_keeps.map.bind fun declared => hrest start id name declared

theorem exprStatement_keeps (hn : nested.Keeps) : Parse.Keeps here 0 0 nested.exprStatement := by
  have hrest : ∀ start e, Parse.Keeps anywhere 0 0
      (do
        let semi ← accept .semi
        if !semi && !Expr.endsInBlock e && !(← isAt .rbrace) then failAt (.unexpected .statementEnd)
        else return Stmt.expr (Span.join start (← lastSpan)) e semi) := fun _ _ =>
    (accept_keeps (by decide)).bind fun _ => .read fun _ => .ite (failAt_keeps _) (.read fun _ => .pure)
  refine .read fun start => .dispatch fun t _ => .ite ?_ ?_
  · exact (blockLike_keeps hn).bind fun e => hrest start e
  · exact (hn.operand _ _).anywhere.bind fun e => hrest start e

theorem statement_keeps (hn : nested.Keeps) : Parse.Keeps here 0 0 nested.statement := by
  refine .dispatch fun t _ => ?_
  split
  case isTrue ht => exact (binding_keeps hn).here_mono fun _ h => h ▸ ht
  case isFalse => exact exprStatement_keeps hn

theorem entries_keeps (hn : nested.Keeps) (bound : Nat) : Parse.Keeps here 0 0 (nested.entries bound) := by
  induction bound generalizing here with
  | zero => exact .throw
  | succ bound ih =>
    unfold entries
    refine .dispatch fun t _ => ?_
    split
    · exact .pure
    · exact .pure
    · exact (known_keeps (by decide)).bind fun _ => ih
    · rename_i hclose _ _
      intro s hs
      have hs : NoClose s.terminal := hs ▸ hclose
      show Ends (attempt nested.item? >>= _) s _ _
      rw [Ends.bind_iff]
      refine (((item?_keeps hn).attempt) s rfl).mono (fun found t _ ht => ?_) fun _ _ _ h => h
      rcases found with _ | _ | i
      · exact resume_climbs hs ht ih
      · exact retry_climbs hs ht (statement_keeps hn) (fun st => ih.bind fun _ => .pure) rfl ih
      · have hcons : Parse.Keeps anywhere 0 0 (do return .item i :: (← nested.entries bound)) :=
          ih.bind fun _ => .pure
        exact hcons.after ht

theorem braced_keeps (hn : nested.Keeps) : Parse.Keeps here 0 0 nested.braced :=
  .read fun _ => .fresh fun _ => (expect_keeps open_keeps).bind fun _ => .read fun _ =>
    ((entries_keeps hn _).lift 1).bind fun _ => .read fun _ => (expect_keeps close_keeps).bind fun _ =>
      .read fun _ => .pure

end Nested

theorem level_keeps (bound : Nat) : (level bound).Keeps := by
  induction bound with
  | zero => exact ⟨.throw, .throw, fun _ _ => .throw⟩
  | succ bound ih =>
    exact {
      block := Nested.braced_keeps ih
      cond := Nested.conditions_keeps ih
      operand := Nested.binary_keeps ih }

end Ferrite.Parse
