import Ferrite.Proofs.Parse.Silent

/-!
Parsers that take the tokens in front of them: `Takes` says that a parser passes exactly these
tokens, whatever state it is in, and what it gives.
-/

namespace Ferrite.Parse

/-- What the first of the tokens says; behind all tokens the input ends. -/
def first (ts : List Token) : Terminal := (ts.head?.map Token.terminal).getD .endOfInput

@[simp] theorem first_cons (t : Token) (ts : List Token) : first (t :: ts) = t.terminal := rfl

theorem terminal_eq_first {s : State} {ts : List Token} (h : s.rest = ts) : s.terminal = first ts :=
  congrArg first h

theorem terminal_bind {α : Type} (f : Terminal → Parser α) (s : State) :
    (terminal >>= f) s = f s.terminal s := rfl

/-- In front of `rest`, the parser passes the tokens and gives something `good`. -/
def Takes {α : Type} (p : Parser α) (ts rest : List Token) (good : α → Prop) : Prop :=
  ∀ s, s.rest = ts ++ rest →
    ∃ a s', p s = .ok a s' ∧ Passes ts s s' ∧ s'.problems = s.problems ∧ good a

namespace Takes

variable {α β : Type} {p : Parser α} {f : α → Parser β} {ts us rest : List Token} {t : Token}
  {good good' : α → Prop} {all : β → Prop}

theorem mono (h : Takes p ts rest good) (hgood : ∀ a, good a → good' a) : Takes p ts rest good' := by
  intro s hs
  obtain ⟨a, s', hrun, hpass, hproblems, ha⟩ := h s hs
  exact ⟨a, s', hrun, hpass, hproblems, hgood a ha⟩

theorem pure {a : α} (h : good a) : Takes (pure a : Parser α) [] rest good :=
  fun s _ => ⟨a, s, rfl, .refl s, rfl, h⟩

theorem bind (hp : Takes p ts (us ++ rest) good) (hf : ∀ a, good a → Takes (f a) us rest all) :
    Takes (p >>= f) (ts ++ us) rest all := by
  intro s hs
  rw [List.append_assoc] at hs
  obtain ⟨a, s₁, hrun, hpass, hproblems, ha⟩ := hp s hs
  have hs₁ : s₁.rest = us ++ rest := List.append_cancel_left (hpass.rest.symm.trans hs)
  obtain ⟨b, s', hrun', hpass', hproblems', hb⟩ := hf a ha s₁ hs₁
  refine ⟨b, s', ?_, hpass.trans hpass', hproblems'.trans hproblems, hb⟩
  simp only [Bind.bind, EStateM.bind, hrun, hrun']

/-- A step that gives what is known. -/
theorem known {a : α} (hf : Takes (f a) us rest all) : Takes (Pure.pure a >>= f) us rest all := by
  rwa [pure_bind]

/-- A step that passes nothing. -/
theorem silent (hp : Takes p [] (us ++ rest) good) (hf : ∀ a, good a → Takes (f a) us rest all) :
    Takes (p >>= f) us rest all := hp.bind hf

/-- A step that passes one token. -/
theorem token (hp : Takes p [t] (us ++ rest) good) (hf : ∀ a, good a → Takes (f a) us rest all) :
    Takes (p >>= f) (t :: us) rest all := hp.bind hf

/-- The last step that passes something. -/
theorem last (hp : Takes p ts rest good) (hf : ∀ a, good a → Takes (f a) [] rest all) :
    Takes (p >>= f) ts rest all := by
  have hbind : Takes (p >>= f) (ts ++ []) rest all := bind (by simpa using hp) hf
  rwa [List.append_nil] at hbind

theorem map {g : α → β} (hp : Takes p ts rest good) (hg : ∀ a, good a → all (g a)) :
    Takes (g <$> p) ts rest all := by
  rw [map_eq_pure_bind]
  exact hp.last fun a ha => .pure (hg a ha)

/-! ### The current token -/

theorem read {g : State → α} : Takes (do return g (← get)) [] rest fun _ => True :=
  fun _ _ => ⟨_, _, rfl, .refl _, rfl, trivial⟩

theorem span : Takes span [] rest fun _ => True := read

theorem lastSpan : Takes lastSpan [] rest fun _ => True := read

theorem freshId : Takes freshId [] rest fun _ => True :=
  fun _ _ => ⟨_, _, rfl, .of_eq rfl rfl, rfl, trivial⟩

/-- How many tokens are left, those among them that are passed later. -/
theorem remaining {f : Nat → Parser β} (hf : ∀ n, us.length ≤ n → Takes (f n) us rest all) :
    Takes (remaining >>= f) us rest all := by
  intro s hs
  have hlength : us.length ≤ s.rest.length := by
    rw [hs, List.length_append]
    exact Nat.le_add_right _ _
  exact hf s.rest.length hlength s hs

theorem dispatch {f : Terminal → Parser β} (hf : Takes (f (first (us ++ rest))) us rest all) :
    Takes (terminal >>= f) us rest all := by
  intro s hs
  rw [terminal_bind, terminal_eq_first hs]
  exact hf s hs

theorem isAt (p : Punct) :
    Takes (isAt p) [] rest fun b => b = decide (first rest = .punct p) :=
  fun s hs => ⟨_, s, rfl, .refl s, rfl, by rw [terminal_eq_first hs]; rfl⟩

theorem isAtEnd : Takes isAtEnd [] rest fun b => b = decide (first rest = .endOfInput) :=
  fun s hs => ⟨_, s, rfl, .refl s, rfl, by rw [terminal_eq_first hs]; rfl⟩

theorem advance (ht : t.terminal ≠ .endOfInput) : Takes advance [t] rest fun _ => True := by
  intro s hs
  have hend : t.isEnd = false := by simpa [Token.isEnd] using ht
  have hadvance : s.advance = { s with rest := rest, last := some t } := by
    simp [State.advance, hs, hend]
  refine ⟨(), s.advance, rfl, ?_, ?_, trivial⟩
  · rw [hadvance]
    exact ⟨hs, rfl⟩
  · rw [hadvance]

theorem accept {p : Punct} (ht : t.terminal = .punct p) : Takes (accept p) [t] rest fun b => b = true := by
  refine silent (isAt p) fun b hb => ?_
  have hyes : b = true := by simpa [ht] using hb
  rw [if_pos hyes]
  exact (advance (ht ▸ Terminal.noConfusion)).last fun _ _ => .pure rfl

theorem accept_not {p : Punct} (h : first rest ≠ .punct p) : Takes (Parse.accept p) [] rest fun b => b = false := by
  refine silent (isAt p) fun b hb => ?_
  have hno : ¬b = true := by simpa [h] using hb
  rw [if_neg hno]
  exact .pure rfl

theorem acceptKeyword {k : Keyword} (ht : t.terminal = .keyword k) :
    Takes (acceptKeyword k) [t] rest fun b => b = true := by
  refine dispatch ?_
  rw [if_pos (by exact ht)]
  exact (advance (ht ▸ Terminal.noConfusion)).last fun _ _ => .pure rfl

theorem acceptKeyword_not {k : Keyword} (h : first rest ≠ .keyword k) :
    Takes (Parse.acceptKeyword k) [] rest fun b => b = false := by
  refine dispatch ?_
  rw [if_neg (by exact h)]
  exact .pure rfl

theorem expect {p : Punct} (ht : t.terminal = .punct p) : Takes (expect p) [t] rest fun _ => True :=
  (accept ht).last fun b hb => by
    rw [if_pos hb]
    exact .pure trivial

theorem expectName {text : String} (ht : t.terminal = .name text) :
    Takes expectName [t] rest fun name => name.text = text := by
  refine dispatch ?_
  rw [show first ([t] ++ rest) = .name text from ht]
  exact silent span fun _ _ => (advance (ht ▸ Terminal.noConfusion)).last fun _ _ => .pure rfl

theorem attempt (hp : Takes p ts rest good) :
    Takes (attempt p) ts rest fun found => ∃ a, found = some a ∧ good a := by
  intro s hs
  obtain ⟨a, s', hrun, hpass, hproblems, ha⟩ := hp s hs
  exact ⟨some a, s', by rw [Parse.attempt, hrun], hpass, hproblems, a, rfl, ha⟩

end Takes

/-! ## Lists in parentheses -/

theorem first_append {ts us : List Token} (h : first ts ≠ .endOfInput) : first (ts ++ us) = first ts := by
  cases ts with
  | nil => exact absurd rfl h
  | cons t ts => rfl

theorem length_pos_of_first {ts : List Token} (h : first ts ≠ .endOfInput) : 0 < ts.length :=
  List.length_pos_of_ne_nil fun hnil => h (by rw [hnil]; rfl)

/-- An element comes next. -/
theorem Takes.element {α : Type} {f : Parser α} {a : α} {ts rest : List Token} {good : α → Prop}
    (hparen : first (ts ++ rest) ≠ .punct .rparen) (hend : first (ts ++ rest) ≠ .endOfInput)
    (hf : Takes f ts rest good) :
    Takes (do if (← Parse.isAt .rparen) || (← Parse.isAtEnd) then return a else f) ts rest good := by
  refine .silent (.isAt _) fun x hx => .silent .isAtEnd fun y hy => ?_
  have hno : (x || y) = false := by simp [hx, hy, hparen, hend]
  rw [if_neg (by simp [hno])]
  exact hf

/-- A list is taken element by element, in front of a closing parenthesis. -/
theorem commaList_takes {α : Type} {element : Parser α} {spelled : α → List Token → Prop}
    (same : α → α → Prop)
    (hstart : ∀ x us, spelled x us → first us ≠ .punct .rparen ∧ first us ≠ .endOfInput)
    {comma : Bool} {list : List α × Bool} {ts : List Token} (h : Commas spelled comma list ts)
    (helement : ∀ x us rest, spelled x us → us.length ≤ ts.length →
      (first rest = .punct .comma ∨ first rest = .punct .rparen) → Takes element us rest (same x))
    {bound : Nat} (hbound : ts.length < bound) {rest : List Token} (hrest : first rest = .punct .rparen) :
    Takes (commaList element bound comma) ts rest fun found =>
      List.Forall₂ same list.1 found.1 ∧ found.2 = list.2 := by
  induction h generalizing bound with
  | nil =>
    obtain ⟨bound, rfl⟩ := Nat.exists_eq_succ_of_ne_zero (Nat.ne_zero_of_lt hbound)
    refine .silent (.isAt _) fun a ha => .silent .isAtEnd fun b hb => ?_
    have hyes : a = true := by simpa [hrest] using ha
    rw [if_pos (by simp [hyes])]
    exact .pure ⟨.nil, rfl⟩
  | @last comma x ts h =>
    obtain ⟨bound, rfl⟩ := Nat.exists_eq_succ_of_ne_zero (Nat.ne_zero_of_lt hbound)
    obtain ⟨hparen, hend⟩ := hstart x ts h
    refine .element (by rwa [first_append hend]) (by rwa [first_append hend]) ?_
    refine (helement x ts rest h (Nat.le_refl _) (.inr hrest)).last fun y hy => ?_
    refine .silent (.accept_not (by simp [hrest])) fun b hb => ?_
    rw [if_neg (by simp [hb])]
    exact .pure ⟨.cons hy .nil, rfl⟩
  | @cons comma last x xs c ts us h hc hs ih =>
    obtain ⟨bound, rfl⟩ := Nat.exists_eq_succ_of_ne_zero (Nat.ne_zero_of_lt hbound)
    obtain ⟨hparen, hend⟩ := hstart x ts h
    have hlength : (ts ++ c :: us).length = ts.length + us.length + 1 := by
      rw [List.length_append, List.length_cons, Nat.add_assoc]
    rw [hlength] at hbound helement
    refine .element ?_ ?_ ?_
    · rwa [List.append_assoc, first_append hend]
    · rwa [List.append_assoc, first_append hend]
    refine (helement x ts _ h (by omega) (.inl (by exact hc))).bind fun y hy => ?_
    refine .token (.accept hc) fun b hb => ?_
    rw [if_pos hb]
    refine (ih (fun x vs rest hx hvs => helement x vs rest hx (by omega)) (by omega)).last ?_
    rintro ⟨ys, last'⟩ ⟨hys, hlast⟩
    exact .pure ⟨.cons hy hys, hlast⟩

theorem parenthesized_takes {α : Type} {element : Parser α} {spelled : α → List Token → Prop}
    (same : α → α → Prop)
    (hstart : ∀ x us, spelled x us → first us ≠ .punct .rparen ∧ first us ≠ .endOfInput)
    {list : List α × Bool} {l r : Token} {ts : List Token} (hl : l.terminal = .punct .lparen)
    (h : Commas spelled false list ts) (hr : r.terminal = .punct .rparen)
    (helement : ∀ x us rest, spelled x us → us.length ≤ ts.length →
      (first rest = .punct .comma ∨ first rest = .punct .rparen) → Takes element us rest (same x))
    {rest : List Token} :
    Takes (parenthesized element) (l :: (ts ++ [r])) rest fun found =>
      List.Forall₂ same list.1 found.1 ∧ found.2 = list.2 := by
  refine .token (.expect hl) fun _ _ => .remaining fun n hn => ?_
  rw [List.length_append] at hn
  refine (commaList_takes same hstart h helement (by omega) (by exact hr)).bind fun found hfound => ?_
  exact (Takes.expect hr).last fun _ _ => .pure hfound

end Ferrite.Parse
