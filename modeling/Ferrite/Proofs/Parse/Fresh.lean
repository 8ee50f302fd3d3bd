import Ferrite.Parse.Recovery
import Ferrite.Proofs.Run
import Ferrite.Proofs.Tree.Number

/-!
Parsers that take the numbers of nodes from a counter. `Mints` follows a parser that comes behind
others: what was numbered before and what it numbers itself are different nodes. As long as nothing is
reported, what it gives is sound and no number is lost; giving up at a mistake reports one.
-/

namespace Ferrite.Parse

/-- The numbers were taken on the way from one state to another, each of them once. -/
structure Fresh (taken : List NodeId) (sound : Prop) (s s' : State) : Prop where
  next : s.nextId ≤ s'.nextId
  nodup : taken.Nodup
  range : ∀ i ∈ taken, s.nextId ≤ i ∧ i < s'.nextId
  problems : s.problems <:+ s'.problems
  sound : s'.problems = s.problems → sound
  dense : s'.problems = s.problems → s'.nextId = s.nextId + taken.length

/-- Between two equal ends nothing was reported. -/
theorem problems_between {s s' s'' : State} (h : s.problems <:+ s'.problems)
    (h' : s'.problems <:+ s''.problems) (heq : s''.problems = s.problems) : s'.problems = s.problems :=
  (heq ▸ h').eq_of_length_le h.length_le

/-- A parser gave up on the way from one state to another, with a report if that was for a mistake. -/
structure GivesUp (e : Abort) (s s' : State) : Prop where
  next : s.nextId ≤ s'.nextId
  problems : s.problems <:+ s'.problems
  reported : e = .reported → s'.problems ≠ s.problems

namespace Fresh

variable {taken more : List NodeId} {p q : Prop} {s s' s'' : State}

theorem refl (s : State) : Fresh [] True s s where
  next := Nat.le_refl _
  nodup := List.nodup_nil
  range := by
    intro i hi
    cases hi
  problems := List.suffix_refl _
  sound _ := trivial
  dense _ := rfl

/-- A step that leaves the counter and the problems alone. -/
theorem of_eq (hn : s'.nextId = s.nextId) (hp : s'.problems = s.problems) : Fresh [] True s s' where
  next := Nat.le_of_eq hn.symm
  nodup := List.nodup_nil
  range := by
    intro i hi
    cases hi
  problems := hp ▸ List.suffix_refl _
  sound _ := trivial
  dense _ := hn

theorem trans (h : Fresh taken p s s') (h' : Fresh more q s' s'') :
    Fresh (taken ++ more) (p ∧ q) s s'' where
  next := Nat.le_trans h.next h'.next
  nodup := by
    refine List.nodup_append.mpr ⟨h.nodup, h'.nodup, ?_⟩
    intro i hi j hj hij
    have hlt := (h.range i hi).2
    have hge := (h'.range j hj).1
    exact Nat.not_lt.mpr hge (hij ▸ hlt)
  range := by
    intro i hi
    rcases List.mem_append.mp hi with hi | hi
    · have hr := h.range i hi
      exact ⟨hr.1, Nat.lt_of_lt_of_le hr.2 h'.next⟩
    · have hr := h'.range i hi
      exact ⟨Nat.le_trans h.next hr.1, hr.2⟩
  problems := h.problems.trans h'.problems
  sound heq := by
    have hmid := problems_between h.problems h'.problems heq
    exact ⟨h.sound hmid, h'.sound (heq.trans hmid.symm)⟩
  dense heq := by
    have hmid := problems_between h.problems h'.problems heq
    rw [h'.dense (heq.trans hmid.symm), h.dense hmid, List.length_append, Nat.add_assoc]

theorem perm (h : Fresh taken p s s') (hp : taken.Perm more) (hq : p → q) : Fresh more q s s' where
  next := h.next
  nodup := hp.nodup_iff.mp h.nodup
  range i hi := h.range i (hp.mem_iff.mpr hi)
  problems := h.problems
  sound heq := hq (h.sound heq)
  dense heq := by rw [h.dense heq, hp.length_eq]

/-- Behind a report, nothing is said of what was taken. -/
theorem of_report (hn : s.nextId ≤ s'.nextId) (hp : s.problems <:+ s'.problems)
    (hne : s'.problems ≠ s.problems) : Fresh [] p s s' where
  next := hn
  nodup := List.nodup_nil
  range := by
    intro i hi
    cases hi
  problems := hp
  sound heq := absurd heq hne
  dense heq := absurd heq hne

/-- Where something was reported, what was taken may be lost. -/
theorem lose (h : Fresh taken p s s') (hp : ¬p) : Fresh [] True s s' :=
  of_report h.next h.problems fun heq => hp (h.sound heq)

theorem givesUp (h : Fresh taken p s s') {e : Abort} (h' : GivesUp e s' s'') : GivesUp e s s'' where
  next := Nat.le_trans h.next h'.next
  problems := h.problems.trans h'.problems
  reported he heq :=
    have hmid := problems_between h.problems h'.problems heq
    h'.reported he (heq.trans hmid.symm)

end Fresh

/-- Behind `before`, the parser gives something that carries the numbers `taken` and, as long as
nothing is reported, is `good`. -/
def Mints {α : Type} (before : List NodeId) (sound : Prop) (m : Parser α)
    (taken : α → List NodeId) (good : α → Prop) : Prop :=
  ∀ s₀ s, Fresh before sound s₀ s →
    Ends m s (fun a s' => Fresh (taken a) (good a) s₀ s') (fun e s' => GivesUp e s₀ s')

/-- The parser takes no numbers, and says nothing of what it gives. -/
abbrev Plain {α : Type} (m : Parser α) : Prop := Mints [] True m (fun _ => []) (fun _ => True)

namespace Mints

variable {α β : Type} {before : List NodeId} {sound : Prop}

theorem bind {m : Parser α} {f : α → Parser β} {taken : α → List NodeId} {good : α → Prop}
    {taken' : β → List NodeId} {good' : β → Prop} (hm : Mints [] True m taken good)
    (hf : ∀ a, Mints (before ++ taken a) (sound ∧ good a) (f a) taken' good') :
    Mints before sound (m >>= f) taken' good' := by
  intro s₀ s h
  rw [Ends.bind_iff]
  refine (hm s s (Fresh.refl s)).mono ?_ ?_
  · intro a s' _ ha
    exact hf a s₀ s' (h.trans ha)
  · intro e s' _ he
    exact h.givesUp he

/-- A step that takes nothing, before what does. -/
theorem plain_bind {m : Parser α} {f : α → Parser β} {taken' : β → List NodeId}
    {good' : β → Prop} (hm : Plain m) (hf : ∀ a, Mints before sound (f a) taken' good') :
    Mints before sound (m >>= f) taken' good' := by
  refine bind hm ?_
  intro a s₀ s h
  exact hf a s₀ s (h.perm (by simp) And.left)

theorem pure {a : α} {taken : α → List NodeId} {good : α → Prop}
    (hp : before.Perm (taken a)) (hg : sound → good a) :
    Mints before sound (pure a : Parser α) taken good := by
  intro s₀ s h
  exact h.perm hp hg

/-- Giving up for another reason than a mistake that was reported. -/
theorem throw {e : Abort} {taken : α → List NodeId} {good : α → Prop} (he : e ≠ .reported) :
    Mints before sound (throw e : Parser α) taken good := by
  intro s₀ s h
  exact ⟨h.next, h.problems, fun hr => absurd hr he⟩

theorem throw_bind {e : Abort} {f : α → Parser β} {taken : β → List NodeId} {good : β → Prop} (he : e ≠ .reported) :
    Mints before sound ((MonadExcept.throw e : Parser α) >>= f) taken good := by
  intro s₀ s h
  exact ⟨h.next, h.problems, fun hr => absurd hr he⟩

/-- Behind a report, giving up for any reason. -/
theorem abort {e : Abort} {taken : α → List NodeId} {good : α → Prop} (hsound : ¬sound) :
    Mints before sound (MonadExcept.throw e : Parser α) taken good := by
  intro s₀ s h
  exact ⟨h.next, h.problems, fun _ heq => hsound (h.sound heq)⟩

theorem weaken {m : Parser α} {taken taken' : α → List NodeId} {good good' : α → Prop}
    (h : Mints before sound m taken good) (hp : ∀ a, (taken a).Perm (taken' a))
    (hg : ∀ a, good a → good' a) : Mints before sound m taken' good' := by
  intro s₀ s hs
  refine (h s₀ s hs).mono ?_ ?_
  · intro a s' _ ha
    exact ha.perm (hp a) (hg a)
  · intro e s' _ he
    exact he

/-- Behind a report, what was taken before may be lost. -/
theorem forget {m : Parser α} {taken : α → List NodeId} {good : α → Prop}
    (h : Mints [] True m taken good) (hsound : ¬sound) : Mints before sound m taken good := by
  intro s₀ s hs
  exact h s₀ s (hs.lose hsound)

theorem map {m : Parser α} {f : α → β} {taken : β → List NodeId} {good : β → Prop}
    (h : Mints before sound m (fun a => taken (f a)) (fun a => good (f a))) :
    Mints before sound (f <$> m) taken good := by
  intro s₀ s hs
  rw [Ends.map_iff]
  exact h s₀ s hs

theorem pure_bind {a : α} {f : α → Parser β} {taken : β → List NodeId} {good : β → Prop}
    (h : Mints before sound (f a) taken good) :
    Mints before sound ((Pure.pure a : Parser α) >>= f) taken good := by
  intro s₀ s hs
  exact h s₀ s hs

theorem map_bind {γ : Type} {m : Parser α} {f : α → γ} {g : γ → Parser β}
    {taken : α → List NodeId} {good : α → Prop} {taken' : β → List NodeId} {good' : β → Prop}
    (hm : Mints [] True m taken good)
    (hg : ∀ a, Mints (before ++ taken a) (sound ∧ good a) (g (f a)) taken' good') :
    Mints before sound ((f <$> m) >>= g) taken' good' := by
  intro s₀ s hs
  rw [Ends.bind_iff, Ends.map_iff, ← Ends.bind_iff (f := fun a => g (f a))]
  exact bind hm hg s₀ s hs

theorem ite {c : Prop} [Decidable c] {m n : Parser α} {taken : α → List NodeId} {good : α → Prop}
    (hm : Mints before sound m taken good) (hn : Mints before sound n taken good) :
    Mints before sound (if c then m else n) taken good := by
  by_cases hc : c
  · rw [if_pos hc]
    exact hm
  · rw [if_neg hc]
    exact hn

end Mints

/-! Steps on tokens take no numbers. -/

section Steps

theorem plain_of_eq {α : Type} {m : Parser α}
    (h : ∀ s, Ends m s (fun _ s' => s'.nextId = s.nextId ∧ s'.problems = s.problems) fun _ _ => False) :
    Plain m := by
  intro s₀ s hs
  refine (h s).mono ?_ fun _ _ _ => False.elim
  intro a s' _ ha
  exact (hs.trans (.of_eq ha.1 ha.2)).perm (by simp) (fun _ => trivial)

theorem plain_terminal : Plain terminal := plain_of_eq fun _ => ⟨rfl, rfl⟩

theorem plain_span : Plain span := plain_of_eq fun _ => ⟨rfl, rfl⟩

theorem plain_lastSpan : Plain lastSpan := plain_of_eq fun _ => ⟨rfl, rfl⟩

theorem plain_remaining : Plain remaining := plain_of_eq fun _ => ⟨rfl, rfl⟩

theorem plain_isAt (p : Punct) : Plain (isAt p) := plain_of_eq fun _ => ⟨rfl, rfl⟩

theorem plain_isAtEnd : Plain isAtEnd := plain_of_eq fun _ => ⟨rfl, rfl⟩

theorem plain_get : Plain (get : Parser State) := plain_of_eq fun _ => ⟨rfl, rfl⟩

theorem State.advance_nextId (s : State) : s.advance.nextId = s.nextId := by
  unfold State.advance
  cases s.rest with
  | nil => rfl
  | cons t ts =>
    simp only
    split <;> rfl

theorem State.advance_problems (s : State) : s.advance.problems = s.problems := by
  unfold State.advance
  cases s.rest with
  | nil => rfl
  | cons t ts =>
    simp only
    split <;> rfl

theorem plain_advance : Plain advance :=
  plain_of_eq fun s => ⟨s.advance_nextId, s.advance_problems⟩

theorem plain_pure {α : Type} (a : α) : Plain (pure a : Parser α) :=
  Mints.pure .nil fun _ => trivial

theorem plain_accept (p : Punct) : Plain (accept p) := by
  unfold accept
  refine .plain_bind (plain_isAt p) ?_
  intro here
  exact .ite (.plain_bind plain_advance fun _ => plain_pure true) (plain_pure false)

theorem plain_acceptKeyword (k : Keyword) : Plain (acceptKeyword k) := by
  unfold acceptKeyword
  refine .plain_bind plain_terminal ?_
  intro t
  exact .ite (.plain_bind plain_advance fun _ => plain_pure true) (plain_pure false)

/-- Behind a report nothing has to be sound. -/
theorem report_mints (problem : Problem) (place : Span) :
    Mints [] True (report problem place) (fun _ => []) (fun _ => False) := by
  intro s₀ s h
  refine .of_report h.next (h.problems.trans (List.suffix_cons _ _)) ?_
  intro heq
  have hle := h.problems.length_le
  have hlen := congrArg List.length heq
  rw [List.length_cons] at hlen
  omega

theorem unexpected_mints (wanted : Wanted) :
    Mints [] True (unexpected wanted) (fun _ => []) (fun _ => False) := by
  unfold unexpected
  refine .plain_bind plain_terminal ?_
  intro t
  refine .plain_bind plain_span ?_
  intro place
  exact report_mints _ _

theorem failAt_mints {α : Type} {before : List NodeId} {sound : Prop}
    (problem : Terminal → Problem) (taken : α → List NodeId) (good : α → Prop) :
    Mints before sound (failAt problem) taken good := by
  unfold failAt
  refine .plain_bind plain_terminal ?_
  intro t
  refine .plain_bind plain_span ?_
  intro place
  refine .bind (report_mints _ _) ?_
  intro _
  exact .abort And.right

theorem plain_expect (p : Punct) : Plain (expect p) := by
  unfold expect
  refine .plain_bind (plain_accept p) ?_
  intro found
  exact .ite (plain_pure ()) (failAt_mints _ _ _)

theorem plain_expectName : Plain expectName := by
  unfold expectName
  refine .plain_bind plain_terminal ?_
  intro t
  split
  · refine .plain_bind plain_span ?_
    intro place
    exact .plain_bind plain_advance fun _ => plain_pure _
  · exact failAt_mints _ _ _

theorem freshId_mints : Mints [] True freshId (fun i => [i]) (fun _ => True) := by
  intro s₀ s h
  refine {
    next := Nat.le_succ_of_le h.next
    nodup := List.pairwise_singleton _ _
    range := ?_
    problems := h.problems
    sound := fun _ => trivial
    dense := fun heq => congrArg Nat.succ (h.dense heq) }
  intro i hi
  rw [List.mem_singleton] at hi
  subst hi
  exact ⟨h.next, Nat.lt_succ_self _⟩

theorem attempt_mints {α : Type} {m : Parser α} {taken : α → List NodeId} {good : α → Prop}
    (hm : Mints [] True m taken good) :
    Mints [] True (attempt m) (fun o => o.elim [] taken) (fun o => o.elim False good) := by
  intro s₀ s h
  have hs := hm s₀ s h
  unfold Ends attempt
  unfold Ends at hs
  cases hr : m s with
  | ok a s' =>
    rw [hr] at hs
    exact hs
  | error e s' =>
    rw [hr] at hs
    cases e with
    | reported => exact .of_report hs.next hs.problems (hs.reported rfl)
    | unsupported c place => exact hs
    | exhausted => exact hs

theorem plain_ensureProgress (before : Nat) : Plain (ensureProgress before) := by
  unfold ensureProgress
  refine .plain_bind plain_remaining ?_
  intro n
  exact .ite plain_advance (plain_pure ())

theorem plain_recoverStatement (before : Nat) : Plain (recoverStatement before) := by
  unfold recoverStatement
  exact .plain_bind (plain_of_eq fun _ => ⟨rfl, rfl⟩) fun _ => plain_ensureProgress before

theorem plain_recoverItem (before : Nat) : Plain (recoverItem before) := by
  unfold recoverItem
  exact .plain_bind (plain_of_eq fun _ => ⟨rfl, rfl⟩) fun _ => plain_ensureProgress before

/-- The numbers of a list of elements. -/
theorem commaList_mints {α : Type} {element : Parser α} {taken : α → List NodeId} {good : α → Prop}
    (he : Mints [] True element taken good) (bound : Nat) (comma : Bool) :
    Mints [] True (commaList element bound comma) (fun r => r.1.flatMap taken)
      (fun r => ∀ x ∈ r.1, good x) := by
  induction bound generalizing comma with
  | zero => exact .throw Abort.noConfusion
  | succ bound ih =>
    unfold commaList
    refine .plain_bind (plain_isAt _) ?_
    intro closed
    refine .plain_bind plain_isAtEnd ?_
    intro ended
    refine .ite (.pure (.refl _) ?_) (.bind he ?_)
    · intro _ x hx
      cases hx
    · intro x
      refine .plain_bind (plain_accept _) ?_
      intro more
      refine .ite (.bind (ih true) ?_) (.pure ?_ ?_)
      · rintro ⟨xs, last⟩
        refine .pure ?_ ?_
        · simp
        · rintro ⟨⟨-, hx⟩, hxs⟩ y hy
          rcases List.mem_cons.mp hy with rfl | hy
          · exact hx
          · exact hxs y hy
      · simp
      · rintro ⟨-, hx⟩ y hy
        rw [List.mem_singleton] at hy
        subst hy
        exact hx

theorem parenthesized_mints {α : Type} {element : Parser α} {taken : α → List NodeId}
    {good : α → Prop} (he : Mints [] True element taken good) :
    Mints [] True (parenthesized element) (fun r => r.1.flatMap taken)
      (fun r => ∀ x ∈ r.1, good x) := by
  unfold parenthesized
  refine .plain_bind (plain_expect _) ?_
  intro _
  refine .plain_bind plain_remaining ?_
  intro n
  refine .bind (commaList_mints he _ _) ?_
  intro r
  refine .plain_bind (plain_expect _) ?_
  intro _
  exact .pure (by simp) And.right

end Steps
end Ferrite.Parse
