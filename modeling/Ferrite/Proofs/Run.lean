import Mathlib.Data.List.Forall2

/-!
How a run ends. Parsers and lowering both thread a state and may give up; `Ends` says what holds
of the result and of the state in either case, and follows the steps of a run forwards.
-/

namespace Ferrite

variable {ε σ α β : Type}

/-- A run from a state ends well with `good`, or gives up with `bad`. -/
def Ends (m : EStateM ε σ α) (s : σ) (good : α → σ → Prop) (bad : ε → σ → Prop) : Prop :=
  match m s with
  | .ok a s' => good a s'
  | .error e s' => bad e s'

namespace Ends

variable {m : EStateM ε σ α} {s : σ} {good good' : α → σ → Prop} {bad bad' : ε → σ → Prop}

theorem mono (h : Ends m s good bad) (hg : ∀ a s', m s = .ok a s' → good a s' → good' a s')
    (hb : ∀ e s', m s = .error e s' → bad e s' → bad' e s') : Ends m s good' bad' := by
  unfold Ends at h ⊢
  cases hm : m s with
  | ok a s' =>
    rw [hm] at h
    exact hg a s' hm h
  | error e s' =>
    rw [hm] at h
    exact hb e s' hm h

theorem ok (h : Ends m s good bad) {a : α} {s' : σ} (hm : m s = .ok a s') : good a s' := by
  unfold Ends at h
  rw [hm] at h
  exact h

theorem error (h : Ends m s good bad) {e : ε} {s' : σ} (hm : m s = .error e s') : bad e s' := by
  unfold Ends at h
  rw [hm] at h
  exact h

@[simp] theorem pure_iff {a : α} : Ends (pure a : EStateM ε σ α) s good bad ↔ good a s := Iff.rfl

@[simp] theorem throw_iff {e : ε} : Ends (throw e : EStateM ε σ α) s good bad ↔ bad e s := Iff.rfl

@[simp] theorem get_iff {good : σ → σ → Prop} :
    Ends (get : EStateM ε σ σ) s good bad ↔ good s s := Iff.rfl

@[simp] theorem modify_iff {f : σ → σ} {good : Unit → σ → Prop} :
    Ends (modify f : EStateM ε σ Unit) s good bad ↔ good () (f s) := Iff.rfl

@[simp] theorem bind_iff {f : α → EStateM ε σ β} {good : β → σ → Prop} :
    Ends (m >>= f) s good bad ↔ Ends m s (fun a s' => Ends (f a) s' good bad) bad := by
  unfold Ends
  simp only [bind, EStateM.bind]
  cases m s <;> rfl

@[simp] theorem map_iff {f : α → β} {good : β → σ → Prop} :
    Ends (f <$> m) s good bad ↔ Ends m s (fun a s' => good (f a) s') bad := by
  unfold Ends
  simp only [Functor.map, EStateM.map]
  cases m s <;> rfl

end Ends

/-- A run of two steps that ends well. -/
theorem run_bind_ok {m : EStateM ε σ α} {f : α → EStateM ε σ β} {s s' : σ} {b : β}
    (h : (m >>= f) s = .ok b s') : ∃ a s₁, m s = .ok a s₁ ∧ f a s₁ = .ok b s' := by
  simp only [bind, EStateM.bind] at h
  split at h
  · rename_i a s₁ hm
    exact ⟨a, s₁, hm, h⟩
  · cases h

theorem bind_eq_ok {x : Except ε α} {f : α → Except ε β} {b : β} :
    x >>= f = .ok b ↔ ∃ a, x = .ok a ∧ f a = .ok b := by
  cases x <;> simp [bind, Except.bind]

theorem bind_eq_error {x : Except ε α} {f : α → Except ε β} {e : ε} :
    x >>= f = .error e ↔ x = .error e ∨ ∃ a, x = .ok a ∧ f a = .error e := by
  cases x <;> simp [bind, Except.bind]

theorem mapM_eq_ok {f : α → Except ε β} {xs : List α} {ys : List β} :
    xs.mapM f = .ok ys ↔ List.Forall₂ (fun x y => f x = .ok y) xs ys := by
  induction xs generalizing ys with
  | nil =>
    rw [List.mapM_nil, List.forall₂_nil_left_iff]
    constructor
    · rintro ⟨⟩
      rfl
    · rintro rfl
      rfl
  | cons x xs ih =>
    rw [List.mapM_cons, bind_eq_ok, List.forall₂_cons_left_iff]
    constructor
    · rintro ⟨y, hy, hys⟩
      obtain ⟨ys', hys', hcons⟩ := bind_eq_ok.mp hys
      cases hcons
      exact ⟨y, ys', hy, ih.mp hys', rfl⟩
    · rintro ⟨y, ys', hy, hys', rfl⟩
      exact ⟨y, hy, bind_eq_ok.mpr ⟨ys', ih.mpr hys', rfl⟩⟩

theorem mapM_eq_error {f : α → Except ε β} {xs : List α} {e : ε} (h : xs.mapM f = .error e) :
    ∃ x ∈ xs, f x = .error e := by
  induction xs with
  | nil => cases h
  | cons x xs ih =>
    rw [List.mapM_cons, bind_eq_error] at h
    rcases h with h | ⟨y, -, h⟩
    · exact ⟨x, List.mem_cons_self, h⟩
    · rcases bind_eq_error.mp h with h | ⟨ys, -, h⟩
      · obtain ⟨x', hx', h⟩ := ih h
        exact ⟨x', List.mem_cons_of_mem _ hx', h⟩
      · cases h

end Ferrite
