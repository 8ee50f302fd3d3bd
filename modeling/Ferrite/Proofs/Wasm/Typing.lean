import Ferrite.Proofs.Wasm.Validate

/-!
What valid code does to the operands. Code moves some operands to others if it may stand wherever
the first ones are on top, and leaves the second ones instead, unless nothing is reached behind it.
-/

namespace Ferrite.Wasm

namespace Operands

/-- New operands are on top of those before; or nothing is reached, and there are only some of the
new ones. -/
def Above (before : Operands) (ts : List ValType) (s : Operands) : Prop :=
  s = ⟨ts ++ before.known, before.unreachable⟩ ∨ s.unreachable = true ∧ s.known <+: ts

variable {before s s' : Operands} {t : ValType} {ts us : List ValType}

@[simp] theorem Above.refl (s : Operands) : s.Above [] s := .inl rfl

@[simp] theorem above_nowhere : before.Above ts nowhere := .inr ⟨rfl, List.nil_prefix⟩

theorem Above.append (h : before.Above ts s) (h' : s.Above us s') : before.Above (us ++ ts) s' := by
  rcases h' with rfl | ⟨hu, hk⟩
  · rcases h with rfl | ⟨hu, hk⟩
    · exact .inl (by simp)
    · exact .inr ⟨hu, (List.prefix_append_right_inj us).mpr hk⟩
  · exact .inr ⟨hu, hk.trans (List.prefix_append us ts)⟩

theorem Above.split (h : before.Above (us ++ ts) s) : ∃ mid, before.Above ts mid ∧ mid.Above us s := by
  obtain ⟨known, unreachable⟩ := s
  rcases h with h | ⟨rfl, hk⟩
  · exact ⟨_, .inl rfl, .inl (by simpa using h)⟩
  · obtain ⟨rest, heq⟩ := hk
    rcases List.append_eq_append_iff.mp heq with ⟨vs, rfl, -⟩ | ⟨vs, rfl, hvs⟩
    · exact ⟨nowhere, above_nowhere, .inr ⟨rfl, List.prefix_append known vs⟩⟩
    · exact ⟨⟨vs, true⟩, .inr ⟨rfl, rest, hvs.symm⟩, .inl rfl⟩

theorem Above.drop (h : before.Above (t :: ts) s) : ∃ s', s.drop = some s' ∧ before.Above ts s' := by
  obtain ⟨known, unreachable⟩ := s
  rcases h with h | ⟨rfl, hk⟩
  · cases h
    exact ⟨_, rfl, .inl rfl⟩
  · cases known with
    | nil => exact ⟨nowhere, rfl, above_nowhere⟩
    | cons u known =>
      obtain ⟨rfl, hrest⟩ := List.cons_prefix_cons.mp hk
      exact ⟨_, rfl, .inr ⟨rfl, hrest⟩⟩

theorem Above.pop (h : before.Above (t :: ts) s) : ∃ s', s.pop t = some s' ∧ before.Above ts s' := by
  obtain ⟨known, unreachable⟩ := s
  rcases h with h | ⟨rfl, hk⟩
  · cases h
    exact ⟨_, if_pos rfl, .inl rfl⟩
  · cases known with
    | nil => exact ⟨nowhere, rfl, above_nowhere⟩
    | cons u known =>
      obtain ⟨rfl, hrest⟩ := List.cons_prefix_cons.mp hk
      exact ⟨_, if_pos rfl, .inr ⟨rfl, hrest⟩⟩

theorem Above.popAll (h : before.Above (us ++ ts) s) :
    ∃ s', s.popAll us = some s' ∧ before.Above ts s' := by
  induction us generalizing s with
  | nil => exact ⟨s, rfl, h⟩
  | cons u us ih =>
    obtain ⟨s₁, hpop, h₁⟩ := h.pop
    obtain ⟨s', hpops, h'⟩ := ih h₁
    exact ⟨s', by simp [Operands.popAll, hpop, hpops], h'⟩

theorem Above.push (h : before.Above ts s) (us : List ValType) : before.Above (us.reverse ++ ts) (s.push us) :=
  h.append (.inl rfl)

theorem Above.apply (type : FuncType) (h : before.Above type.params.reverse s) :
    ∃ s', s.apply type = some s' ∧ before.Above type.results.reverse s' := by
  rw [← List.append_nil type.params.reverse] at h
  obtain ⟨s', hpops, h'⟩ := h.popAll
  have hpush := h'.push type.results
  rw [List.append_nil] at hpush
  exact ⟨_, by simp [Operands.apply, hpops], hpush⟩

/-- A block whose results are there, and nothing else, may end. -/
theorem Above.ends (h : Above {} ts.reverse s) : s.ends ts = true := by
  rw [← List.append_nil ts.reverse] at h
  obtain ⟨s', hpops, h'⟩ := h.popAll
  have hnone : s'.known = [] := by
    rcases h' with rfl | ⟨-, hk⟩
    · rfl
    · exact List.prefix_nil.mp hk
  simp [Operands.ends, hpops, hnone]

end Operands

theorem reverse_toList (v : Option ValType) : v.toList.reverse = v.toList := by cases v <;> rfl

/-- Code that takes the first operands and leaves the second ones, newest first. -/
def Moves (C : Context) (is : List Instr) (ps rs : List ValType) : Prop :=
  ∀ before s : Operands, before.Above ps s → ∃ s', check C is s = some s' ∧ before.Above rs s'

theorem check_append (C : Context) (is js : List Instr) (s : Operands) :
    check C (is ++ js) s = (check C is s).bind (check C js) := by
  induction is generalizing s with
  | nil => simp [check]
  | cons i is ih =>
    simp only [List.cons_append, check, Option.bind_assoc]
    exact Option.bind_congr fun s' _ => ih s'

theorem check_singleton (C : Context) (i : Instr) (s : Operands) : check C [i] s = i.check C s := by
  simp [check]

namespace Moves

variable {C : Context} {is js : List Instr} {ps qs rs ts : List ValType} {t : ValType}

theorem nil : Moves C [] ps ps := by
  intro before s h
  exact ⟨s, by simp [check], h⟩

theorem append (h : Moves C is ps qs) (h' : Moves C js qs rs) : Moves C (is ++ js) ps rs := by
  intro before s hs
  obtain ⟨s₁, hcheck, hs₁⟩ := h before s hs
  obtain ⟨s₂, hcheck', hs₂⟩ := h' before s₁ hs₁
  exact ⟨s₂, by simp [check_append, hcheck, hcheck'], hs₂⟩

/-- Operands below those that the code takes stay where they are. -/
theorem below (h : Moves C is ps rs) (ts : List ValType) : Moves C is (ps ++ ts) (rs ++ ts) := by
  intro before s hs
  obtain ⟨mid, hmid, hs⟩ := hs.split
  obtain ⟨s', hcheck, hs'⟩ := h mid s hs
  exact ⟨s', hcheck, hmid.append hs'⟩

/-- Code that needs no operands, behind other code. -/
theorem append_new (h : Moves C is ps qs) (h' : Moves C js [] rs) : Moves C (is ++ js) ps (rs ++ qs) := by
  apply h.append
  simpa using h'.below qs

theorem of_check {i : Instr} (h : ∀ before s : Operands, before.Above ps s →
    ∃ s', i.check C s = some s' ∧ before.Above rs s') : Moves C [i] ps rs := by
  intro before s hs
  rw [check_singleton]
  exact h before s hs

theorem instr {i : Instr} (type : FuncType) (h : i.type? C = some type) :
    Moves C [i] type.params.reverse type.results.reverse := by
  apply of_check
  intro before s hs
  have hcheck : i.check C s = (i.type? C).bind s.apply := by
    cases i <;> first | cases h; done | simp [Instr.check]
  rw [hcheck, h]
  exact hs.apply type

theorem drop (t : ValType) : Moves C [.drop] [t] [] := by
  apply of_check
  intro before s hs
  simpa [Instr.check] using hs.drop

theorem localGet {i : Nat} (h : C.locals[i]? = some t) : Moves C [.localGet i] [] [t] :=
  instr ⟨[], [t]⟩ (by simp [Instr.type?, h])

theorem localSet {i : Nat} (h : C.locals[i]? = some t) : Moves C [.localSet i] [t] [] :=
  instr ⟨[t], []⟩ (by simp [Instr.type?, h])

theorem localTee {i : Nat} (h : C.locals[i]? = some t) : Moves C [.localTee i] [t] [t] :=
  instr ⟨[t], [t]⟩ (by simp [Instr.type?, h])

/-- Behind what is never left, anything may be expected. -/
theorem unreachable : Moves C [.unreachable] ps rs := by
  apply of_check
  intro before s _
  exact ⟨.nowhere, by simp [Instr.check], by simp⟩

theorem ret : Moves C [.ret] C.results.reverse rs := by
  apply of_check
  intro before s hs
  rw [← List.append_nil C.results.reverse] at hs
  obtain ⟨s', hpops, -⟩ := hs.popAll
  exact ⟨.nowhere, by simp [Instr.check, hpops], by simp⟩

theorem br {label : Nat} (h : C.labels[label]? = some ts) : Moves C [.br label] ts.reverse rs := by
  apply of_check
  intro before s hs
  rw [← List.append_nil ts.reverse] at hs
  obtain ⟨s', hpops, -⟩ := hs.popAll
  exact ⟨.nowhere, by simp [Instr.check, h, hpops], by simp⟩

theorem brIf {label : Nat} (h : C.labels[label]? = some ts) :
    Moves C [.brIf label] (.i32 :: ts.reverse) ts.reverse := by
  apply of_check
  intro before s hs
  obtain ⟨s₁, hpop, hs₁⟩ := hs.pop
  obtain ⟨s₂, happly, hs₂⟩ := Operands.Above.apply ⟨ts, ts⟩ hs₁
  exact ⟨s₂, by simp [Instr.check, h, hpop, happly], hs₂⟩

/-- Code that leaves what it is to leave, and nothing else, may be the body of a block. -/
theorem ends (h : Moves C is [] rs.reverse) : (check C is {}).any (·.ends rs) = true := by
  obtain ⟨s', hcheck, hs'⟩ := h {} {} (.refl _)
  simp [hcheck, hs'.ends]

theorem block (h : Moves (C.inside []) is [] []) : Moves C [.block is] [] [] := by
  apply of_check
  intro before s hs
  have hends : (check (C.inside []) is {}).any (·.ends []) = true := ends h
  exact ⟨s, by simp [Instr.check, hends], hs⟩

theorem loop (h : Moves (C.inside []) is [] []) : Moves C [.loop is] [] [] := by
  apply of_check
  intro before s hs
  have hends : (check (C.inside []) is {}).any (·.ends []) = true := ends h
  exact ⟨s, by simp [Instr.check, hends], hs⟩

theorem ifThen (h : Moves (C.inside []) is [] []) : Moves C [.ifThen is] [.i32] [] := by
  apply of_check
  intro before s hs
  have hends : (check (C.inside []) is {}).any (·.ends []) = true := ends h
  simpa [Instr.check, hends] using hs.pop

theorem ifElse {result : Option ValType} (h : Moves (C.inside result.toList) is [] result.toList)
    (h' : Moves (C.inside result.toList) js [] result.toList) :
    Moves C [.ifElse result is js] [.i32] result.toList := by
  have hyes : (check (C.inside result.toList) is {}).any (·.ends result.toList) = true :=
    ends (by rwa [reverse_toList])
  have hno : (check (C.inside result.toList) js {}).any (·.ends result.toList) = true :=
    ends (by rwa [reverse_toList])
  apply of_check
  intro before s hs
  obtain ⟨s', happly, hs'⟩ := Operands.Above.apply ⟨[.i32], result.toList⟩ hs
  refine ⟨s', by simp [Instr.check, hyes, hno, happly], ?_⟩
  rwa [reverse_toList] at hs'

end Moves
end Ferrite.Wasm
