import Ferrite.Proofs.Check.Growth
import Mathlib.Data.List.Forall2

/-!
What a rule of checking says when it has nothing to report. Types are known there, so a type fits
where another is asked for only if it is that of a value that never comes or is alike.
-/

namespace Ferrite

namespace Ty

/-- Whether a known type may stand where another known type is asked for. -/
def Suits (found expected : Ty) : Prop := found = .never ∨ found.alike expected

theorem suits_of_fits {found expected : Ty} (h : found.fits expected = true)
    (hf : found.hasUnknown = false) (he : expected.hasUnknown = false) : found.Suits expected := by
  simp only [fits, hf, he, Bool.false_or, Bool.or_eq_true, decide_eq_true_eq] at h
  exact h

end Ty

namespace Check

variable {s : State} {l r t : Ty}

/-- The step reports nothing, and nothing was reported before. -/
def Silent {α : Type} (act : Checker α) (s : State) : Prop := (after act s).problems = []

/-- Whether a type is that of a condition. -/
abbrev IsTest (t : Ty) : Prop := t.Suits .bool

/-- The type of two branches together. -/
def Joins (yesReturns : Bool) (yes : Ty) (noReturns : Bool) (no t : Ty) : Prop :=
  (yes = .never ∨ yesReturns) ∧ t = no ∨ (no = .never ∨ noReturns) ∧ t = yes ∨ no.Suits yes ∧ t = yes

/-- The type of an operation that is no assignment. -/
structure Operates (op : BinaryOp) (l r t : Ty) : Prop where
  type : t = if op.isComparison then .bool else operandType l r
  operands : l = .never ∨ r = .never ∨ l.alike r
  accepts : operandType l r = .never ∨ op.accepts (operandType l r)

theorem silent_of_suffix {s' : State} (h : s.problems <:+ s'.problems) (hs : s'.problems = []) :
    s.problems = [] := by
  rw [hs, List.suffix_nil] at h
  exact h

theorem Reports.silent {α : Type} {act : Checker α} (h : Reports act) (hs : Silent act s) :
    s.problems = [] :=
  silent_of_suffix (h.grows true s).problems hs

theorem not_silent_report (problem : Problem) (span : Span) : ¬ Silent (report problem span) s := by
  intro h
  cases h

theorem silent_reportIf {condition : Bool} {problem : Problem} {span : Span}
    (h : Silent (reportIf condition problem span) s) : condition = false := by
  unfold reportIf at h
  split at h
  · exact absurd h (not_silent_report problem span)
  · rename_i hc
    simpa using hc

/-- A name stands for a local, or else for a function, or else for nothing. -/
theorem path_cases (name : Ident) (s : State) :
    (∃ t, s.scopes.local? name.text = some t ∧ value (path name) s = t ∧ after (path name) s = s) ∨
      s.scopes.local? name.text = none ∧
        ((∃ d, s.scopes.decl? name.text = some d ∧ value (path name) s = d.signature.type ∧
            after (path name) s = s) ∨
          s.scopes.decl? name.text = none ∧ value (path name) s = .unknown ∧
            after (path name) s = after (report (.undefinedValue name.text) name.span) s) := by
  unfold path
  cases hl : s.scopes.local? name.text with
  | some t => exact .inl ⟨t, rfl, by simp [hl], by simp [hl]⟩
  | none =>
    refine .inr ⟨rfl, ?_⟩
    cases hd : s.scopes.decl? name.text with
    | some d => exact .inl ⟨d, rfl, by simp [hl, hd], by simp [hl, hd]⟩
    | none => exact .inr ⟨rfl, by simp [hl, hd], by simp [hl, hd]⟩

theorem silent_path {name : Ident} (h : Silent (path name) s) :
    s.scopes.local? name.text = some (value (path name) s) ∨
      s.scopes.local? name.text = none ∧
        ∃ d, s.scopes.decl? name.text = some d ∧ value (path name) s = d.signature.type := by
  obtain ⟨t, hl, hv, -⟩ | ⟨hl, ⟨d, hd, hv, -⟩ | ⟨-, -, hafter⟩⟩ := path_cases name s
  · exact .inl (hv ▸ hl)
  · exact .inr ⟨hl, d, hd, hv⟩
  · rw [Silent, hafter] at h
    exact absurd h (not_silent_report (s := s) _ _)

theorem silent_unary {op : UnaryOp} {span : Span} (h : Silent (unary op span t) s)
    (ht : t.hasUnknown = false) : t = .never ∨ op.accepts t := by
  have hc := silent_reportIf (s := s) h
  by_cases hn : t = .never
  · exact .inl hn
  · right
    simpa [ht, hn] using hc

theorem value_binary (op : BinaryOp) (span : Span) :
    value (binary op span l r) s = if op.isComparison then .bool else operandType l r := by
  unfold binary
  extract_lets operand known returns finish
  split <;> rfl

theorem silent_binary {op : BinaryOp} {span : Span} (h : Silent (binary op span l r) s)
    (hl : l.hasUnknown = false) (hr : r.hasUnknown = false) :
    Operates op l r (value (binary op span l r) s) := by
  refine ⟨value_binary op span, ?_, ?_⟩
  · unfold binary at h
    extract_lets operand known returns finish at h
    split at h
    · exact absurd h (not_silent_report (s := s) _ _)
    · rename_i hc
      simp only [known, returns, hl, hr] at hc
      by_cases hln : l = .never
      · exact .inl hln
      · by_cases hrn : r = .never
        · exact .inr (.inl hrn)
        · simp [hln, hrn] at hc
          exact .inr (.inr hc)
  · unfold binary at h
    extract_lets operand known returns finish at h
    split at h
    · exact absurd h (not_silent_report (s := s) _ _)
    · have hc := silent_reportIf (s := s) h
      by_cases hn : operandType l r = .never
      · exact .inl hn
      · right
        simpa [known, operand, hl, hr, hn] using hc

theorem value_assignment (target value : Expr) :
    Check.value (assignment target value l r) s = .unit := by
  unfold assignment
  extract_lets finish compare
  have hcompare : ∀ isLocal s, Check.value (compare isLocal) s = .unit := by
    intro isLocal s
    dsimp only [compare]
    split <;> rfl
  split
  · split
    · exact hcompare _ s
    · exact hcompare false s
  · rfl

theorem silent_assignment {target value : Expr} (h : Silent (assignment target value l r) s)
    (hl : l.hasUnknown = false) (hr : r.hasUnknown = false) :
    (∃ name t, target.place? = some name ∧ s.scopes.local? name.text = some t) ∧ r.Suits l := by
  unfold assignment at h
  extract_lets finish compare at h
  have hcompare : ∀ isLocal, Silent (compare isLocal) s → isLocal = true ∧ r.Suits l := by
    intro isLocal h
    dsimp only [compare] at h
    split at h
    · exact absurd h (not_silent_report (s := s) _ _)
    · rename_i hlocal
      have hc := silent_reportIf (s := s) h
      exact ⟨by simpa using hlocal, Ty.suits_of_fits (by simpa using hc) hr hl⟩
  rw [if_pos (by rw [hl]; rfl)] at h
  split at h
  · rename_i name hplace
    obtain ⟨hsome, hsuits⟩ := hcompare (s.scopes.local? name.text).isSome h
    obtain ⟨t, ht⟩ := Option.isSome_iff_exists.mp hsome
    exact ⟨⟨name, t, hplace, ht⟩, hsuits⟩
  · cases (hcompare false h).1

theorem silent_arguments {callee : String} :
    ∀ {number : Nat} {args : List Expr} {types params : List Ty} {s : State},
      Silent (arguments callee number args types params) s → args.length = types.length →
      types.length = params.length → (∀ t ∈ types, t.hasUnknown = false) →
      (∀ t ∈ params, t.hasUnknown = false) → List.Forall₂ Ty.Suits types params
  | _, [], [], [], _, _, _, _, _, _ => .nil
  | number, arg :: args, t :: types, p :: params, s, h, ha, hp, htypes, hparams => by
    have hnext : Silent (arguments callee (number + 1) args types params)
        (after (reportIf (!t.fits p) (.argument number callee t p) arg.span) s) := h
    have hrest := silent_arguments hnext (Nat.succ.inj ha) (Nat.succ.inj hp)
      (fun t ht => htypes t (List.mem_cons_of_mem _ ht))
      (fun t ht => hparams t (List.mem_cons_of_mem _ ht))
    refine .cons ?_ hrest
    have hc := silent_reportIf ((reports_arguments callee (number + 1) args types params).silent hnext)
    exact Ty.suits_of_fits (by simpa using hc) (htypes t List.mem_cons_self)
      (hparams p List.mem_cons_self)

/-- The name that is called stands for a local, or else for nothing, or else for a function, which then
says how many arguments it takes. -/
theorem call_cases (callee : Ident) (span : Span) (args : List Expr) (types : List Ty) (s : State) :
    (∃ t, s.scopes.local? callee.text = some t ∧ value (call callee span args types) s = .unknown ∧
        after (call callee span args types) s =
          after (report (.calledLocal callee.text t) callee.span) s) ∨
      s.scopes.local? callee.text = none ∧
        (s.scopes.decl? callee.text = none ∧ value (call callee span args types) s = .unknown ∧
            after (call callee span args types) s =
              after (report (.undefinedFunction callee.text) callee.span) s ∨
          ∃ d, s.scopes.decl? callee.text = some d ∧
            value (call callee span args types) s = d.signature.result ∧
            after (call callee span args types) s =
              if types.length = d.signature.params.length then
                after (arguments callee.text 1 args types d.signature.params) s
              else after (report (.arity callee.text d.signature types.length) span) s) := by
  unfold call
  cases hl : s.scopes.local? callee.text with
  | some t => exact .inl ⟨t, rfl, by simp [hl], by simp [hl]⟩
  | none =>
    refine .inr ⟨rfl, ?_⟩
    cases hd : s.scopes.decl? callee.text with
    | none => exact .inl ⟨rfl, by simp [hl, hd], by simp [hl, hd]⟩
    | some d =>
      refine .inr ⟨d, rfl, ?_⟩
      by_cases harity : types.length = d.signature.params.length
      · simp [hl, hd, harity]
      · simp [hl, hd, harity]

theorem silent_call {callee : Ident} {span : Span} {args : List Expr} {types : List Ty}
    (h : Silent (call callee span args types) s) (hlength : args.length = types.length)
    (htypes : ∀ t ∈ types, t.hasUnknown = false)
    (hdecl : ∀ d, s.scopes.decl? callee.text = some d → ∀ t ∈ d.signature.params, t.hasUnknown = false) :
    s.scopes.local? callee.text = none ∧ ∃ d, s.scopes.decl? callee.text = some d ∧
      List.Forall₂ Ty.Suits types d.signature.params ∧
      value (call callee span args types) s = d.signature.result := by
  obtain ⟨t, -, -, hafter⟩ | ⟨hl, ⟨-, -, hafter⟩ | ⟨d, hd, hv, hafter⟩⟩ :=
    call_cases callee span args types s
  · rw [Silent, hafter] at h
    exact absurd h (not_silent_report (s := s) _ _)
  · rw [Silent, hafter] at h
    exact absurd h (not_silent_report (s := s) _ _)
  · rw [Silent, hafter] at h
    split at h
    · rename_i harity
      exact ⟨hl, d, hd, silent_arguments h hlength harity htypes (hdecl d hd), hv⟩
    · exact absurd h (not_silent_report (s := s) _ _)

/-- What is returned is compared with the result of the innermost function. -/
theorem after_returned {owner : Owner} (ho : s.owners.head? = some owner) (span : Span) (t : Ty) :
    after (returned span t) s =
      after (reportIf (!t.fits owner.result) (.returned owner.name owner.result t) span) s := by
  rw [returned, after_bind, value_owner?, after_owner?, ho]
  rfl

theorem value_returned (span : Span) (t : Ty) (s : State) : value (returned span t) s = .never := by
  rw [returned, value_bind]
  cases value owner? s <;> rfl

theorem silent_returned {owner : Header} {span : Span} (h : Silent (returned span t) s)
    (hinner : s.owners.head? = some (.of owner)) (ht : t.hasUnknown = false)
    (ho : owner.signature.result.hasUnknown = false) : t.Suits owner.signature.result := by
  rw [Silent, after_returned hinner] at h
  have hc := silent_reportIf (s := s) h
  exact Ty.suits_of_fits (by simpa [Owner.of] using hc) ht ho

theorem silent_truth {span : Span} (h : Silent (truth span t) s) (ht : t.hasUnknown = false) :
    IsTest t := by
  have hc := silent_reportIf (s := s) h
  exact Ty.suits_of_fits (by simpa using hc) ht rfl

theorem silent_withoutElse {yes : Block} (h : Silent (withoutElse yes t) s)
    (ht : t.hasUnknown = false) : yes.endsInReturn ∨ t.Suits .unit := by
  have hc := silent_reportIf (s := s) h
  by_cases hr : yes.endsInReturn = true
  · exact .inl hr
  · exact .inr (Ty.suits_of_fits (by simpa [hr] using hc) ht rfl)

theorem silent_branches {yesReturns noReturns : Bool} {yes no : Ty} {span : Span}
    (h : Silent (branches yesReturns yes noReturns span no) s) (hy : yes.hasUnknown = false)
    (hn : no.hasUnknown = false) :
    Joins yesReturns yes noReturns no (value (branches yesReturns yes noReturns span no) s) := by
  unfold branches at h ⊢
  split
  · rename_i hc
    exact .inl ⟨by simpa using hc, rfl⟩
  · rename_i hyes
    rw [if_neg hyes] at h
    split
    · rename_i hc
      exact .inr (.inl ⟨by simpa using hc, rfl⟩)
    · rename_i hno
      rw [if_neg hno] at h
      have hc := silent_reportIf (s := s) h
      exact .inr (.inr ⟨Ty.suits_of_fits (by simpa using hc) hn hy, rfl⟩)

theorem silent_functionBody {header : Header} {body : Block} (h : Silent (functionBody header body t) s)
    (ht : t.hasUnknown = false) (ho : header.signature.result.hasUnknown = false) :
    body.endsInReturn ∨ t.Suits header.signature.result := by
  have hc := silent_reportIf (s := s) h
  by_cases hr : body.endsInReturn = true
  · exact .inl hr
  · exact .inr (Ty.suits_of_fits (by simpa [hr] using hc) ht ho)

end Check
end Ferrite
