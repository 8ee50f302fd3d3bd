import Ferrite.Proofs.Check.Unknown

/-!
What checking asks about the parts of a node, and what it makes of the answer. Each question is about
some types, and is dropped where one of them is not known.
-/

namespace Ferrite.Check

variable {s s' s'' : State} {t : Ty}

/-- What a value is for that has to fit a type. -/
inductive Use
  /-- To be bound, to be assigned, or to be a condition. -/
  | value
  | argument (number : Nat) (callee : String)
  | returned (function : String)
  | body (function : String)
  | withoutElse
  | branch

def Use.problem (found expected : Ty) : Use → Problem
  | value => .mismatch expected found
  | argument number callee => .argument number callee found expected
  | returned function => .returned function expected found
  | body function => .body function expected found
  | withoutElse => .missingElse found
  | branch => .branches expected found

inductive Question
  | undefinedValue (name : String)
  | undefinedFunction (name : String)
  /-- A local cannot be called, whatever its type is. -/
  | calledLocal (name : String) (type : Ty)
  | arity (name : String) (signature : Signature) (supplied : Nat)
  | operand (op : UnaryOp) (type : Ty)
  | operands (op : BinaryOp) (lhs rhs : Ty)
  | target (type : Ty) (isLocal : Bool)
  | fits (found expected : Ty) (use : Use)

namespace Question

/-- The types that decide the question. -/
def about : Question → List Ty
  | undefinedValue _ | undefinedFunction _ | calledLocal .. => []
  | arity _ signature _ => [signature.type]
  | operand _ t | target t _ => [t]
  | operands _ l r => [l, r]
  | fits found expected _ => [found, expected]

/-- What is wrong, where all types are known. -/
def answer : Question → Option Problem
  | undefinedValue name => some (.undefinedValue name)
  | undefinedFunction name => some (.undefinedFunction name)
  | calledLocal name t => some (.calledLocal name t)
  | arity name signature supplied =>
      if supplied = signature.params.length then none else some (.arity name signature supplied)
  | operand op t => if t = .never || op.accepts t then none else some (.unaryOperand op t)
  | operands op l r =>
      if l ≠ .never && r ≠ .never && !l.alike r then some (.operands op l r)
      else if operandType l r = .never || op.accepts (operandType l r) then none
      else some (.binaryOperand op (operandType l r))
  | target _ isLocal => if isLocal then none else some .assignment
  | fits found expected use =>
      if found = .never || found.alike expected then none else some (use.problem found expected)

/-- What is reported: nothing where a type is not known. -/
def verdict (q : Question) : Option Problem := if q.about.any Ty.hasUnknown then none else q.answer

theorem verdict_eq_some {q : Question} {problem : Problem} (h : q.verdict = some problem) :
    (∀ t ∈ q.about, t.Known) ∧ q.answer = some problem := by
  unfold verdict at h
  split at h
  · cases h
  · rename_i hknown
    rw [List.any_eq_true] at hknown
    refine ⟨?_, h⟩
    intro t ht
    exact Bool.eq_false_iff.mpr fun hu => hknown ⟨t, ht, hu⟩

theorem verdict_of_known {q : Question} (h : ∀ t ∈ q.about, t.Known) : q.verdict = q.answer := by
  refine if_neg ?_
  rw [List.any_eq_true]
  rintro ⟨t, ht, hu⟩
  rw [h t ht] at hu
  cases hu

/-- A problem speaks of the types that decide it, the call of a local apart. -/
theorem types_subset {q : Question} {problem : Problem} (h : q.answer = some problem) :
    problem.types ⊆ q.about ∨ ∃ name t, problem = .calledLocal name t := by
  cases q with
  | undefinedValue name =>
    cases h
    exact .inl (List.nil_subset _)
  | undefinedFunction name =>
    cases h
    exact .inl (List.nil_subset _)
  | calledLocal name t =>
    cases h
    exact .inr ⟨name, t, rfl⟩
  | arity name signature supplied =>
    rw [answer, Option.ite_none_left_eq_some] at h
    cases h.2
    exact .inl (List.Subset.refl _)
  | operand op t =>
    rw [answer, Option.ite_none_left_eq_some] at h
    cases h.2
    exact .inl (List.Subset.refl _)
  | operands op l r =>
    rw [answer] at h
    split at h
    · cases h
      exact .inl (List.Subset.refl _)
    · rw [Option.ite_none_left_eq_some] at h
      cases h.2
      have hmem : operandType l r ∈ [l, r] := by
        unfold operandType
        split <;> simp
      exact .inl (List.cons_subset.mpr ⟨hmem, List.nil_subset _⟩)
  | target t isLocal =>
    rw [answer, Option.ite_none_left_eq_some] at h
    cases h.2
    exact .inl (List.nil_subset _)
  | fits found expected use =>
    rw [answer, Option.ite_none_left_eq_some] at h
    cases h.2
    left
    cases use <;> simp [Use.problem, Problem.types, about]

theorem verdict_fits (found expected : Ty) (use : Use) :
    (fits found expected use).verdict =
      if !found.fits expected then some (use.problem found expected) else none := by
  simp only [verdict, answer, about, Ty.fits, List.any_cons, List.any_nil]
  grind

end Question

/-- All problems but repeated names. -/
def judged (ps : List (Located Problem)) : List (Located Problem) :=
  ps.filter fun q => q.value.code ≠ .redefinition

/-- What is reported at the place of a question. -/
def raised (q : Located Question) : Option (Located Problem) := q.value.verdict.map (⟨·, q.span⟩)

/-- Between two states, what was reported besides repeated names are the verdicts on the questions. -/
def Asked (qs : List (Located Question)) (s s' : State) : Prop :=
  (judged s'.problems).Perm (qs.filterMap raised ++ judged s.problems)

section

variable {qs qs' : List (Located Question)}

theorem asked_nil (s : State) : Asked [] s s := .refl _

theorem Asked.trans (h : Asked qs s s') (h' : Asked qs' s' s'') : Asked (qs ++ qs') s s'' := by
  have hmoved := List.Perm.trans h' (List.Perm.append_left (qs'.filterMap raised) h)
  rw [Asked, List.filterMap_append, List.append_assoc]
  exact List.Perm.trans hmoved (List.perm_append_comm_assoc _ _ _)

theorem Asked.perm (h : Asked qs s s') (hp : qs.Perm qs') : Asked qs' s s' :=
  List.Perm.trans h ((hp.filterMap raised).append_right _)

theorem Asked.problems (h : Asked qs s s') (hp : judged s''.problems = judged s'.problems) :
    Asked qs s s'' := by
  rw [Asked, hp]
  exact h

theorem asked_none {span : Span} {q : Question} (hq : q.verdict = none) : Asked [⟨q, span⟩] s s := by
  have hraised : raised ⟨q, span⟩ = none := by
    rw [raised, hq]
    rfl
  rw [Asked, List.filterMap_cons, hraised]
  exact .refl _

theorem asked_report {problem : Problem} {span : Span} {q : Question}
    (hq : q.verdict = some problem) (hp : problem.code ≠ .redefinition) :
    Asked [⟨q, span⟩] s (after (report problem span) s) := by
  have hraised : raised ⟨q, span⟩ = some ⟨problem, span⟩ := by
    rw [raised, hq]
    rfl
  have hjudged : judged (after (report problem span) s).problems =
      ⟨problem, span⟩ :: judged s.problems := List.filter_cons_of_pos (by simpa using hp)
  rw [Asked, List.filterMap_cons, hraised, hjudged]
  exact .refl _

theorem asked_reportIf {condition : Bool} {problem : Problem} {span : Span} {q : Question}
    (hq : q.verdict = if condition then some problem else none) (hp : problem.code ≠ .redefinition) :
    Asked [⟨q, span⟩] s (after (reportIf condition problem span) s) := by
  cases condition with
  | false => exact asked_none hq
  | true => exact asked_report hq hp

theorem asked_fits (found expected : Ty) (use : Use) (span : Span) :
    Asked [⟨.fits found expected use, span⟩] s
      (after (reportIf (!found.fits expected) (use.problem found expected) span) s) := by
  refine asked_reportIf (Question.verdict_fits found expected use) ?_
  cases use <;> exact fun h => nomatch h

end

/-- Where one of two branches always returns, they have the type of the other one. -/
def joined (yesReturns : Bool) (yes no : Ty) : Ty := if yes = .never || yesReturns then no else yes

def askTruth (t : Ty) (span : Span) : Located Question := ⟨.fits t .bool .value, span⟩

def askReturned (owner : Header) (t : Ty) (span : Span) : Located Question :=
  ⟨.fits t owner.signature.result (.returned owner.name.text), span⟩

def askWithoutElse (yes : Block) (t : Ty) : List (Located Question) :=
  if yes.endsInReturn then [] else [⟨.fits t .unit .withoutElse, yes.span⟩]

def askBranches (yesReturns : Bool) (yes : Ty) (noReturns : Bool) (noSpan : Span) (no : Ty) :
    List (Located Question) :=
  if yes = .never || yesReturns then []
  else if no = .never || noReturns then []
  else [⟨.fits no yes .branch, noSpan⟩]

def askBody (h : Header) (body : Block) (t : Ty) : List (Located Question) :=
  if body.endsInReturn then []
  else [⟨.fits t h.signature.result (.body h.name.text), body.span⟩]

def askPath (scopes : Scope.Stack) (name : Ident) : List (Located Question) :=
  if (scopes.local? name.text).isSome || (scopes.decl? name.text).isSome then []
  else [⟨.undefinedValue name.text, name.span⟩]

/-- Only a local is assigned to. What it is assigned has to fit it. -/
def askAssignment (scopes : Scope.Stack) (target value : Expr) (lhs rhs : Ty) :
    List (Located Question) :=
  if target.place?.any fun name => (scopes.local? name.text).isSome then
    [⟨.target lhs true, target.span⟩, ⟨.fits rhs lhs .value, value.span⟩]
  else [⟨.target lhs false, target.span⟩]

def askArguments (callee : String) : Nat → List Expr → List Ty → List Ty → List (Located Question)
  | number, arg :: args, found :: founds, expected :: params =>
      ⟨.fits found expected (.argument number callee), arg.span⟩ ::
        askArguments callee (number + 1) args founds params
  | _, _, _, _ => []

def askCall (scopes : Scope.Stack) (callee : Ident) (span : Span) (args : List Expr) (types : List Ty) :
    List (Located Question) :=
  match scopes.local? callee.text, scopes.decl? callee.text with
  | some t, _ => [⟨.calledLocal callee.text t, callee.span⟩]
  | none, none => [⟨.undefinedFunction callee.text, callee.span⟩]
  | none, some d =>
      ⟨.arity callee.text d.signature types.length, span⟩ ::
        if types.length = d.signature.params.length then
          askArguments callee.text 1 args types d.signature.params
        else []

def askBinding (declared : Option Ty) (init : Expr) (t : Ty) : List (Located Question) :=
  match declared with
  | some expected => [⟨.fits t expected .value, init.span⟩]
  | none => []

theorem asked_path (name : Ident) : Asked (askPath s.scopes name) s (after (path name) s) := by
  unfold askPath
  obtain ⟨t, hl, -, hafter⟩ | ⟨hl, ⟨d, hd, -, hafter⟩ | ⟨hd, -, hafter⟩⟩ := path_cases name s
  · rw [hl, hafter]
    exact asked_nil s
  · rw [hl, hd, hafter]
    exact asked_nil s
  · rw [hl, hd, hafter]
    exact asked_report rfl fun h => nomatch h

theorem asked_unary (op : UnaryOp) (span : Span) (t : Ty) :
    Asked [⟨.operand op t, span⟩] s (after (unary op span t) s) := by
  have hq : (Question.operand op t).verdict =
      if !t.hasUnknown && t ≠ .never && !op.accepts t then some (.unaryOperand op t) else none := by
    simp only [Question.verdict, Question.answer, Question.about, List.any_cons, List.any_nil]
    grind
  exact asked_reportIf hq fun h => nomatch h

theorem asked_binary (op : BinaryOp) (span : Span) (l r : Ty) :
    Asked [⟨.operands op l r, span⟩] s (after (binary op span l r) s) := by
  unfold binary
  extract_lets operand known returns finish
  split
  · rename_i hclash
    simp only [known, returns, Bool.and_eq_true, Bool.not_eq_true', Bool.or_eq_false_iff,
      decide_eq_false_iff_not] at hclash
    obtain ⟨⟨⟨hl, hr⟩, hln, hrn⟩, halike⟩ := hclash
    refine asked_report (s := s) ?_ fun h => nomatch h
    simp [Question.verdict, Question.about, Question.answer, hl, hr, hln, hrn, halike]
  · rename_i hclash
    refine asked_reportIf (s := s) ?_ fun h => nomatch h
    simp only [Question.verdict, Question.answer, Question.about, List.any_cons, List.any_nil]
    grind

theorem asked_assignment (target value : Expr) (l r : Ty) :
    Asked (askAssignment s.scopes target value l r) s (after (assignment target value l r) s) := by
  unfold assignment
  extract_lets finish compare
  by_cases hl : l.hasUnknown = true
  · -- Neither question is of use where the type of the target is not known.
    have htarget : ∀ isLocal, (Question.target l isLocal).verdict = none := by
      intro isLocal
      simp [Question.verdict, Question.about, hl]
    have hvalue : (Question.fits r l .value).verdict = none := by
      simp [Question.verdict, Question.about, hl]
    rw [if_neg (by simp [hl])]
    unfold askAssignment
    split
    · exact (asked_none (htarget true)).trans (asked_none hvalue)
    · exact asked_none (htarget false)
  · have htarget : ∀ isLocal, (Question.target l isLocal).verdict =
        if isLocal then none else some .assignment := by
      intro isLocal
      simp [Question.verdict, Question.about, Question.answer, hl]
    have hcompare : ∀ isLocal : Bool, Asked (if isLocal then
        [⟨.target l true, target.span⟩, ⟨.fits r l .value, value.span⟩]
        else [⟨.target l false, target.span⟩]) s (after (compare isLocal) s) := by
      intro isLocal
      cases isLocal with
      | false => exact asked_report (htarget false) fun h => nomatch h
      | true => exact (asked_none (htarget true)).trans (asked_fits r l .value value.span)
    rw [if_pos (by simp [hl])]
    unfold askAssignment
    cases target.place? with
    | none => exact hcompare false
    | some name => exact hcompare (s.scopes.local? name.text).isSome

theorem asked_arguments (callee : String) : ∀ (number : Nat) (args : List Expr) (types params : List Ty)
    (s : State), Asked (askArguments callee number args types params) s
      (after (arguments callee number args types params) s)
  | _, [], _, _, _ | _, _ :: _, [], _, _ | _, _ :: _, _ :: _, [], _ => asked_nil _
  | number, arg :: args, t :: types, u :: params, _ =>
    (asked_fits t u (.argument number callee) arg.span).trans
      (asked_arguments callee (number + 1) args types params _)

/-- The functions that a name can stand for have known types. -/
theorem asked_call (callee : Ident) (span : Span) (args : List Expr) (types : List Ty)
    (hknown : ∀ d, s.scopes.decl? callee.text = some d → d.signature.type.Known) :
    Asked (askCall s.scopes callee span args types) s (after (call callee span args types) s) := by
  unfold askCall
  obtain ⟨t, hl, -, hafter⟩ | ⟨hl, ⟨hd, -, hafter⟩ | ⟨d, hd, -, hafter⟩⟩ :=
    call_cases callee span args types s
  · rw [hl, hafter]
    exact asked_report rfl fun h => nomatch h
  · rw [hl, hd, hafter]
    exact asked_report rfl fun h => nomatch h
  · rw [hl, hd, hafter]
    dsimp only
    have hanswer : (Question.arity callee.text d.signature types.length).verdict =
        (Question.arity callee.text d.signature types.length).answer :=
      Question.verdict_of_known (List.forall_mem_singleton.mpr (hknown d hd))
    split
    · rename_i hlength
      exact (asked_none (hanswer.trans (if_pos hlength))).trans
        (asked_arguments callee.text 1 args types d.signature.params s)
    · rename_i hlength
      exact asked_report (hanswer.trans (if_neg hlength)) fun h => nomatch h

theorem asked_truth (span : Span) (t : Ty) : Asked [askTruth t span] s (after (truth span t) s) :=
  asked_fits t .bool .value span

theorem asked_returned {owner : Header} (h : s.owners.head? = some (.of owner)) (span : Span) (t : Ty) :
    Asked [askReturned owner t span] s (after (returned span t) s) := by
  rw [after_returned h]
  exact asked_fits t owner.signature.result (.returned owner.name.text) span

theorem asked_withoutElse (yes : Block) (t : Ty) :
    Asked (askWithoutElse yes t) s (after (withoutElse yes t) s) := by
  have hafter : after (withoutElse yes t) s =
    after (reportIf (!yes.endsInReturn && !t.fits .unit) (.missingElse t) yes.span) s := rfl
  rw [hafter]
  unfold askWithoutElse
  cases yes.endsInReturn with
  | true => exact asked_nil s
  | false => exact asked_fits t .unit .withoutElse yes.span

theorem asked_branches (yesReturns : Bool) (yes : Ty) (noReturns : Bool) (span : Span) (no : Ty) :
    Asked (askBranches yesReturns yes noReturns span no) s
      (after (branches yesReturns yes noReturns span no) s) := by
  unfold askBranches branches
  split
  · exact asked_nil s
  · split
    · exact asked_nil s
    · exact asked_fits no yes .branch span

theorem value_branches (yesReturns : Bool) (yes : Ty) (noReturns : Bool) (span : Span) (no : Ty) :
    value (branches yesReturns yes noReturns span no) s = joined yesReturns yes no := by
  unfold branches joined
  split
  · rfl
  · split <;> rfl

theorem asked_functionBody (h : Header) (body : Block) (t : Ty) :
    Asked (askBody h body t) s (after (functionBody h body t) s) := by
  unfold askBody functionBody
  cases body.endsInReturn with
  | true => exact asked_nil s
  | false => exact asked_fits t h.signature.result (.body h.name.text) body.span

/-- To report a repeated name is not the answer to a question. -/
theorem judged_reportIf (condition : Bool) {problem : Problem} (span : Span) (s : State)
    (hp : problem.code = .redefinition) :
    judged (after (reportIf condition problem span) s).problems = judged s.problems := by
  cases condition with
  | false => rfl
  | true => exact List.filter_cons_of_neg (by simpa using hp)

theorem judged_forM {α : Type} {act : α → Checker Unit}
    (h : ∀ a s, judged (after (act a) s).problems = judged s.problems) :
    ∀ (as : List α) (s : State), judged (after (as.forM act) s).problems = judged s.problems
  | [], _ => rfl
  | a :: as, s => (judged_forM h as _).trans (h a s)

theorem judged_declare (h : Header) (s : State) :
    judged (after (declare h) s).problems = judged s.problems :=
  judged_reportIf _ h.name.span _ rfl

theorem judged_bind {name : Ident} {t : Ty} {taken : Problem} (ht : taken.code = .redefinition)
    (s : State) : judged (after (bind name t taken) s).problems = judged s.problems :=
  judged_reportIf _ name.span _ ht

theorem judged_atBlock (is : List Item) (s : State) :
    judged (atBlock is s).problems = judged s.problems :=
  judged_forM judged_declare (is.flatMap Item.headers) _

theorem judged_atFunction (h : Header) (s : State) :
    judged (atFunction h s).problems = judged s.problems := by
  refine judged_forM ?_ (h.params.zip h.signature.params) _
  rintro ⟨name, t⟩ s
  exact judged_bind rfl s

theorem asked_binding (id : NodeId) (name : Ident) (declared : Option Ty) (init : Expr) (t : Ty) :
    Asked (askBinding declared init t) s (after (binding id name declared init t) s) := by
  have hbind : ∀ (bound : Ty) (s : State), judged (after (do
      record id bound; bind name bound (.repeatedLocal name.text)) s).problems = judged s.problems :=
    fun bound s => judged_bind rfl (after (record id bound) s)
  cases declared with
  | none => exact (asked_nil s).problems (hbind t s)
  | some expected => exact (asked_fits t expected .value init.span).problems (hbind expected _)

end Ferrite.Check
