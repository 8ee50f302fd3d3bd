import Ferrite.Proofs.Check.Table

/-!
Where types stay unknown. Checking gives the unknown type to a name that stands for nothing and to
the call of a local, and reports both. As long as it reports neither, each type that it notes for a
node or for a local is known.
-/

namespace Ferrite

/-- A type without unknown parts. -/
abbrev Ty.Known (t : Ty) : Prop := t.hasUnknown = false

namespace Scope

/-- The functions of a frame have known types and, under the condition, its locals have too. -/
structure Frame.Known (given : Prop) (f : Frame) : Prop where
  decls : ∀ d ∈ f.decls, d.signature.type.Known
  locals : given → ∀ n t, (n, t) ∈ f.locals → t.Known

namespace Frame.Known

variable {given : Prop} {f : Frame}

theorem addLocal (hf : f.Known given) {t : Ty} (ht : given → t.Known) (name : String) :
    (f.addLocal name t).Known given := by
  unfold Frame.addLocal
  split
  · exact hf
  · refine ⟨hf.decls, ?_⟩
    intro hg n u hu
    rcases List.mem_cons.mp hu with heq | hu
    · cases heq
      exact ht hg
    · exact hf.locals hg n u hu

theorem addDecl (hf : f.Known given) {d : Decl} (hd : d.signature.type.Known) :
    (f.addDecl d).Known given := by
  unfold Frame.addDecl
  split
  · exact hf
  · exact ⟨List.forall_mem_cons.mpr ⟨hd, hf.decls⟩, hf.locals⟩

end Frame.Known

/-- A frame that names are looked up in is one of those kept. -/
theorem Stack.kept_of_mem_frames {s : Stack} {f : Frame} (hf : f ∈ s.frames) :
    ∃ k : Nat, s.record.frames[k]? = some f := by
  obtain ⟨k, -, hk⟩ := List.mem_filterMap.mp hf
  exact ⟨k, hk⟩

end Scope

namespace Check
open Scope (Frame)

variable {α β : Type} {given : Prop}

/-- Whether a problem leaves the type of an expression unknown. -/
def Problem.leavesUnknown : Problem → Bool
  | undefinedValue _ | undefinedFunction _ | calledLocal .. => true
  | _ => false

/-- Nothing was reported that leaves a type unknown. -/
def Certain (s : State) : Prop := ∀ q ∈ s.problems, q.value.leavesUnknown = false

/-- The types of functions are known and, as long as the state is certain, so are those of nodes and
of locals. -/
structure AllKnown (s : State) : Prop where
  frames : ∀ (k : Nat) (f : Frame), s.scopes.record.frames[k]? = some f → f.Known (Certain s)
  types : Certain s → ∀ id t, (id, t) ∈ s.types.entries → t.Known

theorem Certain.before {s s' : State} (h : Certain s') (hp : s.problems <:+ s'.problems) : Certain s :=
  fun q hq => h q (hp.subset hq)

theorem not_certain_report {problem : Problem} {span : Span} {s : State}
    (hl : problem.leavesUnknown = true) : ¬ Certain (after (report problem span) s) := by
  intro h
  have hq : problem.leavesUnknown = false := h ⟨problem, span⟩ List.mem_cons_self
  rw [hq] at hl
  cases hl

namespace AllKnown

variable {s : State}

theorem local? (h : AllKnown s) (hc : Certain s) {name : String} {t : Ty}
    (hl : s.scopes.local? name = some t) : t.Known := by
  obtain ⟨f, hf, hmem⟩ := exists_local hl
  obtain ⟨k, hk⟩ := Scope.Stack.kept_of_mem_frames hf
  exact (h.frames k f hk).locals hc name t hmem

theorem decl? (h : AllKnown s) {name : String} {d : Decl} (hd : s.scopes.decl? name = some d) :
    d.signature.type.Known := by
  obtain ⟨f, hf, hfind⟩ := List.exists_of_findSome?_eq_some hd
  obtain ⟨k, hk⟩ := Scope.Stack.kept_of_mem_frames hf
  exact (h.frames k f hk).decls d (List.mem_of_find?_eq_some hfind)

theorem report (h : AllKnown s) {act : Checker α} (hr : Reports act) : AllKnown (after act s) := by
  obtain ⟨new, hnew⟩ := hr s
  have hcertain : Certain (after act s) → Certain s :=
    fun hc => hc.before (hr.grows true s).problems
  rw [hnew] at hcertain ⊢
  exact ⟨fun k f hk => ⟨(h.frames k f hk).decls, fun hc => (h.frames k f hk).locals (hcertain hc)⟩,
    fun hc => h.types (hcertain hc)⟩

theorem record (h : AllKnown s) {t : Ty} (ht : Certain s → t.Known) (id : NodeId) :
    AllKnown (after (record id t) s) where
  frames := h.frames
  types hc i u hu := by
    rcases List.mem_cons.mp hu with heq | hu
    · cases heq
      exact ht hc
    · exact h.types hc i u hu

theorem push (h : AllKnown s) (boundary : Bool) :
    AllKnown { s with scopes := s.scopes.push boundary } where
  frames k f hk := by
    simp only [Scope.Stack.push, Array.getElem?_push] at hk
    split at hk
    · cases hk
      exact ⟨List.forall_mem_nil _, fun _ _ _ hmem => by cases hmem⟩
    · exact h.frames k f hk
  types := h.types

theorem leave (h : AllKnown s) : AllKnown { s with scopes := s.scopes.leave } where
  frames k f hk := h.frames k f (by rwa [Scope.Stack.frames_leave] at hk)
  types := h.types

theorem modifyTop (h : AllKnown s) {g : Frame → Frame}
    (hg : ∀ f : Frame, f.Known (Certain s) → (g f).Known (Certain s)) :
    AllKnown { s with scopes := s.scopes.modifyTop g } where
  frames k f hk := by
    unfold Scope.Stack.modifyTop at hk
    split at hk
    · exact h.frames k f hk
    · rw [Array.getElem?_modify] at hk
      split at hk
      · obtain ⟨f₀, hf₀, rfl⟩ := Option.map_eq_some_iff.mp hk
        exact hg f₀ (h.frames k f₀ hf₀)
      · exact h.frames k f hk
  types := h.types

end AllKnown

/-- A step that keeps types known, given what it needs as long as nothing leaves a type unknown; what
it gives is then good. -/
structure Keeps (given : Prop) (act : Checker α) (good : α → Prop) : Prop where
  problems : ∀ s, s.problems <:+ (after act s).problems
  known : ∀ s, AllKnown s → (Certain s → given) →
    AllKnown (after act s) ∧ (Certain (after act s) → good (value act s))

namespace Keeps

variable {good : α → Prop} {act : Checker α}

theorem weaken {given' : Prop} (h : Keeps given act good) (hg : given' → given) :
    Keeps given' act good where
  problems := h.problems
  known s hs hgiven := h.known s hs fun hc => hg (hgiven hc)

/-- A step that only reports problems keeps types known. -/
theorem reports (hr : Reports act)
    (hv : ∀ s, AllKnown s → Certain (after act s) → given → good (value act s)) :
    Keeps given act good where
  problems s := (hr.grows true s).problems
  known s hs hgiven :=
    ⟨hs.report hr, fun hc => hv s hs hc (hgiven (hc.before (hr.grows true s).problems))⟩

theorem pure {a : α} (ha : given → good a) : Keeps given (Pure.pure a) good :=
  .reports (.pure a) fun _ _ _ => ha

theorem bind {good' : β → Prop} {f : α → Checker β} (h : Keeps given act good)
    (hf : ∀ a, Keeps (given ∧ good a) (f a) good') : Keeps given (act >>= f) good' where
  problems s := (h.problems s).trans ((hf _).problems _)
  known s hs hgiven := by
    obtain ⟨hs', hgood⟩ := h.known s hs hgiven
    exact (hf _).known _ hs' fun hc => ⟨hgiven (hc.before (h.problems s)), hgood hc⟩

theorem forM {f : β → Checker Unit} {bs : List β} (hf : ∀ b ∈ bs, Keeps given (f b) fun _ => True) :
    Keeps given (bs.forM f) fun _ => True := by
  induction bs with
  | nil => exact .pure fun _ => trivial
  | cons b bs ih =>
    obtain ⟨hb, hbs⟩ := List.forall_mem_cons.mp hf
    exact hb.bind fun _ => (ih hbs).weaken And.left

theorem record (id : NodeId) (t : Ty) : Keeps t.Known (Check.record id t) fun _ => True where
  problems _ := List.suffix_refl _
  known _ hs ht := ⟨hs.record ht id, fun _ => trivial⟩

theorem recorded {find : Checker Ty} (id : NodeId) (h : Keeps given find Ty.Known) :
    Keeps given (Check.recorded id find) Ty.Known :=
  h.bind fun t => ((record id t).weaken And.right).bind fun _ => .pure fun h => h.1.2

theorem within (owner : Owner) (h : Keeps given act good) : Keeps given (Check.within owner act) good where
  problems s := h.problems (s.into owner)
  known s hs hgiven := by
    obtain ⟨hs', hgood⟩ := h.known (s.into owner) ⟨hs.frames, hs.types⟩ hgiven
    exact ⟨⟨hs'.frames, hs'.types⟩, hgood⟩

theorem inScope (h : Keeps given act good) : Keeps given (Check.inScope act) good where
  problems s := h.problems { s with scopes := s.scopes.enter }
  known _ hs hgiven := (h.known _ (hs.push false) hgiven).imp_left AllKnown.leave

theorem inFunctionScope (h : Keeps given act good) : Keeps given (Check.inFunctionScope act) good where
  problems s := h.problems { s with scopes := s.scopes.enterFunction }
  known _ hs hgiven := (h.known _ (hs.push true) hgiven).imp_left AllKnown.leave

theorem bindName (name : Ident) (t : Ty) (taken : Problem) :
    Keeps t.Known (Check.bind name t taken) fun _ => True where
  problems s := (grows_bind name t taken s).problems
  known _ hs ht :=
    ⟨(hs.modifyTop fun _ hf => hf.addLocal ht name.text).report (.reportIf _ _ _), fun _ => trivial⟩

theorem declare {h : Header} (hh : h.Sound) : Keeps given (Check.declare h) fun _ => True where
  problems := suffix_declare h
  known _ hs _ :=
    ⟨(hs.modifyTop fun _ hf => hf.addDecl (d := h.decl) hh.known).report (.reportIf _ _ _), fun _ => trivial⟩

theorem declareItems {is : List Item} (h : ∀ i ∈ is, ∀ f ∈ i.headers, f.Sound) :
    Keeps given (Check.declareItems is) fun _ => True := by
  refine .forM ?_
  intro f hf
  obtain ⟨i, hi, hf⟩ := List.mem_flatMap.mp hf
  exact .declare (h i hi f hf)

theorem bindParams {h : Header} (hh : h.Sound) : Keeps given (Check.bindParams h) fun _ => True := by
  refine .forM ?_
  rintro ⟨name, t⟩ hmem
  have ht : t.Known := (isUnsupported_signature hh).1 t (List.of_mem_zip hmem).2
  exact (bindName name t _).weaken fun _ => ht

end Keeps

theorem known_literal (l : Literal) : l.type.Known := by
  cases l <;> rfl

theorem keeps_path (name : Ident) : Keeps given (path name) Ty.Known := by
  refine .reports (reports_path name) ?_
  intro s hs hc _
  obtain ⟨t, hl, hv, hafter⟩ | ⟨-, ⟨d, hd, hv, -⟩ | ⟨-, -, hafter⟩⟩ := path_cases name s
  · rw [hv]
    exact hs.local? (hafter ▸ hc) hl
  · rw [hv]
    exact hs.decl? hd
  · rw [hafter] at hc
    exact absurd hc (not_certain_report rfl)

theorem keeps_unary (op : UnaryOp) (span : Span) (t : Ty) : Keeps t.Known (unary op span t) Ty.Known :=
  .reports (reports_unary op span t) fun _ _ _ ht => ht

theorem keeps_assignment (target value : Expr) (l r : Ty) :
    Keeps given (assignment target value l r) Ty.Known := by
  refine .reports (reports_assignment target value l r) fun s _ _ _ => ?_
  rw [value_assignment]
  rfl

theorem keeps_binary (op : BinaryOp) (span : Span) (l r : Ty) :
    Keeps (l.Known ∧ r.Known) (binary op span l r) Ty.Known := by
  refine .reports (reports_binary op span l r) ?_
  rintro s - - ⟨hl, hr⟩
  rw [value_binary, operandType]
  split
  · rfl
  · split
    · exact hr
    · exact hl

theorem keeps_call (callee : Ident) (span : Span) (args : List Expr) (types : List Ty) :
    Keeps given (call callee span args types) Ty.Known := by
  refine .reports (reports_call callee span args types) ?_
  intro s hs hc _
  obtain ⟨t, -, -, hafter⟩ | ⟨-, ⟨-, -, hafter⟩ | ⟨d, hd, hv, -⟩⟩ := call_cases callee span args types s
  · rw [hafter] at hc
    exact absurd hc (not_certain_report rfl)
  · rw [hafter] at hc
    exact absurd hc (not_certain_report rfl)
  · have hknown := hs.decl? hd
    rw [Ty.Known, Signature.type, Ty.hasUnknown, Bool.or_eq_false_iff] at hknown
    rw [hv]
    exact hknown.2

theorem keeps_returned (span : Span) (t : Ty) : Keeps given (returned span t) Ty.Known :=
  .reports (reports_returned span t) fun s _ _ _ => congrArg Ty.hasUnknown (value_returned span t s)

theorem keeps_truth (span : Span) (t : Ty) : Keeps given (truth span t) fun _ => True :=
  .reports (.reportIf _ _ _) fun _ _ _ _ => trivial

theorem keeps_withoutElse (yes : Block) (t : Ty) : Keeps given (withoutElse yes t) Ty.Known :=
  .reports (reports_withoutElse yes t) fun _ _ _ _ => rfl

theorem keeps_branches (yesReturns : Bool) (yes : Ty) (noReturns : Bool) (span : Span) (no : Ty) :
    Keeps (yes.Known ∧ no.Known) (branches yesReturns yes noReturns span no) Ty.Known := by
  refine .reports (reports_branches yesReturns yes noReturns span no) ?_
  rintro s - - ⟨hy, hn⟩
  unfold branches
  split
  · exact hn
  · split <;> exact hy

theorem keeps_tail {b : Block} {e : Expr} (hb : b.tail = some e) (t : Ty) :
    Keeps t.Known (blockType b (some t)) Ty.Known := by
  refine .reports (reports_blockType b (some t)) fun s _ _ ht => ?_
  have hnone : b.trailingReturn? = none := by
    unfold Block.trailingReturn?
    rw [hb]
  rw [value_blockType, hnone]
  exact ht

/-- What a block returns last is one of its statements, so it has a type behind them. -/
theorem returned_noted {b : Block} {v : Expr} (s : State)
    (hv : b.trailingReturn? = some (some v)) :
    ∃ t, (after (stmts b.stmts) s).types.get? v.id = some t ∧
      (v.id, t) ∈ (after (stmts b.stmts) s).types.entries := by
  obtain ⟨new, hnew, hp⟩ := (stmts_grows b.stmts s).types
  have hkey : v.id ∈ new.map Prod.fst := hp.mem_iff.mpr (mem_ids (Block.returned_mem_nodes hv))
  have hsome : ((after (stmts b.stmts) s).types.get? v.id).isSome := by
    rw [TypeTable.get?, List.lookup_isSome_iff]
    obtain ⟨⟨i, t⟩, hmem, heq⟩ := List.mem_map.mp hkey
    exact ⟨_, hnew ▸ List.mem_append_left _ hmem, beq_iff_eq.mpr heq.symm⟩
  obtain ⟨t, ht⟩ := Option.isSome_iff_exists.mp hsome
  obtain ⟨l₁, l₂, heq, -⟩ := List.lookup_eq_some_iff.mp ht
  exact ⟨t, ht, heq ▸ List.mem_append_right _ List.mem_cons_self⟩

theorem keeps_returning {id : NodeId} {span : Span} {is : List Item} {ss : List Stmt}
    (h : Keeps given (stmts ss) fun _ => True) :
    Keeps given (do stmts ss; blockType (.mk id span is ss none) none) Ty.Known where
  problems s := (h.problems s).trans ((reports_blockType _ _).grows true _).problems
  known s hs hgiven := by
    have hs' := (h.known s hs hgiven).1
    have hr := reports_blockType (.mk id span is ss none) none
    refine ⟨hs'.report hr, fun hc => ?_⟩
    have hc' : Certain (after (stmts ss) s) := hc.before (hr.grows true _).problems
    rw [value_bind, value_blockType]
    rcases hreturn : (Block.mk id span is ss none).trailingReturn? with _ | _ | v
    · rfl
    · rfl
    · obtain ⟨t, ht, hmem⟩ := returned_noted s hreturn
      have hknown : t.Known := hs'.types hc' v.id t hmem
      have hlast : ((after (stmts ss) s).types.get? v.id).getD .unknown = t :=
        congrArg (·.getD .unknown) ht
      dsimp only
      rw [hlast]
      exact hknown

theorem keeps_binding (id : NodeId) (name : Ident) {declared : Option Ty} (init : Expr) (t : Ty)
    (hd : ∀ u, declared = some u → u.Known) :
    Keeps t.Known (binding id name declared init t) fun _ => True := by
  have hbound : ∀ bound : Ty, Keeps bound.Known
      (do record id bound; bind name bound (.repeatedLocal name.text)) fun _ => True :=
    fun bound => (Keeps.record id bound).bind fun _ => (Keeps.bindName name bound _).weaken And.left
  cases declared with
  | none => exact hbound t
  | some expected =>
    have hcheck : Keeps t.Known (reportIf (!t.fits expected) (.mismatch expected t) init.span)
        fun _ => True := .reports (.reportIf _ _ _) fun _ _ _ _ => trivial
    exact hcheck.bind fun _ => (hbound expected).weaken fun _ => hd expected rfl

theorem sound_headers {is : List Item} (h : AllSound (itemNodes is)) :
    ∀ i ∈ is, ∀ f ∈ i.headers, f.Sound :=
  fun _ hi => h _ (item_mem_nodes hi)

mutual
theorem expr_keeps : ∀ (e : Expr) {given : Prop}, AllSound e.nodes → Keeps given (expr e) Ty.Known
  | .literal id _ value, _, _ => by
    rw [expr]
    exact .recorded id (.pure fun _ => known_literal value)
  | .path id _ name, _, _ => by
    rw [expr]
    exact .recorded id (keeps_path name)
  | .grouped id _ inner, _, h => by
    rw [Expr.nodes, allSound_cons] at h
    rw [expr]
    exact .recorded id (expr_keeps inner h.2)
  | .unary id span op operand, _, h => by
    rw [Expr.nodes, allSound_cons] at h
    rw [expr]
    exact .recorded id ((expr_keeps operand h.2).bind fun t =>
      (keeps_unary op span t).weaken And.right)
  | .binary id span op lhs rhs, _, h => by
    rw [Expr.nodes, allSound_cons, allSound_append] at h
    rw [expr]
    refine .recorded id ((expr_keeps lhs h.2.1).bind fun l =>
      (expr_keeps rhs h.2.2).bind fun r => ?_)
    split
    · exact keeps_assignment lhs rhs l r
    · exact (keeps_binary op span l r).weaken fun h => ⟨h.1.2, h.2⟩
  | .call id span callee args, _, h => by
    rw [Expr.nodes, allSound_cons] at h
    rw [expr]
    exact .recorded id ((exprs_keeps args h.2).bind fun ts => keeps_call callee span args ts)
  | .ret id span none, _, _ => by
    rw [expr]
    exact .recorded id (keeps_returned span .unit)
  | .ret id _ (some value), _, h => by
    rw [Expr.nodes, allSound_cons] at h
    rw [expr]
    exact .recorded id ((expr_keeps value h.2).bind fun t => keeps_returned value.span t)
  | .block id _ body, _, h => by
    rw [Expr.nodes, allSound_cons] at h
    rw [expr]
    exact .recorded id (block_keeps body h.2)
  | .loop id _ body, _, h => by
    rw [Expr.nodes, allSound_cons] at h
    rw [expr]
    exact .recorded id ((block_keeps body h.2).bind fun _ => .pure fun _ => rfl)
  | .while id _ c body, _, h => by
    rw [Expr.nodes, allSound_cons, allSound_append] at h
    rw [expr]
    exact .recorded id ((expr_keeps c h.2.1).bind fun t => (keeps_truth c.span t).bind fun _ =>
      (block_keeps body h.2.2).bind fun _ => .pure fun _ => rfl)
  | .cond id _ links, _, h => by
    rw [Expr.nodes, allSound_cons] at h
    rw [expr]
    exact .recorded id (cond_keeps links h.2)

theorem exprs_keeps :
    ∀ (es : List Expr) {given : Prop}, AllSound (exprNodes es) → Keeps given (exprs es) fun _ => True
  | [], _, _ => by
    rw [exprs]
    exact .pure fun _ => trivial
  | e :: es, _, h => by
    rw [exprNodes, allSound_append] at h
    rw [exprs]
    exact (expr_keeps e h.1).bind fun _ =>
      (exprs_keeps es h.2).bind fun _ => .pure fun _ => trivial

theorem cond_keeps : ∀ (c : Cond) {given : Prop}, AllSound c.nodes → Keeps given (cond c) Ty.Known
  | .only c yes, _, h => by
    rw [Cond.nodes, allSound_append] at h
    rw [cond]
    exact (expr_keeps c h.1).bind fun t => (keeps_truth c.span t).bind fun _ =>
      (block_keeps yes h.2).bind fun y => keeps_withoutElse yes y
  | .orElse c yes no, _, h => by
    rw [Cond.nodes, allSound_append, allSound_append] at h
    rw [cond]
    exact (expr_keeps c h.1.1).bind fun t => (keeps_truth c.span t).bind fun _ =>
      (block_keeps yes h.1.2).bind fun y =>
      (block_keeps no h.2).bind fun n =>
      (keeps_branches yes.endsInReturn y no.endsInReturn no.span n).weaken fun h => ⟨h.1.2, h.2⟩
  | .orIf c yes no, _, h => by
    rw [Cond.nodes, allSound_append, allSound_append] at h
    rw [cond]
    exact (expr_keeps c h.1.1).bind fun t => (keeps_truth c.span t).bind fun _ =>
      (block_keeps yes h.1.2).bind fun y =>
      (cond_keeps no h.2).bind fun n =>
      (keeps_branches yes.endsInReturn y false (no.cond.span.join no.yes.span) n).weaken
        fun h => ⟨h.1.2, h.2⟩

theorem block_keeps : ∀ (b : Block) {given : Prop}, AllSound b.nodes → Keeps given (block b) Ty.Known
  | .mk id span is ss none, _, h => by
    rw [Block.nodes, allSound_cons, allSound_append] at h
    rw [block]
    exact .recorded id <| .inScope <| (Keeps.declareItems (sound_headers h.2.1)).bind fun _ =>
      (items_keeps is h.2.1).bind fun _ =>
      keeps_returning (stmts_keeps ss h.2.2)
  | .mk id span is ss (some e), _, h => by
    rw [Block.nodes, allSound_cons, allSound_append, allSound_append] at h
    rw [block]
    exact .recorded id <| .inScope <| (Keeps.declareItems (sound_headers h.2.1.1)).bind fun _ =>
      (items_keeps is h.2.1.1).bind fun _ =>
      (stmts_keeps ss h.2.1.2).bind fun _ =>
      (expr_keeps e h.2.2).bind fun t =>
      (keeps_tail rfl t).weaken And.right

theorem stmts_keeps :
    ∀ (ss : List Stmt) {given : Prop}, AllSound (stmtNodes ss) → Keeps given (stmts ss) fun _ => True
  | [], _, _ => by
    rw [stmts]
    exact .pure fun _ => trivial
  | stmt :: ss, _, h => by
    rw [stmtNodes, allSound_append] at h
    rw [stmts]
    exact (stmt_keeps stmt h.1).bind fun _ => (stmts_keeps ss h.2)

theorem stmt_keeps :
    ∀ (stmt : Stmt) {given : Prop}, AllSound stmt.nodes → Keeps given (Check.stmt stmt) fun _ => True
  | .bind id _ name declared init, _, h => by
    rw [Stmt.nodes, allSound_cons] at h
    rw [Check.stmt]
    exact (expr_keeps init h.2).bind fun t => (keeps_binding id name init t h.1).weaken And.right
  | .expr _ value _, _, h => by
    rw [Stmt.nodes, allSound_cons] at h
    rw [Check.stmt]
    exact (expr_keeps value h.2).bind fun _ => .pure fun _ => trivial

theorem items_keeps :
    ∀ (is : List Item) {given : Prop}, AllSound (itemNodes is) → Keeps given (items is) fun _ => True
  | [], _, _ => by
    rw [items]
    exact .pure fun _ => trivial
  | i :: is, _, h => by
    rw [itemNodes, allSound_append] at h
    rw [items]
    exact (item_keeps i h.1).bind fun _ => (items_keeps is h.2)

theorem item_keeps : ∀ (i : Item) {given : Prop}, AllSound i.nodes → Keeps given (item i) fun _ => True
  | .function h body, _, hs => by
    rw [Item.nodes, allSound_cons] at hs
    rw [item]
    exact .within _ <| .inFunctionScope <| (Keeps.bindParams (hs.1 h List.mem_cons_self)).bind fun _ =>
      (block_keeps body hs.2).bind fun t =>
      .reports (reports_functionBody h body t) fun _ _ _ _ => trivial
  | .foreign .., _, _ => by
    rw [item]
    exact .pure fun _ => trivial
end

theorem Problem.leavesUnknown_iff (q : Problem) :
    q.leavesUnknown = true ↔ q.code = .undefinedSymbol ∨ ∃ name t, q = .calledLocal name t := by
  cases q <;> simp [leavesUnknown, code]

theorem Problem.isError_diagnostic (q : Located Problem) : (diagnostic q).isError = true := by
  obtain ⟨q, span⟩ := q
  cases q <;> rfl

theorem allKnown_empty : AllKnown {} where
  frames k f hf := by simp at hf
  types _ id t ht := by cases ht

theorem allKnown_program {p : Program} (h : AllSound p.nodes) : AllKnown (after (program p) {}) := by
  have hkeeps : Keeps True (program p) fun _ => True :=
    .inScope <| (Keeps.declareItems (sound_headers h)).bind fun _ => items_keeps p.items h
  exact (hkeeps.known {} allKnown_empty fun _ => trivial).1

/-- Where a type of a node, or of a local in a frame, stays unknown, a name that stands for nothing was
reported or the call of a local. So without an error each type is known. -/
theorem run_known {tokens : List Token} {p : Program}
    (h : Parse.run Parse.program tokens = ⟨.ok p, []⟩) :
    ((∃ id t, (run p).1.types.get? id = some t ∧ t.hasUnknown = true) ∨
        (∃ f ∈ (run p).1.record.frames, ∃ name t, (name, t) ∈ f.locals ∧ t.hasUnknown = true) →
      ∃ q ∈ (run p).2, q.value.code = .undefinedSymbol ∨ ∃ name t, q.value = .calledLocal name t) ∧
    ((∀ q ∈ (run p).2, (Problem.diagnostic q).isError = false) →
      (∀ n id, p.Holds n → n.id? = some id → ∃ t, (run p).1.types.get? id = some t ∧ t.Known) ∧
      ∀ f ∈ (run p).1.record.frames,
        (∀ name t, (name, t) ∈ f.locals → t.Known) ∧ ∀ d ∈ f.decls, d.signature.type.Known) := by
  have hall := allKnown_program (Parse.allSound_of_run h)
  have hproblems : (run p).2 = (after (program p) {}).problems.reverse := rfl
  have htypes : Certain (after (program p) {}) →
      ∀ id t, (run p).1.types.get? id = some t → t.Known := by
    intro hc id t ht
    obtain ⟨l₁, l₂, heq, -⟩ := List.lookup_eq_some_iff.mp ht
    exact hall.types hc id t (heq ▸ List.mem_append_right _ List.mem_cons_self)
  have hframes : ∀ f ∈ (run p).1.record.frames, f.Known (Certain (after (program p) {})) := by
    intro f hf
    obtain ⟨k, hk⟩ := Array.mem_iff_getElem?.mp hf
    exact hall.frames k f hk
  constructor
  · intro hunknown
    by_contra hnone
    have hc : Certain (after (program p) {}) := by
      intro q hq
      rw [Bool.eq_false_iff]
      intro hl
      exact hnone ⟨q, hproblems ▸ List.mem_reverse.mpr hq, q.value.leavesUnknown_iff.mp hl⟩
    rcases hunknown with ⟨id, t, ht, hu⟩ | ⟨f, hf, name, t, ht, hu⟩
    · rw [htypes hc id t ht] at hu
      cases hu
    · rw [(hframes f hf).locals hc name t ht] at hu
      cases hu
  · intro hnone
    have hc : Certain (after (program p) {}) := by
      intro q hq
      have herror := hnone q (hproblems ▸ List.mem_reverse.mpr hq)
      rw [Problem.isError_diagnostic] at herror
      cases herror
    refine ⟨?_, fun f hf => ⟨(hframes f hf).locals hc, (hframes f hf).decls⟩⟩
    intro n id hn hid
    obtain ⟨t, ht⟩ := Option.isSome_iff_exists.mp ((isSome_get?_iff p id).mpr ⟨n, hn, hid⟩)
    exact ⟨t, ht, htypes hc id t ht⟩

/-- A name that stands for nothing leaves itself unknown, the local bound to it, and a block that returns
that local. -/
theorem run_known_undefined : ∃ p,
    Parse.run Parse.program (Lexer.read 0
        "fn f() -> i32 \x7b let x = y; let z = \x7b return x; \x7d; z(); return 1; \x7d").tokens = ⟨.ok p, []⟩ ∧
      (∃ id t, (run p).1.types.get? id = some t ∧ t.hasUnknown = true) ∧
      (∃ f ∈ (run p).1.record.frames, ∃ name t, (name, t) ∈ f.locals ∧ t.hasUnknown = true) ∧
      ∃ q ∈ (run p).2, q.value.code = .undefinedSymbol ∨ ∃ name t, q.value = .calledLocal name t := by
  have hunknown : (Parse.run Parse.program (Lexer.read 0
      "fn f() -> i32 \x7b let x = y; let z = \x7b return x; \x7d; z(); return 1; \x7d").tokens).result.toOption.map
        (fun p => ((run p).1.types.get? 2, ((run p).1.record.frames[2]?).map Scope.Frame.locals)) =
      some (some .unknown, some [("z", .unknown), ("x", .unknown)]) := by
    decide +kernel
  have hproblems : (Parse.run Parse.program (Lexer.read 0
      "fn f() -> i32 \x7b let x = y; let z = \x7b return x; \x7d; z(); return 1; \x7d").tokens).problems = [] := by
    decide +kernel
  obtain ⟨p, hrun, hsome⟩ := Parse.Outcome.exists_ok hunknown
  rw [hproblems] at hrun
  rw [Prod.mk.injEq, Option.map_eq_some_iff] at hsome
  obtain ⟨htype, f, hf, hlocals⟩ := hsome
  have hnode : ∃ id t, (run p).1.types.get? id = some t ∧ t.hasUnknown = true :=
    ⟨2, .unknown, htype, rfl⟩
  have hframe : ∃ f ∈ (run p).1.record.frames, ∃ name t, (name, t) ∈ f.locals ∧ t.hasUnknown = true :=
    ⟨f, Array.mem_of_getElem? hf, "z", .unknown, hlocals ▸ List.mem_cons_self, rfl⟩
  exact ⟨p, hrun, hnode, hframe, (run_known hrun).1 (.inl hnode)⟩

end Check
end Ferrite
