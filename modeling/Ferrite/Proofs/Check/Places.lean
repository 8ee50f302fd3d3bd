import Ferrite.Proofs.Check.Growth
import Ferrite.Proofs.Tree.Places

/-!
Where checking puts what it reports: at a node of the tree, at a name in one, or, for two branches that do
not go together, from the condition of the second to the end of its block.
-/

namespace Ferrite.Check

variable {ok : Span → Prop}

/-- What the step adds to the problems is at allowed places. -/
def Points (ok : Span → Prop) {α : Type} (act : Checker α) : Prop :=
  ∀ s, (∀ q ∈ s.problems, ok q.span) → ∀ q ∈ (after act s).problems, ok q.span

namespace Points

variable {α β : Type}

theorem pure (a : α) : Points ok (pure a : Checker α) := fun _ h => h

theorem bind {p : Checker α} {f : α → Checker β} (hp : Points ok p) (hf : ∀ a, Points ok (f a)) :
    Points ok (p >>= f) := fun s h => hf _ _ (hp s h)

/-- A step that changes other parts of the state. -/
theorem modify {f : State → State} (h : ∀ s, (f s).problems = s.problems) :
    Points ok (modify f : Checker Unit) := by
  intro s hs
  rw [after_modify, h]
  exact hs

theorem report (problem : Problem) {span : Span} (h : ok span) : Points ok (report problem span) :=
  fun _ hs => List.forall_mem_cons.mpr ⟨h, hs⟩

theorem within (owner : Owner) {p : Checker α} (hp : Points ok p) : Points ok (within owner p) :=
  .bind (.modify fun _ => rfl) fun _ => .bind hp fun _ => .bind (.modify fun _ => rfl) fun _ => .pure _

theorem inScope {p : Checker α} (hp : Points ok p) : Points ok (inScope p) :=
  .bind (.modify fun _ => rfl) fun _ => .bind hp fun _ => .bind (.modify fun _ => rfl) fun _ => .pure _

theorem inFunctionScope {p : Checker α} (hp : Points ok p) : Points ok (inFunctionScope p) :=
  .bind (.modify fun _ => rfl) fun _ => .bind hp fun _ => .bind (.modify fun _ => rfl) fun _ => .pure _

theorem owner? : Points ok owner? := fun _ h => h

theorem local? (name : String) : Points ok (local? name) := fun _ h => h

theorem decl? (name : String) : Points ok (decl? name) := fun _ h => h

theorem blockType (b : Block) (tail : Option Ty) : Points ok (blockType b tail) := by
  unfold Check.blockType
  rcases b.trailingReturn? with _ | _ | value
  · exact pure _
  · exact pure _
  · exact fun _ h => h

theorem lockstep (hok : Places ok) : LockstepWalk ok id fun p _ => Points ok p where
  pure := pure
  bind := bind
  report := report
  owner? := owner?
  local? := local?
  decl? := decl?
  lawful := ⟨fun _ _ => rfl, fun _ => rfl⟩
  join := hok.join
  record _ _ := modify fun _ => rfl
  insertLocal _ _ _ h := h
  insertDecl _ _ h := h
  within owner _ _ h := within owner h
  inScope := inScope
  inFunctionScope := inFunctionScope
  returning h := bind h fun _ => blockType _ _

end Points

/-- What is reported of a program is at the places of its nodes and names, and over such places. -/
theorem run_points (hok : Places ok) {p : Program} (h : AllSit ok p.nodes) : ∀ q ∈ (run p).2, ok q.span := by
  have hprogram : Points ok (program p) := (Points.lockstep hok).program p fun n hn => (h n hn).spots
  intro q hq
  exact hprogram {} (by simp) q (List.mem_reverse.mp hq)

end Ferrite.Check
