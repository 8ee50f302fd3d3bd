import Ferrite.Proofs.Check.Growth
import Ferrite.Proofs.Tree.Relabel

/-!
Checking the same tree at other places finds the same types and scopes, and the same problems at
those other places.
-/

namespace Ferrite.Check

variable {place : Span → Span}

def State.move (place : Span → Span) (s : State) : State :=
  { s with problems := s.problems.map (Located.relabel (.moved place)) }

/-- From the state with other places, the second step gives the same and comes to the same state
with other places. -/
def Carries (place : Span → Span) {α : Type} (p q : Checker α) : Prop :=
  ∀ s, value q (s.move place) = value p s ∧ after q (s.move place) = (after p s).move place

namespace Carries

variable {α β : Type}

theorem pure (a : α) : Carries place (pure a : Checker α) (pure a) := fun _ => ⟨rfl, rfl⟩

theorem bind {p q : Checker α} {f g : α → Checker β} (hp : Carries place p q)
    (hf : ∀ a, Carries place (f a) (g a)) : Carries place (p >>= f) (q >>= g) := by
  intro s
  obtain ⟨hvalue, hafter⟩ := hp s
  simp only [value_bind, after_bind, hvalue, hafter]
  exact hf _ _

theorem within (owner : Owner) {p q : Checker α} (hp : Carries place p q) :
    Carries place (within owner p) (within owner q) :=
  .bind (fun _ => ⟨rfl, rfl⟩) fun _ => .bind hp fun _ => .bind (fun _ => ⟨rfl, rfl⟩) fun _ => .pure _

theorem inScope {p q : Checker α} (hp : Carries place p q) :
    Carries place (inScope p) (inScope q) :=
  .bind (fun _ => ⟨rfl, rfl⟩) fun _ => .bind hp fun _ => .bind (fun _ => ⟨rfl, rfl⟩) fun _ => .pure _

theorem inFunctionScope {p q : Checker α} (hp : Carries place p q) :
    Carries place (inFunctionScope p) (inFunctionScope q) :=
  .bind (fun _ => ⟨rfl, rfl⟩) fun _ => .bind hp fun _ => .bind (fun _ => ⟨rfl, rfl⟩) fun _ => .pure _

theorem blockType (b : Block) (tail : Option Ty) :
    Carries place (blockType b tail) (blockType (b.relabel (.moved place)) tail) := by
  unfold Check.blockType
  rw [Block.relabel_trailingReturn?]
  rcases b.trailingReturn? with _ | _ | value
  · exact .pure _
  · exact .pure _
  · intro s
    simp only [Option.map_some, Expr.relabel_id]
    exact ⟨rfl, rfl⟩

theorem lockstep (hr : (Relabel.moved place).Lawful) : LockstepWalk (fun _ => True) place (Carries place) where
  pure := pure
  bind := bind
  report _ _ _ _ := ⟨rfl, rfl⟩
  owner? _ := ⟨rfl, rfl⟩
  local? _ _ := ⟨rfl, rfl⟩
  decl? _ _ := ⟨rfl, rfl⟩
  lawful := hr
  join _ _ _ _ := trivial
  record _ _ _ := ⟨rfl, rfl⟩
  insertLocal _ _ _ := ⟨rfl, rfl⟩
  insertDecl _ _ := ⟨rfl, rfl⟩
  within owner _ _ h := within owner h
  inScope := inScope
  inFunctionScope := inFunctionScope
  returning h := bind h fun _ => blockType _ _

end Carries

/-- What is known of a program does not depend on its places, and the problems are at theirs. -/
theorem run_relabel (hr : (Relabel.moved place).Lawful) (p : Program) :
    run (p.relabel (.moved place)) =
      ((run p).1, (run p).2.map (Located.relabel (.moved place))) := by
  have hprogram : Carries place (program p) (program (p.relabel (.moved place))) :=
    (Carries.lockstep hr).program p fun n _ => n.spots_anywhere
  obtain ⟨-, hafter⟩ := hprogram {}
  have hstart : ({} : State).move place = {} := rfl
  rw [hstart] at hafter
  unfold run
  rw [show ((program (p.relabel (.moved place))).run {}).2 = _ from hafter]
  simp [State.move, after]

end Ferrite.Check
