import Ferrite.Ty

/-!
When types are alike: if they are equal without the results of their functions, and no unknown type is
left in them.
-/

namespace Ferrite.Ty

mutual
/-- The type without the results of its functions, at every depth: each of them gives nothing. -/
def erased : Ty → Ty
  | .tuple parts => .tuple (erasedAll parts)
  | .function params _ => .function (erasedAll params) .unit
  | t => t

def erasedAll : List Ty → List Ty
  | [] => []
  | t :: ts => t.erased :: erasedAll ts
end

theorem hasUnknown_unit : unit.hasUnknown = false := rfl

mutual
theorem alike_iff : ∀ a b : Ty, a.alike b = true ↔ a.erased = b.erased ∧ a.erased.hasUnknown = false
  | .unknown, b | .bool, b | .str, b | .never, b => by cases b <;> simp [alike, erased, hasUnknown]
  | .int _, b | .float _, b => by cases b <;> simp [alike, erased, hasUnknown]
  | .tuple as, b => by cases b <;> simp [alike, erased, hasUnknown, allAlike_iff as]
  | .function as _, b => by
    cases b <;> simp [alike, erased, hasUnknown, hasUnknown_unit, allAlike_iff as]

theorem allAlike_iff : ∀ as bs : List Ty,
    allAlike as bs = true ↔ erasedAll as = erasedAll bs ∧ anyUnknown (erasedAll as) = false
  | [], bs => by cases bs <;> simp [allAlike, erasedAll, anyUnknown]
  | a :: as, [] => by simp [allAlike, erasedAll]
  | a :: as, b :: bs => by
    simp only [allAlike, erasedAll, anyUnknown, Bool.and_eq_true, List.cons.injEq, alike_iff a b, allAlike_iff as bs]
    rw [Bool.or_eq_false_iff, and_and_and_comm]
end

/-- An unknown type on either side is seen on both, since what is left of the types is equal. -/
theorem alike_symm {a b : Ty} (h : a.alike b = true) : b.alike a = true := by
  obtain ⟨heq, hknown⟩ := (alike_iff a b).mp h
  exact (alike_iff b a).mpr ⟨heq.symm, heq ▸ hknown⟩

theorem alike_trans {a b c : Ty} (h : a.alike b = true) (h' : b.alike c = true) : a.alike c = true := by
  obtain ⟨heq, hknown⟩ := (alike_iff a b).mp h
  obtain ⟨heq', -⟩ := (alike_iff b c).mp h'
  exact (alike_iff a c).mpr ⟨heq.trans heq', hknown⟩

theorem alike_self_iff (a : Ty) : a.alike a = true ↔ a.erased.hasUnknown = false := by
  rw [alike_iff, and_iff_right rfl]

/-- To be alike is equality without the results of functions, on the types without unknown ones. It is
symmetric and transitive, and a type is like itself if nothing in it is unknown but results. -/
theorem alike_up_to_results :
    (∀ a b : Ty, a.alike b = true ↔ a.erased = b.erased ∧ a.erased.hasUnknown = false) ∧
      (∀ a b : Ty, a.alike b = true → b.alike a = true) ∧
      (∀ a b c : Ty, a.alike b = true → b.alike c = true → a.alike c = true) ∧
      ∀ a : Ty, a.alike a = true ↔ a.erased.hasUnknown = false :=
  ⟨alike_iff, fun _ _ => alike_symm, fun _ _ _ => alike_trans, alike_self_iff⟩

/-- Functions that take functions, each with a result of its own; one result is unknown. -/
theorem alike_up_to_results_function :
    let takes (inner : Ty) (result : Ty) := Ty.function [.function [.int .i32] inner, .tuple [.bool]] result
    (takes .bool .unknown).alike (takes .unknown .str) = true ∧
      (takes .unknown .str).alike (takes .never .unit) = true ∧
      (takes .never .unit).alike (takes .bool .unknown) = true := by
  intro takes
  have first : (takes .bool .unknown).alike (takes .unknown .str) = true := rfl
  have second : (takes .unknown .str).alike (takes .never .unit) = true := rfl
  refine ⟨first, second, ?_⟩
  exact alike_up_to_results.2.1 _ _ (alike_up_to_results.2.2.1 _ _ _ first second)

end Ferrite.Ty
