import Ferrite.Proofs.Check.Accepted
import Ferrite.Proofs.Tree.Parts

/-!
The types that checking notes are complete, whatever is wrong with a program: each expression, block
and `let` statement gets one, once, and nothing else does.
-/

namespace Ferrite

/-- The numbers of a tree are those of its functions and those that checking notes types for. -/
theorem numbers_perm (ns : List Node) :
    (numbers ns).Perm (ids ns ++ ((ns.filterMap Node.item?).flatMap Item.headers).map Header.id) := by
  induction ns with
  | nil => exact .refl _
  | cons n ns ih =>
    rw [numbers_cons]
    rcases n with e | b | (⟨id, span, name, type, init⟩ | ⟨span, value, semi⟩) | i
    · exact ih.cons e.id
    · exact ih.cons b.id
    · exact ih.cons id
    · exact ih
    · rw [ids_item, List.filterMap_cons, Node.item?, List.flatMap_cons, List.map_append]
      exact (ih.append_left _).trans (List.perm_append_comm_assoc _ _ _)

namespace Check

/-- The types noted are those of the expressions, blocks and `let` statements of the program. -/
theorem isSome_get?_iff (p : Program) (id : NodeId) :
    ((run p).1.types.get? id).isSome ↔ ∃ n, p.Holds n ∧ n.id? = some id := by
  have hkeys : ((run p).1.types.entries.map Prod.fst).Perm p.ids := types_run p
  have hmem : ((run p).1.types.get? id).isSome ↔ id ∈ p.ids := by
    rw [← hkeys.mem_iff, TypeTable.get?, List.lookup_isSome_iff, List.mem_map]
    simp only [beq_iff_eq, @eq_comm _ id]
  rw [hmem, Program.ids, List.mem_filterMap]
  simp only [Program.mem_nodes_iff]

/-- After checking a parsed program, whatever was wrong with it, each of its expressions, blocks and
`let` statements has a type, and nothing else. The table keeps all that was written to it, so no type
was written twice. -/
theorem run_types {tokens : List Token} {p : Program} {problems : List (Located Parse.Problem)}
    (h : Parse.run Parse.program tokens = ⟨.ok p, problems⟩) :
    (∀ id, ((run p).1.types.get? id).isSome ↔ ∃ n, p.Holds n ∧ n.id? = some id) ∧
      ((run p).1.types.entries.map Prod.fst).Perm p.ids ∧
      ((run p).1.types.entries.map Prod.fst).Nodup ∧
      ∀ f ∈ p.headers, (run p).1.types.get? f.id = none := by
  have hkeys : ((run p).1.types.entries.map Prod.fst).Perm p.ids := types_run p
  have hnodup : (ids p.nodes ++ p.headers.map Header.id).Nodup :=
    (numbers_perm p.nodes).nodup_iff.mp (Parse.numbers_nodup h)
  obtain ⟨hids, -, hapart⟩ := List.nodup_append.mp hnodup
  refine ⟨isSome_get?_iff p, hkeys, hkeys.nodup_iff.mpr hids, ?_⟩
  intro f hf
  rw [← Option.not_isSome_iff_eq_none, isSome_get?_iff]
  rintro ⟨n, hn, hid⟩
  have hmem : f.id ∈ ids p.nodes := List.mem_filterMap.mpr ⟨n, Program.mem_nodes_iff.mpr hn, hid⟩
  exact hapart f.id hmem f.id (List.mem_map_of_mem hf) rfl

/-- A `let` that is malformed, names that stand for nothing, an assignment to a number: all that is left
of the text has a type. The functions are numbered 0 and 5. -/
theorem run_types_mistakes : ∃ p problems,
    Parse.run Parse.program (Lexer.read 0
        "fn f(a: i32) \x7b let x = y; let = 3; fn g() -> bool \x7b return h(x, 1.5); \x7d 1 = a; g(x) \x7d").tokens =
      ⟨.ok p, problems⟩ ∧
      problems.length = 1 ∧ (run p).2.length = 6 ∧ p.ids = [1, 6, 10, 9, 7, 8, 2, 3, 13, 11, 12, 15, 14] ∧
      (∀ id, ((run p).1.types.get? id).isSome ↔ ∃ n, p.Holds n ∧ n.id? = some id) ∧
      ((run p).1.types.entries.map Prod.fst).Perm p.ids ∧
      ((run p).1.types.entries.map Prod.fst).Nodup ∧
      p.headers.map Header.id = [0, 5] ∧ ∀ f ∈ p.headers, (run p).1.types.get? f.id = none := by
  have hcounts : (Parse.run Parse.program (Lexer.read 0
      "fn f(a: i32) \x7b let x = y; let = 3; fn g() -> bool \x7b return h(x, 1.5); \x7d 1 = a; g(x) \x7d").tokens).result.toOption.map
        (fun p => ((run p).2.length, p.ids, p.headers.map Header.id)) =
      some (6, [1, 6, 10, 9, 7, 8, 2, 3, 13, 11, 12, 15, 14], [0, 5]) := by
    decide +kernel
  have hproblems : (Parse.run Parse.program (Lexer.read 0
      "fn f(a: i32) \x7b let x = y; let = 3; fn g() -> bool \x7b return h(x, 1.5); \x7d 1 = a; g(x) \x7d").tokens).problems.length = 1 := by
    decide +kernel
  obtain ⟨p, hrun, hsome⟩ := Parse.Outcome.exists_ok hcounts
  rw [Prod.mk.injEq, Prod.mk.injEq] at hsome
  obtain ⟨hreports, hids, hheaders⟩ := hsome
  obtain ⟨hkeys, hperm, hnodup, hnone⟩ := run_types hrun
  exact ⟨p, _, hrun, hproblems, hreports, hids, hkeys, hperm, hnodup, hheaders, hnone⟩

end Check
end Ferrite
