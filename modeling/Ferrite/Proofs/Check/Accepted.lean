import Ferrite.Proofs.Check.Clean
import Ferrite.Proofs.Parse.Numbered

/-! Programs that are parsed and checked without a problem. -/

namespace Ferrite

/-- The functions that a program declares, at every depth. -/
def Program.headers (p : Program) : List Header := p.allItems.flatMap Item.headers

/-- The program that the tokens are parsed to, without a problem there or when it is checked. -/
structure Accepted (tokens : List Token) (p : Program) : Prop where
  parsed : Parse.run Parse.program tokens = ⟨.ok p, []⟩
  checked : (Check.run p).2 = []

/-- The program that the tokens are parsed to, if there is no problem with it. -/
def accepted? (tokens : List Token) : Option Program :=
  match Parse.run Parse.program tokens with
  | ⟨.ok p, []⟩ => if (Check.run p).2 = [] then some p else none
  | _ => none

theorem accepted?_eq_some {tokens : List Token} {p : Program} :
    accepted? tokens = some p ↔ Accepted tokens p := by
  unfold accepted?
  constructor
  · intro h
    split at h
    · rename_i q hq
      split at h
      · rename_i hc
        cases h
        exact ⟨hq, hc⟩
      · cases h
    · cases h
  · rintro ⟨hp, hc⟩
    rw [hp]
    exact if_pos hc

theorem lookup_of_mem {α β : Type} [BEq α] [LawfulBEq α] {l : List (α × β)} (h : (l.map Prod.fst).Nodup)
    {a : α} {b : β} (hmem : (a, b) ∈ l) : l.lookup a = some b := by
  induction l with
  | nil => cases hmem
  | cons x l ih =>
    obtain ⟨c, d⟩ := x
    rw [List.map_cons, List.nodup_cons] at h
    rcases List.mem_cons.mp hmem with heq | hmem
    · cases heq
      exact List.lookup_cons_self
    · have hne : a ≠ c := by
        intro heq
        have hin : a ∈ l.map Prod.fst := List.mem_map.mpr ⟨_, hmem, rfl⟩
        exact h.1 (heq ▸ hin)
      rw [List.lookup_cons, beq_false_of_ne hne]
      exact ih h.2 hmem

theorem Program.mem_headers {p : Program} {i : Item} (hi : .item i ∈ p.nodes) {h : Header}
    (hh : h ∈ i.headers) : h ∈ p.headers :=
  List.mem_flatMap.mpr ⟨i, List.mem_filterMap.mpr ⟨_, hi, rfl⟩, hh⟩

theorem Program.exists_item {p : Program} {h : Header} (hh : h ∈ p.headers) :
    ∃ i, .item i ∈ p.nodes ∧ h ∈ i.headers := by
  obtain ⟨i, hi, hh⟩ := List.mem_flatMap.mp hh
  obtain ⟨n, hn, hni⟩ := List.mem_filterMap.mp hi
  cases n with
  | item j =>
    cases hni
    exact ⟨i, hn, hh⟩
  | _ => cases hni

/-- After checking a parsed program, each entry of the table is the one that is found there. -/
theorem Check.noted_of_mem {tokens : List Token} {p : Program} {problems : List (Located Parse.Problem)}
    (h : Parse.run Parse.program tokens = ⟨.ok p, problems⟩) {id : NodeId} {t : Ty}
    (hmem : (id, t) ∈ (run p).1.types.entries) : (run p).1.types.get? id = some t := by
  have hkeys : ((run p).1.types.entries.map Prod.fst).Nodup :=
    (types_run p).nodup_iff.mpr ((Parse.numbers_nodup h).sublist (ids_sublist_numbers p.nodes))
  exact lookup_of_mem hkeys hmem

namespace Accepted
open Check

variable {tokens : List Token} {p : Program}

theorem nodup_numbers (h : Accepted tokens p) : (numbers p.nodes).Nodup := Parse.numbers_nodup h.parsed

theorem sound (h : Accepted tokens p) : AllSound p.nodes := Parse.allSound_of_run h.parsed

theorem settled (h : Accepted tokens p) : Settled (run p).1.types (after (items p.items) (start p)) where
  problems := List.reverse_eq_nil_iff.mp h.checked
  types _ _ hmem := noted_of_mem h.parsed hmem

variable {given : Prop}

/-- The nodes of an accepted program are allowed where they are visited. -/
theorem allowed (h : Accepted tokens p)
    (hgiven : given → ∀ v ∈ p.visits pass (start p), Supported v) :
    ∀ v ∈ p.visits pass (start p), Allowed given p.headers v := by
  intro v hv
  have hnode : v.node ∈ p.nodes := by
    rw [← p.map_node_visits pass (start p)]
    exact List.mem_map_of_mem hv
  refine ⟨h.sound _ hnode, ?_, fun hg => hgiven hg v hv⟩
  intro i hi header hheader
  exact p.mem_headers (hi ▸ hnode) hheader

theorem fineHeaders (h : Accepted tokens p)
    (hgiven : given → ∀ v ∈ p.visits pass (start p), Supported v) : FineHeaders given p.headers where
  sound header hh := by
    obtain ⟨i, hi, hh⟩ := p.exists_item hh
    exact h.sound _ hi header hh
  supported hg header hh := by
    obtain ⟨i, hi, hh⟩ := p.exists_item hh
    rw [← p.map_node_visits pass (start p)] at hi
    obtain ⟨v, hv, hvi⟩ := List.mem_map.mp hi
    have hs := hgiven hg v hv
    rw [Supported, hvi] at hs
    exact hs header hh

theorem ready (h : Accepted tokens p)
    (hgiven : given → ∀ v ∈ p.visits pass (start p), Supported v) :
    Ready given p.headers none (start p) := by
  have hempty : Ready given p.headers none {} := by
    refine ⟨Scope.Stack.valid_empty, ?_, rfl⟩
    intro k f hmem
    cases hmem
  exact hempty.block (h.allowed hgiven) (h.settled.before (items_grows p.items (start p)))

/-- An accepted program is clean. -/
theorem clean (h : Accepted tokens p)
    (hgiven : given → ∀ v ∈ p.visits pass (start p), Supported v) :
    ∀ v ∈ p.visits pass (start p), Clean (run p).1.types given p.headers v :=
  items_clean (h.fineHeaders hgiven) false p.items (start p) (h.ready hgiven) (h.allowed hgiven) h.settled

end Accepted
end Ferrite
