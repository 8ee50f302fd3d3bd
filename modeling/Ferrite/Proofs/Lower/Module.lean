import Mathlib
import Ferrite.Proofs.Check.Growth
import Ferrite.Proofs.Lower.Growth

/-!
A whole program is lowered along the record of the program's own scopes: along any other record
lowering fails, and along the one that checking the program made it never gives up on the record.
-/

namespace Ferrite.Lower

/-- The state in which the program is lowered. -/
def start (checked : Check.Checked) : State := { replay := { record := checked.record } }

variable {p : Program} {checked : Check.Checked} {f : Fault}

theorem program_lowers (p : Program) (types : TypeTable) :
    Lowers (env p types) false (ids p.nodes) (definedIn p.nodes) p.scopes
      (inScope (items (env p types) p.items)) :=
  .inScope (items_lowers (env p types) p.items)

theorem bodies_eq_ok {bs : List (NodeId × Wasm.Code)} (h : bodies p checked = .ok bs) :
    ∃ s, inScope (items (env p checked.types) p.items) (start checked) = .ok () s ∧
      s.replay.isFinished ∧ s.bodies = bs := by
  unfold bodies at h
  dsimp only at h
  split at h
  · cases h
  · rename_i s hrun
    split at h
    · rename_i hfinished
      cases h
      exact ⟨s, hrun, hfinished, rfl⟩
    · cases h

theorem bodies_eq_error (h : bodies p checked = .error f) :
    (∃ s, inScope (items (env p checked.types) p.items) (start checked) = .error f s) ∨
      (∃ s, inScope (items (env p checked.types) p.items) (start checked) = .ok () s ∧
        s.replay.isFinished = false) ∧ f = .diverged .unfinished := by
  unfold bodies at h
  dsimp only at h
  split at h
  · rename_i s hrun
    cases h
    exact .inl ⟨s, hrun⟩
  · rename_i s hrun
    split at h
    · cases h
    · rename_i hfinished
      cases h
      exact .inr ⟨⟨s, hrun, by simpa using hfinished⟩, rfl⟩

theorem generate_eq_ok {m : Wasm.Module} (h : generate p checked = .ok m) :
    ∃ bs, bodies p checked = .ok bs ∧
      List.Forall₂ (fun h t => funcType h = .ok t) (headers p) m.types ∧
      List.Forall₂ (fun h c => codeOf bs h = .ok c) (definitions p) m.codes ∧
      m.imports = imports p ∧ m.exports = exports p ∧
      m.functions = ((definitions p).zipIdx (foreigns p).length).map (·.2) := by
  obtain ⟨bs, hbs, h⟩ := bind_eq_ok.mp h
  obtain ⟨types, htypes, h⟩ := bind_eq_ok.mp h
  obtain ⟨codes, hcodes, h⟩ := bind_eq_ok.mp h
  cases h
  exact ⟨bs, hbs, mapM_eq_ok.mp htypes, mapM_eq_ok.mp hcodes, rfl, rfl, rfl⟩

theorem generate_eq_error (h : generate p checked = .error f) :
    bodies p checked = .error f ∨ (∃ h ∈ headers p, funcType h = .error f) ∨
      ∃ bs, bodies p checked = .ok bs ∧ ∃ h ∈ definitions p, codeOf bs h = .error f := by
  rcases bind_eq_error.mp h with h | ⟨bs, hbs, h⟩
  · exact .inl h
  · rcases bind_eq_error.mp h with h | ⟨types, -, h⟩
    · exact .inr (.inl (mapM_eq_error h))
    · rcases bind_eq_error.mp h with h | ⟨codes, -, h⟩
      · exact .inr (.inr ⟨bs, hbs, mapM_eq_error h⟩)
      · cases h

theorem paramType_ok {function : String} {t : Ty} {v : Wasm.ValType} (h : paramType function t = .ok v) :
    valType t = .ok (some v) := by
  obtain ⟨w, hw, h⟩ := bind_eq_ok.mp h
  cases w with
  | some w =>
    cases h
    exact hw
  | none => cases h

theorem funcType_ok {h : Header} {ft : Wasm.FuncType} (hf : funcType h = .ok ft) :
    List.Forall₂ (fun t v => valType t = .ok (some v)) h.signature.params ft.params ∧
      ∃ r, valType h.signature.result = .ok r ∧ ft.results = r.toList := by
  obtain ⟨ps, hps, hf⟩ := bind_eq_ok.mp hf
  obtain ⟨r, hr, hf⟩ := bind_eq_ok.mp hf
  cases hf
  exact ⟨(mapM_eq_ok.mp hps).imp fun _ _ => paramType_ok, r, hr, rfl⟩

theorem funcType_other (h : Header) (hf : funcType h = .error f) : f.Other := by
  rcases bind_eq_error.mp hf with hf | ⟨ps, -, hf⟩
  · obtain ⟨t, -, hf⟩ := mapM_eq_error hf
    rcases bind_eq_error.mp hf with hf | ⟨v, -, hf⟩
    · exact valType_other t f hf
    · cases v <;> cases hf
      trivial
  · rcases bind_eq_error.mp hf with hf | ⟨r, -, hf⟩
    · exact valType_other _ f hf
    · cases hf

/-- Every function that is defined gets a body. -/
theorem exists_body {bs : List (NodeId × Wasm.Code)} (h : bodies p checked = .ok bs) {d : Header}
    (hd : d ∈ definitions p) : ∃ code, codeOf bs d = .ok code := by
  obtain ⟨s, hrun, -, rfl⟩ := bodies_eq_ok h
  obtain ⟨new, hnew, hp⟩ := ((program_lowers p checked.types (start checked)).ok hrun).bodies
  have hmem : d.id ∈ s.bodies.map Prod.fst := by
    rw [hnew, start, List.append_nil]
    exact hp.mem_iff.mpr (List.mem_map_of_mem hd)
  obtain ⟨⟨i, code⟩, hin, hi⟩ := List.mem_map.mp hmem
  have hsome : (s.bodies.lookup d.id).isSome := by
    rw [List.lookup_isSome_iff]
    exact ⟨_, hin, by simpa using hi.symm⟩
  obtain ⟨code, hcode⟩ := Option.isSome_iff_exists.mp hsome
  refine ⟨code, ?_⟩
  unfold codeOf
  rw [hcode]

theorem isFinished_iff (r : Scope.Replay) (h : r.nextEvent ≤ r.record.events.size) :
    r.isFinished ↔ upcoming r = [] := by
  rw [upcoming, List.drop_eq_nil_iff, Array.length_toList]
  simp only [Scope.Replay.isFinished, decide_eq_true_eq]
  omega

/-- What checking a program recorded is what lowering it goes through. -/
theorem follows_run (p : Program) : Follows (start (Check.run p).1).replay p.scopes := by
  refine ⟨?_, ?_⟩
  · have hup : upcoming (start (Check.run p).1).replay = p.scopes := Check.events_run p
    exact hup ▸ List.prefix_rfl
  · show 0 + p.scopes.count .push ≤ (Check.run p).1.record.frames.size
    have hsize := Check.size_run p
    omega

theorem typed_run (p : Program) {id : NodeId} (h : id ∈ ids p.nodes) :
    (Check.run p).1.types.get? id ≠ none := by
  have hmem := (Check.types_run p).mem_iff.mpr h
  obtain ⟨⟨i, t⟩, hin, hi⟩ := List.mem_map.mp hmem
  intro hnone
  have hne := List.lookup_eq_none_iff.mp hnone _ hin
  simp only at hi
  simp [hi] at hne

/-- A fault in a program's bodies is neither the record's nor that of the types. -/
theorem bodies_other (h : bodies p (Check.run p).1 = .error f) : f.Other := by
  have hlower := program_lowers p (Check.run p).1.types (start (Check.run p).1)
  rcases bodies_eq_error h with ⟨s, hrun⟩ | ⟨⟨s, hrun, hfinished⟩, -⟩
  · have hm := hlower.error hrun
    cases f with
    | diverged d => exact hm (follows_run p)
    | untyped id => exact typed_run p hm.1 hm.2
    | notCollected name =>
      obtain ⟨i, hi, hd⟩ := hm
      exact hd hi
    | noBody name => exact hm
    | _ => trivial
  · have hg := (hlower.ok hrun).replay
    have hup := hg.upcoming
    have hstart : upcoming (start (Check.run p).1).replay = p.scopes := Check.events_run p
    rw [hstart, List.self_eq_append_right] at hup
    have hle : s.replay.nextEvent ≤ s.replay.record.events.size := by
      rw [hg.nextEvent, hg.record, ← Array.length_toList]
      show 0 + p.scopes.length ≤ (Check.run p).1.record.events.toList.length
      rw [Check.events_run]
      omega
    rw [← Bool.not_eq_true, isFinished_iff _ hle] at hfinished
    exact absurd hup hfinished

theorem generate_other (h : generate p (Check.run p).1 = .error f) : f.Other := by
  rcases generate_eq_error h with h | ⟨h, -, hf⟩ | ⟨bs, hbs, d, hd, hf⟩
  · exact bodies_other h
  · exact funcType_other h hf
  · obtain ⟨code, hcode⟩ := exists_body hbs hd
    rw [hcode] at hf
    cases hf

/-- A program with a module has exactly the recorded scopes. -/
theorem events_of_generate {m : Wasm.Module} (h : generate p checked = .ok m) :
    checked.record.events.toList = p.scopes := by
  obtain ⟨bs, hbs, -⟩ := generate_eq_ok h
  obtain ⟨s, hrun, hfinished, -⟩ := bodies_eq_ok hbs
  have hg := ((program_lowers p checked.types (start checked)).ok hrun).replay
  have hup : checked.record.events.toList = p.scopes ++ upcoming s.replay := hg.upcoming
  have hle : s.replay.nextEvent ≤ s.replay.record.events.size := by
    rw [hg.nextEvent, hg.record, ← Array.length_toList]
    show 0 + p.scopes.length ≤ checked.record.events.toList.length
    rw [hup, List.length_append]
    omega
  rw [hup, (isFinished_iff _ hle).mp hfinished, List.append_nil]

/-- Lowering goes through the record scope by scope: along the record that checking the program
made it cannot miss anything, and along any other it gives a module only if the recorded scopes
are those of the program. -/
theorem generate_follows_record (p : Program) :
    (∀ f, generate p (Check.run p).1 = .error f →
      (∀ message, f.failure ≠ .scopeMismatch message) ∧ (∀ id, f ≠ .untyped id) ∧
        (∀ name, f ≠ .notCollected name) ∧ ∀ name, f ≠ .noBody name) ∧
    ∀ checked m, generate p checked = .ok m → checked.record.events.toList = p.scopes := by
  refine ⟨?_, fun checked m h => events_of_generate h⟩
  intro f h
  have hother := generate_other h
  refine ⟨?_, ?_, ?_, ?_⟩
  · intro message hfailure
    cases f with
    | diverged d => exact hother
    | _ => cases hfailure
  · rintro id rfl
    exact hother
  · rintro name rfl
    exact hother
  · rintro name rfl
    exact hother

/-- A program of one function without parameters, with the given tail. -/
def single (tail : Option Expr) : Program where
  items := [.function ⟨0, ⟨"f", ⟨0, 3, 4⟩⟩, [], ⟨[], .unit⟩, ⟨0, 0, 12⟩⟩ (.mk 1 ⟨0, 7, 12⟩ [] [] tail)]
  span := ⟨0, 0, 12⟩

def withText : Program := single (some (.literal 2 ⟨0, 8, 11⟩ (.text "a")))

/-- With a text as its tail the program has no module, though the record is its own, and without a tail it
has one. -/
theorem generate_follows_record_single :
    (generate withText (Check.run withText).1 = .error .stringLiteral ∧
      ∀ message, Fault.stringLiteral.failure ≠ .scopeMismatch message) ∧
    generate (single none) (Check.run (single none)).1 = .ok ⟨[⟨[], []⟩], [], [0], [⟨"f", 0⟩], [⟨[], []⟩]⟩ ∧
      (Check.run (single none)).1.record.events.toList = [.push, .push, .push, .pop, .pop, .pop] := by
  have herror : generate withText (Check.run withText).1 = .error .stringLiteral := by
    cbv
  have hok : generate (single none) (Check.run (single none)).1 =
      .ok ⟨[⟨[], []⟩], [], [0], [⟨"f", 0⟩], [⟨[], []⟩]⟩ := by
    cbv
  refine ⟨⟨herror, ((generate_follows_record _).1 _ herror).1⟩, hok, ?_⟩
  rw [(generate_follows_record _).2 _ _ hok]
  rfl

end Ferrite.Lower
