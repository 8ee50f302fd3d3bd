import Ferrite.Proofs.Check.Accepted
import Ferrite.Proofs.Lower.Distinct
import Ferrite.Proofs.Lower.Emitted
import Ferrite.Proofs.Lower.Resolve

/-! Lowering an accepted program, beside the states that checking it was in. -/

namespace Ferrite
open Lower

namespace Program

/-- What the program is lowered with, after it was checked. -/
def env (p : Program) : Env := Lower.env p (Check.run p).1.types

/-- The states in which the items of the program are checked and lowered. -/
def start (p : Program) : Check.State × State :=
  (Check.start p, after (replayed Scope.Replay.enter) (Lower.start (Check.run p).1))

/-- The states in which checking and lowering come to the nodes of the program. -/
def jointVisits (p : Program) : List JointVisit := p.visits (joint p.env) p.start

/-- All names that functions of the program declare, with the locals that they get. -/
def declarations (p : Program) : List Declaration := p.jointVisits.flatMap (Lower.declarations p.env)

def setting (p : Program) (typed : Prop) : Setting where
  record := (Check.run p).1.record
  declared := p.declarations
  typed := typed

/-- The functions in the order of their indices are those that the items declare. -/
theorem perm_headers (p : Program) : (Lower.headers p).Perm p.headers := by
  rw [Lower.headers, Program.headers, foreigns, definitions]
  induction p.allItems with
  | nil => exact .refl _
  | cons i is ih =>
    rw [List.flatMap_cons, List.flatMap_cons, List.map_append, List.append_assoc]
    cases i with
    | function d body =>
      refine .trans ?_ (ih.cons d)
      exact List.perm_middle
    | «foreign» span abi functions =>
      rw [foreignOf, List.map_map]
      have hsame : functions.map (Foreign.header ∘ (⟨abi, ·⟩)) = functions := List.map_id _
      rw [hsame]
      exact ih.append_left functions

end Program

/-- Different functions of a parsed program have different numbers. -/
theorem nodup_headers_of_numbers {p : Program} (h : (numbers p.nodes).Nodup) :
    ((Lower.headers p).map Header.id).Nodup := by
  refine ((p.perm_headers.map _).nodup_iff).mpr (h.sublist ?_)
  rw [Program.headers, Program.allItems]
  induction p.nodes with
  | nil => exact .slnil
  | cons n ns ih =>
    rw [numbers_cons]
    cases n with
    | item i =>
      have hcons : (Node.item i :: ns).filterMap Node.item? = i :: ns.filterMap Node.item? := rfl
      rw [hcons, List.flatMap_cons, List.map_append]
      exact (List.Sublist.refl _).append ih
    | _ => exact ih.trans (List.sublist_append_right _ _)

theorem nodup_definitions_of_headers {p : Program} (h : ((Lower.headers p).map Header.id).Nodup) :
    ((definitions p).map Header.id).Nodup := by
  rw [Lower.headers, List.map_append] at h
  exact (List.nodup_append.mp h).2.1

/-- A module comes from a run over all items, which starts inside the scope of the program. -/
theorem run_of_bodies {p : Program} {checked : Check.Checked} {bs : List (NodeId × Wasm.Code)} (h : bodies p checked = .ok bs) :
    ∃ s, Lower.items (Lower.env p checked.types) p.items
        (after (replayed Scope.Replay.enter) (Lower.start checked)) = .ok () s ∧ s.bodies = bs := by
  obtain ⟨s, hrun, -, rfl⟩ := bodies_eq_ok h
  obtain ⟨_, s₁, henter, hrun⟩ := run_bind_ok hrun
  obtain ⟨_, s₂, hitems, hrun⟩ := run_bind_ok hrun
  obtain ⟨_, s₃, hleave, hend⟩ := run_bind_ok hrun
  cases hend
  obtain ⟨r, -, rfl⟩ := replayed_ok hleave
  rw [after_ok henter]
  exact ⟨s₂, hitems, rfl⟩

/-- A module comes from a run that lowers all items. -/
theorem items_of_generate {p : Program} {m : Wasm.Module} (h : generate p (Check.run p).1 = .ok m) :
    ∃ s, Lower.items p.env p.items p.start.2 = .ok () s ∧
      List.Forall₂ (fun h t => funcType h = .ok t) (Lower.headers p) m.types ∧
      List.Forall₂ (fun h c => codeOf s.bodies h = .ok c) (definitions p) m.codes := by
  obtain ⟨bs, hbs, htypes, hcodes, -⟩ := generate_eq_ok h
  obtain ⟨s, hitems, rfl⟩ := run_of_bodies hbs
  exact ⟨s, hitems, htypes, hcodes⟩

/-- The module of a text, from what can be computed of it. -/
theorem exists_module {β : Type} {tokens : List Token} {view : Program → Wasm.Module → β} {b : β}
    (h : ((accepted? tokens).bind fun p => (generate p (Check.run p).1).toOption.map (view p)) = some b) :
    ∃ p m, Accepted tokens p ∧ generate p (Check.run p).1 = .ok m ∧ view p m = b := by
  obtain ⟨p, hp, hm⟩ := Option.bind_eq_some_iff.mp h
  cases hg : generate p (Check.run p).1 with
  | ok m =>
    rw [hg] at hm
    exact ⟨p, m, accepted?_eq_some.mp hp, hg, Option.some_inj.mp hm⟩
  | error f =>
    rw [hg] at hm
    cases hm

namespace Accepted
open Check (Supported)

variable {tokens : List Token} {p : Program} {given typed : Prop}

theorem enters (p : Program) (τ : State) (hτ : τ = Lower.start (Check.run p).1) :
    τ.replay.enter = .ok (entered τ.replay) := by
  subst hτ
  rcases enter_cases (Lower.start (Check.run p).1).replay with ⟨he, -⟩ | ⟨d, -, hf⟩
  · exact he
  · refine absurd ?_ hf
    have hall := follows_run p
    rw [Program.scopes, enclosed, ← List.singleton_append] at hall
    exact hall.front

theorem start_eq (p : Program) : p.start =
    (Check.start p, { Lower.start (Check.run p).1 with
      replay := entered (Lower.start (Check.run p).1).replay }) :=
  congrArg (Prod.mk _) (after_ok (run_replayed (enters p _ rfl)))

theorem beside (p : Program) : Beside (p.setting typed) p.start.1 p.start.2 := by
  have hempty : Beside (p.setting typed) {} (Lower.start (Check.run p).1) := by
    refine ⟨⟨?_, List.nodup_nil⟩, rfl, rfl, rfl⟩
    intro k hk
    cases hk
  rw [start_eq]
  exact hempty.inside (Check.opens_atBlock p.items {}).scopes rfl

theorem complete (h : Accepted tokens p) :
    Over (p.setting typed) (Check.after (Check.items p.items) (Check.start p)) where
  problems := List.reverse_eq_nil_iff.mp h.checked
  decls k f hf := by
    refine ⟨f, ?_, rfl⟩
    have hframes : (Check.run p).1.record.frames =
        (Check.after (Check.items p.items) (Check.start p)).scopes.leave.record.frames := rfl
    rw [Program.setting, hframes, Scope.Stack.frames_leave]
    exact hf

theorem indexed (h : Accepted tokens p) (ht : typed → ∀ d ∈ p.headers, HasParams d) :
    Indexed (p.setting typed) p.env p.headers where
  sound d hd := (h.fineHeaders fun hg : False => hg.elim).sound d hd
  index _ hd := List.mem_map_of_mem (p.perm_headers.mem_iff.mpr hd)
  params := ht

/-- All nodes of an accepted program are clean where they are lowered. -/
theorem clean_joint (h : Accepted tokens p)
    (hgiven : given → ∀ v ∈ p.visits Check.pass (Check.start p), Supported v) :
    ∀ v ∈ p.jointVisits, Check.Clean p.env.types given p.headers v.fst := by
  intro v hv
  refine h.clean hgiven v.fst ?_
  have hmap := p.map_fst_visits Check.pass (pass p.env) p.start
  rw [show p.start.1 = Check.start p from rfl] at hmap
  rw [← hmap]
  exact List.mem_map_of_mem hv

theorem prepared (h : Accepted tokens p)
    (hgiven : given → ∀ v ∈ p.visits Check.pass (Check.start p), Supported v) :
    ∀ v ∈ p.jointVisits, Prepared (p.setting typed) p.env given p.headers v :=
  fun v hv => ⟨h.clean_joint hgiven v hv, fun _ hd => List.mem_flatMap.mpr ⟨v, hv, hd⟩⟩

/-- Different functions have different numbers. -/
theorem nodup_headers (h : Accepted tokens p) : ((Lower.headers p).map Header.id).Nodup :=
  nodup_headers_of_numbers h.nodup_numbers

theorem nodup_defined (h : Accepted tokens p) : (definedIn p.nodes).Nodup :=
  nodup_definitions_of_headers h.nodup_headers

theorem eq_of_id (h : Accepted tokens p) {d f : Header} (hd : d ∈ p.headers) (hf : f ∈ p.headers)
    (hid : d.id = f.id) : d = f :=
  List.inj_on_of_nodup_map h.nodup_headers (p.perm_headers.mem_iff.mpr hd)
    (p.perm_headers.mem_iff.mpr hf) hid

/-- Lowering an accepted program has the names in sight that checking it had, at each node. It can
only fail on a value that WebAssembly has no place for. -/
theorem resolves (h : Accepted tokens p)
    (hgiven : given → ∀ v ∈ p.visits Check.pass (Check.start p), Supported v)
    (ht : typed → ∀ d ∈ p.headers, HasParams d) :
    Gives (items p.env p.items) p.start.2 (∀ v ∈ p.jointVisits, Simulated (p.setting typed) p.env v)
      (Excused given) :=
  items_resolves (h.indexed ht) p.items p.start.1 p.start.2 (beside p) (h.prepared hgiven) h.complete

/-- A fault of the bodies is one of a run of all items, or the record's. -/
theorem error_of_bodies {good : Prop} {bad : Fault → Prop} {f : Fault} (hd : ∀ d, bad (.diverged d))
    (hitems : Gives (Lower.items p.env p.items) p.start.2 good bad)
    (hf : bodies p (Check.run p).1 = .error f) : bad f := by
  rcases bodies_eq_error hf with ⟨s, hs⟩ | ⟨-, rfl⟩
  · have hrun : Gives (inScope (Lower.items p.env p.items)) (Lower.start (Check.run p).1) True bad := by
      unfold inScope
      rw [Gives, Ends.bind_iff, replayed_iff, enters p _ rfl]
      dsimp only
      rw [start_eq] at hitems
      rw [Ends.bind_iff]
      refine Ends.mono hitems ?_ fun _ _ _ hb => hb
      intro _ τ' _ _
      rw [Ends.bind_iff, replayed_iff]
      cases τ'.replay.leave with
      | ok r => trivial
      | error d => exact hd d
    exact hrun.error hs
  · exact hd _

variable {m : Wasm.Module}

/-- All parameters of a program with a module have values. -/
theorem hasParams (hm : generate p (Check.run p).1 = .ok m) : ∀ d ∈ p.headers, HasParams d := by
  obtain ⟨s, -, htypes, -⟩ := items_of_generate hm
  intro d hd
  obtain ⟨k, hk⟩ := List.getElem?_of_mem (p.perm_headers.mem_iff.mpr hd)
  obtain ⟨ft, -, hft⟩ := forall₂_getElem? htypes hk
  exact hasParams_of_forall₂ (funcType_ok hft).1

/-- In a program with a module, the same names are in sight at each node as when it was checked. -/
theorem simulated (h : Accepted tokens p) (hm : generate p (Check.run p).1 = .ok m) :
    ∀ v ∈ p.jointVisits, Simulated (p.setting True) p.env v := by
  obtain ⟨s, hrun, -⟩ := items_of_generate hm
  exact (h.resolves (fun hg : False => hg.elim) fun _ => hasParams hm).ok hrun

/-- The declarations of a program with a module are distinct, and so are the locals that they get. -/
theorem distinct (h : Accepted tokens p) (hm : generate p (Check.run p).1 = .ok m) :
    (p.declarations.map Declaration.key).Nodup ∧ (p.declarations.filterMap Declaration.place).Nodup := by
  obtain ⟨s, hrun, -⟩ := items_of_generate hm
  have hsound := (h.fineHeaders fun hg : False => hg.elim).sound
  obtain ⟨owner, howner⟩ := Infinite.exists_notMem_finset (definedIn p.nodes).toFinset
  rw [List.mem_toFinset] at howner
  have hbeside : Beside (p.setting True) p.start.1 p.start.2 := beside p
  have hfresh := items_fresh hsound p.items p.start.1 owner p.start.2 hbeside.valid hrun
    (List.nodup_cons.mpr ⟨howner, h.nodup_defined⟩) (h.clean_joint fun hg : False => hg.elim)
  exact ⟨hfresh.keys, hfresh.places⟩

/-- When all items are lowered, each function of the program has one body. -/
theorem perm_bodies {s : State} (hrun : Lower.items p.env p.items p.start.2 = .ok () s) :
    (s.bodies.map Prod.fst).Perm ((definitions p).map Header.id) := by
  obtain ⟨new, hnew, hperm⟩ := ((items_lowers p.env p.items p.start.2).ok hrun).bodies
  have hstart : p.start.2.bodies = [] := by
    rw [start_eq]
    rfl
  rw [hstart, List.append_nil] at hnew
  rw [hnew]
  exact hperm

theorem codeOf_done (h : Accepted tokens p) {s : State}
    (hrun : Lower.items p.env p.items p.start.2 = .ok () s) {f : Header} {c : Wasm.Code}
    (hdone : Done s f c) : codeOf s.bodies f = .ok c := by
  have hbodies : (s.bodies.map Prod.fst).Nodup := (perm_bodies hrun).nodup_iff.mpr h.nodup_defined
  rw [codeOf, lookup_of_mem hbodies hdone]

/-- The code of each node of a program with a module is part of that of its function. -/
theorem emitted (h : Accepted tokens p) (hm : generate p (Check.run p).1 = .ok m) {v : JointVisit}
    (hv : v ∈ p.jointVisits) (ht : v.target = false) {f : Header} (hf : function? v = some f)
    (hmem : f ∈ p.headers) :
    ∃ is s', Makes p.env v.state.2 v.node is s' ∧
      ∃ c, (f, c) ∈ (definitions p).zip m.codes ∧ PartOf ⟨s'.locals.types, is⟩ c := by
  obtain ⟨s, hrun, -, hcodes⟩ := items_of_generate hm
  obtain ⟨is, s', hmakes, c, hdone, hpart⟩ := (items_emitted p.items p.start.1 hrun v hv).code ht f hf
  obtain ⟨d, hd, hid⟩ := List.mem_map.mp ((perm_bodies hrun).mem_iff.mp (List.mem_map_of_mem hdone))
  have hdf : d = f := h.eq_of_id (p.perm_headers.mem_iff.mp (List.mem_append_right _ hd)) hmem hid
  subst hdf
  obtain ⟨k, hk⟩ := List.getElem?_of_mem hd
  obtain ⟨c', hc', hcode⟩ := forall₂_getElem? hcodes hk
  rw [h.codeOf_done hrun hdone] at hcode
  cases hcode
  exact ⟨is, s', hmakes, c, List.mem_of_getElem? (List.getElem?_zip_eq_some.mpr ⟨hk, hc'⟩), hpart⟩

/-- All code of a module is that of the body of its function. -/
theorem code_eq (h : Accepted tokens p) (hm : generate p (Check.run p).1 = .ok m) {f : Header}
    {c : Wasm.Code} (hc : (f, c) ∈ (definitions p).zip m.codes) :
    ∃ body owner σ τ, ⟨.item (.function f body), owner, false, (σ, τ)⟩ ∈ p.jointVisits ∧
      τ.replay.enter = .ok (entered τ.replay) ∧
      ∃ is s', block p.env body (τ.atFunction f) = .ok is s' ∧ c = ⟨s'.locals.types, is⟩ := by
  obtain ⟨s, hrun, -, hcodes⟩ := items_of_generate hm
  obtain ⟨i, hi, hif⟩ := List.mem_filterMap.mp (List.of_mem_zip hc).1
  obtain ⟨n, hn, hni⟩ := List.mem_filterMap.mp hi
  rw [← p.map_node_visits (joint p.env) p.start] at hn
  obtain ⟨⟨node, owner, target, σ, τ⟩, hv, rfl⟩ := List.mem_map.mp hn
  have htarget : target = false := by
    cases htarget : target with
    | false => rfl
    | true =>
      obtain ⟨e, name, he, -⟩ := (h.simulated hm _ hv).place htarget
      rw [show node = .expr e from he] at hni
      cases hni
  subst htarget
  cases node with
  | item j =>
    cases hni
    cases i with
    | function d body =>
      cases hif
      obtain ⟨he, is, s', hbody, hdone⟩ :=
        (items_emitted p.items p.start.1 hrun _ hv).body f body rfl rfl
      obtain ⟨k, hk⟩ := List.getElem?_of_mem hc
      obtain ⟨hf, hck⟩ := List.getElem?_zip_eq_some.mp hk
      obtain ⟨c', hc', hcode⟩ := forall₂_getElem? hcodes hf
      rw [hck] at hc'
      cases hc'
      rw [h.codeOf_done hrun hdone] at hcode
      cases hcode
      exact ⟨body, owner, σ, τ, hv, he, is, s', hbody, rfl⟩
    | «foreign» => cases hif
  | _ => cases hni

end Accepted
end Ferrite
