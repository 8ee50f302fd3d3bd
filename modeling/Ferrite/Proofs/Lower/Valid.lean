import Ferrite.Proofs.Lower.Support
import Ferrite.Proofs.Lower.Typed

/-! The modules of accepted programs are valid: all their code is typed as WebAssembly has it. -/

namespace Ferrite
open Lower

/-- The code of an expression leaves the value that the expression's type has, or nothing is reached
behind it, whatever the labels and the operands are where it stands. -/
def Program.Typed (p : Program) (m : Wasm.Module) (v : JointVisit) : Prop :=
  match v.node, v.owner with
  | .expr e, some f => ∃ t value is s type c,
      p.env.types.get? e.id = some t ∧ valType t = .ok value ∧
      Lower.expr p.env e v.state.2 = .ok is s ∧ funcType f = .ok type ∧
      (f, c) ∈ (definitions p).zip m.codes ∧ Within is c.body ∧
      ∀ labels before, ∃ behind,
        Wasm.check { m.context type c with labels } is before = some behind ∧
          before.Above value.toList behind
  | .expr _, none => False
  | _, _ => True

/-- The functions of a module have the types at their indices. -/
theorem functionType?_of_generate {p : Program} {m : Wasm.Module}
    (hm : generate p (Check.run p).1 = .ok m) (i : Nat) : m.functionType? i = m.types[i]? := by
  obtain ⟨bs, -, htypes, -, himports, -, hfunctions⟩ := generate_eq_ok hm
  have hlength : m.types.length = (foreigns p).length + (definitions p).length := by
    rw [← htypes.length_eq, headers, List.length_append, List.length_map]
  have himported : m.imports.map Wasm.Import.type = List.range' 0 (foreigns p).length := by
    rw [himports, imports, List.map_map, ← List.zipIdx_map_snd]
    rfl
  have hindices : m.imports.map Wasm.Import.type ++ m.functions = List.range' 0 m.types.length := by
    rw [himported, hfunctions, List.zipIdx_map_snd, hlength]
    simpa using @List.range'_append 0 (foreigns p).length (definitions p).length 1
  rw [Wasm.Module.functionType?, hindices]
  by_cases hi : i < m.types.length
  · simp [hi]
  · simp [hi]

namespace Accepted

variable {tokens : List Token} {p : Program} {m : Wasm.Module}

theorem known (h : Accepted tokens p) (hm : generate p (Check.run p).1 = .ok m) :
    ∀ v ∈ p.jointVisits, Known (p.setting True) p.env True p.headers v :=
  fun v hv => ⟨h.simulated hm v hv, h.clean_joint (fun _ => h.supported_of_generate hm) v hv⟩

theorem exists_funcType (hm : generate p (Check.run p).1 = .ok m) {f : Header} (hf : f ∈ p.headers) :
    ∃ type, funcType f = .ok type := by
  obtain ⟨s, -, htypes, -⟩ := items_of_generate hm
  obtain ⟨k, hk⟩ := List.getElem?_of_mem (p.perm_headers.mem_iff.mpr hf)
  obtain ⟨type, -, htype⟩ := forall₂_getElem? htypes hk
  exact ⟨type, htype⟩

/-- The code of a function finds what it needs in the context of the function. -/
theorem hosts (h : Accepted tokens p) (hm : generate p (Check.run p).1 = .ok m) {f : Header}
    (hf : f ∈ p.headers) {type : Wasm.FuncType} (htype : funcType f = .ok type) {τ : State}
    {c : Wasm.Code} (hl : τ.locals.types <+: c.locals) (labels : List (List Wasm.ValType)) :
    Hosts p.env p.headers f τ { m.context type c with labels } := by
  obtain ⟨s, -, htypes, -⟩ := items_of_generate hm
  obtain ⟨hparams, r, hresult, hresults⟩ := funcType_ok htype
  have hequal := paramTypes_eq hparams
  constructor
  · rw [hequal, ← hparams.length_eq]
    exact ((h.fineHeaders fun hg : False => hg.elim).sound f hf).params
  · rw [hequal]
    exact (List.prefix_append_right_inj _).mpr hl
  · exact ⟨r, hresult, hresults⟩
  · intro d hd i hi
    obtain ⟨hlt, hid, -⟩ := List.idxOf?_eq_some_iff.mp hi
    have hi' : i < (headers p).length := by simpa [Program.env, env] using hlt
    have hmem := p.perm_headers.mem_iff.mp (List.getElem_mem hi')
    have hsame : (headers p)[i] = d := h.eq_of_id hmem hd (by simpa [Program.env, env] using hid)
    obtain ⟨t, ht, hft⟩ := forall₂_getElem? htypes (List.getElem?_eq_getElem hi')
    rw [hsame] at hft
    exact ⟨t, hft, (functionType?_of_generate hm i).trans ht⟩

theorem typed (h : Accepted tokens p) (hm : generate p (Check.run p).1 = .ok m) {v : JointVisit}
    (hv : v ∈ p.jointVisits) (ht : v.target = false) : p.Typed m v := by
  obtain ⟨node, owner, target, σ, τ⟩ := v
  cases ht
  cases node with
  | expr e =>
    have hclean := (h.known hm _ hv).clean
    obtain ⟨f, hf, howner, t, ht, hfine, -⟩ := hclean
    cases howner
    obtain ⟨is, τ', hrun, c, hc, hpart⟩ := h.emitted hm hv rfl rfl hf
    obtain ⟨value, hvalue⟩ := valType_of_supported hfine.known (hfine.supported trivial)
    obtain ⟨type, htype⟩ := exists_funcType hm hf
    refine ⟨t, value, is, τ', type, c, ht, hvalue, hrun, htype, hc, hpart.body, ?_⟩
    intro labels before
    have hinner : ∀ v ∈ e.visits (joint p.env) f false (σ, τ), Known _ _ _ _ v :=
      fun u hu => h.known hm u (p.closed_visits (joint p.env) p.start _ hv hu)
    have hleaves := expr_leaves trivial e σ hrun hinner (h.hosts hm hf htype hpart.locals labels) ht
    exact hleaves value.toList (yields_value hvalue) before before (.refl before)
  | _ => trivial

/-- The code of each function gives what the function's type says. -/
theorem validCode (h : Accepted tokens p) (hm : generate p (Check.run p).1 = .ok m) {f : Header}
    {c : Wasm.Code} (hc : (f, c) ∈ (definitions p).zip m.codes) {type : Wasm.FuncType}
    (htype : funcType f = .ok type) : m.validCode type c = true := by
  obtain ⟨body, owner, σ, τ, hv, he, is, τ', hrun, rfl⟩ := h.code_eq hm hc
  obtain ⟨hf, -, t, ht, hsuits⟩ := (h.known hm _ hv).clean
  obtain ⟨-, r, hresult, hresults⟩ := funcType_ok htype
  have hinner : ∀ v ∈ body.visits (joint p.env) f false (Check.atFunction f σ, τ.atFunction f),
      Known (p.setting True) p.env True p.headers v := by
    intro u hu
    rw [← joint_atFunction he] at hu
    exact h.known hm u (p.closed_visits (joint p.env) p.start _ hv (List.mem_cons_of_mem _ hu))
  have hhosts : Hosts p.env p.headers f τ' (m.context type ⟨τ'.locals.types, is⟩) :=
    h.hosts hm hf htype List.prefix_rfl [type.results]
  have hyields := hsuits.imp_right (yields_value hresult).suits
  have hleaves := block_leaves trivial body _ hrun hinner hhosts ht r.toList hyields
  apply Wasm.Moves.ends
  rw [hresults, Wasm.reverse_toList]
  exact hleaves

end Accepted

namespace Lower

/-- A program with a module has a valid one, and the code of each of its expressions leaves the
value of the type that checking noted. -/
theorem generate_valid {tokens : List Token} {p : Program} {m : Wasm.Module} (h : Accepted tokens p)
    (hm : generate p (Check.run p).1 = .ok m) :
    m.valid = true ∧ ∀ v ∈ p.jointVisits, v.target = false → p.Typed m v := by
  refine ⟨?_, fun v hv => h.typed hm hv⟩
  obtain ⟨s, -, htypes, hcodes⟩ := items_of_generate hm
  obtain ⟨bs, -, -, -, -, -, hfunctions⟩ := generate_eq_ok hm
  have hlength : m.functions.length = m.codes.length := by
    rw [hfunctions, List.length_map, List.length_zipIdx, hcodes.length_eq]
  simp only [Wasm.Module.valid, hlength, decide_true, Bool.true_and, List.all_eq_true]
  rintro ⟨index, c⟩ hc
  obtain ⟨k, hk⟩ := List.getElem?_of_mem hc
  obtain ⟨hindex, hck⟩ := List.getElem?_zip_eq_some.mp hk
  rw [hfunctions, List.getElem?_map, List.getElem?_zipIdx] at hindex
  cases hf : (definitions p)[k]? with
  | none => simp [hf] at hindex
  | some f =>
    have hplace : (foreigns p).length + k = index := by simpa [hf] using hindex
    have hheader : (headers p)[index]? = some f := by
      rw [← hplace, headers, List.getElem?_append_right (by simp)]
      simpa using hf
    obtain ⟨type, ht, htype⟩ := forall₂_getElem? htypes hheader
    have hcode : (f, c) ∈ (definitions p).zip m.codes :=
      List.mem_of_getElem? (List.getElem?_zip_eq_some.mpr ⟨hf, hck⟩)
    simp [ht, h.validCode hm hcode htype]

/-- The sum behind a `return` is never reached, and takes what it likes. -/
theorem generate_valid_returning :
    ∃ p m, Accepted (Lexer.read 0 "fn f(a: f32) -> f32 \x7b a + return a \x7d").tokens p ∧
      m.codes.map Wasm.Code.body =
        [[.localGet 0, .localGet 0, .ret, .unreachable, .float .small .add]] ∧
      m.valid = true ∧ ∀ v ∈ p.jointVisits, v.target = false → p.Typed m v := by
  have hmodule : ((accepted? (Lexer.read 0 "fn f(a: f32) -> f32 \x7b a + return a \x7d").tokens).bind
      fun p => (generate p (Check.run p).1).toOption.map fun m => m.codes.map Wasm.Code.body) =
      some [[.localGet 0, .localGet 0, .ret, .unreachable, .float .small .add]] := by
    cbv
  obtain ⟨p, m, h, hm, hcode⟩ := exists_module hmodule
  exact ⟨p, m, h, hcode, generate_valid h hm⟩

end Lower
end Ferrite
