import Ferrite.Lexer.Stream
import Ferrite.Proofs.Lower.Accepted

/-!
Which accepted programs have a module: those that ask for no value that WebAssembly has no place
for. Nothing else is ever wrong with them.
-/

namespace Ferrite
open Lower

/-- The program asks for nothing that WebAssembly has no place for. -/
def Program.Supported (p : Program) : Prop :=
  ∀ v ∈ p.visits Check.pass (Check.start p), Check.Supported v

namespace Lower

variable {t : Ty} {f : Fault}

/-- A function with a type has a signature of types with a place. -/
theorem supported_of_funcType {h : Header} {ft : Wasm.FuncType} (hf : funcType h = .ok ft) :
    h.signature.Supported := by
  obtain ⟨hps, r, hr, -⟩ := funcType_ok hf
  refine ⟨?_, isUnsupported_of_valType hr⟩
  intro t ht
  obtain ⟨i, hi⟩ := List.getElem?_of_mem ht
  obtain ⟨v, -, hv⟩ := forall₂_getElem? hps hi
  refine ⟨isUnsupported_of_valType hv, ?_, ?_⟩
  · rintro rfl
    cases hv
  · rintro rfl
    cases hv

theorem paramType_of_supported {function : String} (hk : t.hasUnknown = false)
    (hs : t.isUnsupported = false) (hu : t ≠ .unit) (hn : t ≠ .never) :
    ∃ v, paramType function t = .ok v := by
  obtain ⟨v, hv⟩ := valType_of_supported hk hs
  cases v with
  | some v => exact ⟨v, by rw [paramType, hv]; rfl⟩
  | none =>
    unfold valType at hv
    split at hv <;> cases hv
    · exact absurd rfl hn
    · exact absurd rfl hu

theorem funcType_of_supported {h : Header} (hs : h.Sound) (hsupported : h.signature.Supported)
    (hf : funcType h = .error f) : False := by
  obtain ⟨hks, hk⟩ := Check.isUnsupported_signature hs
  rcases bind_eq_error.mp hf with hf | ⟨ps, -, hf⟩
  · obtain ⟨t, ht, hf⟩ := mapM_eq_error hf
    obtain ⟨hs, hu, hn⟩ := hsupported.params t ht
    obtain ⟨v, hv⟩ := paramType_of_supported (hks t ht) hs hu hn
    rw [hv] at hf
    cases hf
  · obtain ⟨v, hv⟩ := valType_of_supported hk hsupported.result
    rw [hv] at hf
    cases hf

/-- How a function's type can be at fault. -/
theorem funcType_error {h : Header} (hf : funcType h = .error f) :
    (∃ t, f = .value t) ∨ ∃ t name, f = .param t name := by
  have hvalue : ∀ t, valType t = .error f → ∃ t, f = .value t := by
    intro t ht
    unfold valType at ht
    split at ht <;> cases ht
    exact ⟨_, rfl⟩
  rcases bind_eq_error.mp hf with hf | ⟨ps, -, hf⟩
  · obtain ⟨t, -, hf⟩ := mapM_eq_error hf
    rcases bind_eq_error.mp hf with hf | ⟨v, -, hf⟩
    · exact .inl (hvalue t hf)
    · cases v <;> cases hf
      exact .inr ⟨_, _, rfl⟩
  · rcases bind_eq_error.mp hf with hf | ⟨r, -, hf⟩
    · exact .inl (hvalue _ hf)
    · cases hf

theorem not_runs_text {env : Env} {τ : State} {id : NodeId} {span : Span} {text : String} :
    ¬ Runs env τ (.expr (.literal id span (.text text))) := by
  rintro ⟨is, τ', hrun⟩
  rw [expr] at hrun
  obtain ⟨t, τ₁, -, hrun⟩ := run_bind_ok hrun
  obtain ⟨is, τ₂, hcode, -⟩ := run_bind_ok hrun
  cases hcode

theorem runs_path {env : Env} {τ : State} {id : NodeId} {span : Span} {name : Ident}
    (h : Runs env τ (.expr (.path id span name))) : τ.locals.lookup name.text ≠ none := by
  obtain ⟨is, τ', hrun⟩ := h
  intro hnone
  rw [expr] at hrun
  obtain ⟨t, τ₁, ht, hrun⟩ := run_bind_ok hrun
  obtain ⟨is, τ₂, hcode, -⟩ := run_bind_ok hrun
  obtain ⟨-, rfl⟩ := typeOf_ok ht
  obtain ⟨τ₀, τ₁', hget, hcode⟩ := run_bind_ok hcode
  cases hget
  rw [hnone] at hcode
  cases hcode

theorem runs_bind {env : Env} {τ : State} {id : NodeId} {span : Span} {name : Ident}
    {declared : Option Ty} {init : Expr} (h : Runs env τ (.stmt (.bind id span name declared init)))
    (ht : env.types.get? id = some t) : t.isUnsupported = false := by
  obtain ⟨is, τ', hrun⟩ := h
  rw [stmt] at hrun
  obtain ⟨value, τ₁, -, hrun⟩ := run_bind_ok hrun
  obtain ⟨code, τ₂, hcode, -⟩ := run_bind_ok hrun
  rcases binding_ok hcode ht with ⟨v, hv, -⟩ | ⟨hv, -⟩
  · exact isUnsupported_of_valType hv
  · exact isUnsupported_of_valType hv

/-- Where there is code for a node, the node asks for nothing without a place. -/
theorem supported_of_simulated {S : Setting} {env : Env} {headers : List Header} {v : JointVisit}
    (hs : Simulated S env v) (hc : Check.Clean env.types False headers v.fst)
    (hi : ∀ i, v.node = .item i → ∀ h ∈ i.headers, h.signature.Supported) :
    Check.Supported v.fst := by
  obtain ⟨node, owner, target, σ, τ⟩ := v
  cases node with
  | expr e =>
    cases e with
    | literal id span value =>
      cases value with
      | text text =>
        cases target with
        | false => exact not_runs_text (hs.runs rfl)
        | true =>
          obtain ⟨_, _, ⟨⟩, hplace, -⟩ := hs.place rfl
          cases hplace
      | _ => trivial
    | path id span name =>
      rintro ⟨hnone, -⟩
      cases target with
      | false =>
        obtain ⟨h, -, howner, -⟩ := hc
        exact runs_path (hs.runs rfl) ((hs.sim h howner).lookup_none hnone)
      | true =>
        obtain ⟨_, _, ⟨⟩, ⟨⟩, hlocal⟩ := hs.place rfl
        rw [show σ.scopes.local? name.text = none from hnone] at hlocal
        cases hlocal
    | _ => trivial
  | block b => trivial
  | stmt s =>
    cases s with
    | bind id span name declared init =>
      cases declared with
      | none => trivial
      | some t =>
        cases target with
        | false =>
          obtain ⟨h, -, -, u, hu, -, -, heq, -⟩ := hc
          rw [show u = t from heq] at hu
          exact runs_bind (hs.runs rfl) hu
        | true =>
          obtain ⟨_, _, hnode, -⟩ := hs.place rfl
          cases hnode
    | expr span value semi => trivial
  | item i => exact hi i rfl

end Lower

namespace Accepted

variable {tokens : List Token} {p : Program} {f : Fault}

/-- A fault of a body, where it is not the record's or that of the types. -/
theorem bodies_error (h : Accepted tokens p) {given : Prop} (hgiven : given → p.Supported)
    (hf : bodies p (Check.run p).1 = .error f) :
    ¬ given ∧ (f = .stringLiteral ∨ (∃ name, f = .functionValue name) ∨ ∃ t, f = .value t) := by
  have hother := bodies_other hf
  have hexcused := error_of_bodies (fun _ => trivial) (h.resolves hgiven fun ht : False => ht.elim) hf
  cases f with
  | stringLiteral => exact ⟨hexcused, .inl rfl⟩
  | functionValue name => exact ⟨hexcused, .inr (.inl ⟨name, rfl⟩)⟩
  | value t => exact ⟨hexcused, .inr (.inr ⟨t, rfl⟩)⟩
  | diverged d => exact hother.elim
  | untyped id => exact hother.elim
  | notCollected name => exact hother.elim
  | noBody name => exact hother.elim
  | _ => exact hexcused.elim

/-- A supported program has a module. -/
theorem generate_of_supported (h : Accepted tokens p) (hs : p.Supported) :
    ∃ m, generate p (Check.run p).1 = .ok m := by
  cases hm : generate p (Check.run p).1 with
  | ok m => exact ⟨m, rfl⟩
  | error f =>
    exfalso
    rcases generate_eq_error hm with hf | ⟨d, hd, hf⟩ | ⟨bs, hbs, d, hd, hf⟩
    · exact (h.bodies_error (fun _ => hs) hf).1 trivial
    · have hheaders := h.fineHeaders fun _ : True => hs
      have hmem := p.perm_headers.mem_iff.mp hd
      exact funcType_of_supported (hheaders.sound d hmem) (hheaders.supported trivial d hmem) hf
    · obtain ⟨code, hcode⟩ := exists_body hbs hd
      rw [hcode] at hf
      cases hf

/-- A program with a module is supported. -/
theorem supported_of_generate (h : Accepted tokens p) {m : Wasm.Module}
    (hm : generate p (Check.run p).1 = .ok m) : p.Supported := by
  obtain ⟨s, -, htypes, -⟩ := items_of_generate hm
  have hallowed := h.allowed fun hg : False => hg.elim
  have hclean := h.clean fun hg : False => hg.elim
  intro v hv
  have hmap := p.map_fst_visits Check.pass (pass p.env) p.start
  rw [show p.start.1 = Check.start p from rfl] at hmap
  rw [← hmap] at hv
  obtain ⟨w, hw, rfl⟩ := List.mem_map.mp hv
  rw [hmap] at hv
  refine supported_of_simulated (h.simulated hm w hw) (hclean _ hv) ?_
  intro i hi d hd
  have hheader := (hallowed _ hv).headers i hi d hd
  obtain ⟨k, hk⟩ := List.getElem?_of_mem (p.perm_headers.mem_iff.mpr hheader)
  obtain ⟨ft, -, hft⟩ := forall₂_getElem? htypes hk
  exact supported_of_funcType hft

end Accepted

namespace Lower

/-- An accepted program has a module just if it asks for nothing without a place in WebAssembly.
Otherwise the fault is such a value: a text, a function, a declared type or one of a parameter. -/
theorem generate_ok_iff_supported {tokens : List Token} {p : Program} (h : Accepted tokens p) :
    ((∃ m, generate p (Check.run p).1 = .ok m) ↔ p.Supported) ∧
      ∀ f, generate p (Check.run p).1 = .error f →
        f.failure = .lowering f.message ∧
          (f = .stringLiteral ∨ (∃ name, f = .functionValue name) ∨ (∃ t, f = .value t) ∨
            ∃ t name, f = .param t name) := by
  refine ⟨⟨?_, h.generate_of_supported⟩, ?_⟩
  · rintro ⟨m, hm⟩
    exact h.supported_of_generate hm
  · intro f hf
    have hkind : f = .stringLiteral ∨ (∃ name, f = .functionValue name) ∨ (∃ t, f = .value t) ∨
        ∃ t name, f = .param t name := by
      rcases generate_eq_error hf with hf | ⟨d, -, hf⟩ | ⟨bs, hbs, d, hd, hf⟩
      · rcases (h.bodies_error (fun hg : False => hg.elim) hf).2 with hf | hf | hf
        · exact .inl hf
        · exact .inr (.inl hf)
        · exact .inr (.inr (.inl hf))
      · rcases funcType_error hf with hf | hf
        · exact .inr (.inr (.inl hf))
        · exact .inr (.inr (.inr hf))
      · obtain ⟨code, hcode⟩ := exists_body hbs hd
        rw [hcode] at hf
        cases hf
    refine ⟨?_, hkind⟩
    rcases hkind with rfl | ⟨name, rfl⟩ | ⟨t, rfl⟩ | ⟨t, name, rfl⟩ <;> rfl

/-- A function is no value. -/
theorem generate_ok_iff_supported_function :
    ∃ p, Accepted (Lexer.read 0 "fn f() \x7b g; \x7d fn g() \x7b \x7d").tokens p ∧ ¬ p.Supported := by
  have hfault : ((accepted? (Lexer.read 0 "fn f() \x7b g; \x7d fn g() \x7b \x7d").tokens).bind fun p =>
      match generate p (Check.run p).1 with
      | .error f => some f
      | .ok _ => none) = some (.functionValue "g") := by
    cbv
  obtain ⟨p, hp, hf⟩ := Option.bind_eq_some_iff.mp hfault
  have h := accepted?_eq_some.mp hp
  refine ⟨p, h, ?_⟩
  intro hs
  obtain ⟨m, hm⟩ := (generate_ok_iff_supported h).1.mpr hs
  rw [hm] at hf
  cases hf

end Lower
end Ferrite
