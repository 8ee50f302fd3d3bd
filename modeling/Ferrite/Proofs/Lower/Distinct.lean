import Ferrite.Proofs.Lower.Inversion
import Ferrite.Proofs.Lower.Mirror
import Mathlib.Data.List.Nodup

/-!
No two declarations of a program are of the same name in the same frame, and no two names of a
function get the same local: what a part of a program declares lies in the frames and the locals
that are new behind it.
-/

namespace Ferrite

namespace Lower
open Scope (Event)

/-- The index of the local that is added next. -/
def Locals.next (l : Locals) : Nat := l.params + l.types.length

/-- The local of a declaration, with the function that it is in. -/
def Declaration.place (d : Declaration) : Option (NodeId × Nat) := d.slot.map (d.owner, ·)

/-- The declarations of a part of a function. Frames are new, or `own` with a name that was free;
locals are new, or those of the functions inside. -/
structure Fresh (owner : NodeId) (own : Bool) (c : Check.State) (passed : List Event) (s s' : State)
    (defs : List NodeId) (ds : List Declaration) : Prop where
  keys : (ds.map Declaration.key).Nodup
  places : (ds.filterMap Declaration.place).Nodup
  frames : ∀ d ∈ ds,
    (c.scopes.record.frames.size ≤ d.frame ∧
      d.frame < c.scopes.record.frames.size + passed.count .push) ∨
    own = true ∧ c.scopes.opened.head? = some d.frame ∧ c.scopes.localHere? d.name = none
  owners : ∀ d ∈ ds,
    (d.owner = owner ∧ ∀ i, d.slot = some i → s.locals.next ≤ i ∧ i < s'.locals.next) ∨ d.owner ∈ defs

section

variable {owner : NodeId} {own : Bool} {c c' : Check.State} {passed more : List Event}
  {s s' s'' : State} {defs more' nodes : List NodeId} {ds es : List Declaration}

theorem place_eq_some {d : Declaration} {x : NodeId × Nat} :
    d.place = some x ↔ d.owner = x.1 ∧ d.slot = some x.2 := by
  obtain ⟨o, i⟩ := x
  rw [Declaration.place, Option.map_eq_some_iff]
  constructor
  · rintro ⟨j, hj, ⟨⟩⟩
    exact ⟨rfl, hj⟩
  · rintro ⟨rfl, hj⟩
    exact ⟨i, hj, rfl⟩

theorem Grows.next (h : Grows own defs passed s s') : s.locals.next ≤ s'.locals.next := by
  have hlength := h.types.length_le
  rw [Locals.next, Locals.next, h.params]
  omega

namespace Fresh

theorem nil (owner : NodeId) (own : Bool) (c : Check.State) (passed : List Event) (s s' : State)
    (defs : List NodeId) : Fresh owner own c passed s s' defs [] where
  keys := List.nodup_nil
  places := List.nodup_nil
  frames := List.forall_mem_nil _
  owners := List.forall_mem_nil _

/-- Names that are only declared in new frames are not declared in the innermost one. -/
theorem not_here (h : Fresh owner false c passed s s' defs ds) (hv : c.scopes.Valid) {d : Declaration}
    (hd : d ∈ ds) : c.scopes.opened.head? ≠ some d.frame := by
  intro hopened
  have hlt := hv.bound _ (List.mem_of_head? hopened)
  rcases h.frames d hd with hf | ⟨hown, -⟩
  · omega
  · cases hown

theorem weaken (h : Fresh owner false c passed s s' defs ds) : Fresh owner own c passed s s' defs ds where
  keys := h.keys
  places := h.places
  frames d hd := by
    rcases h.frames d hd with hf | ⟨hown, -⟩
    · exact .inl hf
    · cases hown
  owners := h.owners

/-- Between other states, with the same locals or more of them. -/
theorem between {t t' : State} (h : Fresh owner own c passed s s' defs ds)
    (hle : t.locals.next ≤ s.locals.next) (hle' : s'.locals.next ≤ t'.locals.next) :
    Fresh owner own c passed t t' defs ds where
  keys := h.keys
  places := h.places
  frames := h.frames
  owners d hd := by
    rcases h.owners d hd with ⟨ho, hslot⟩ | ho
    · refine .inl ⟨ho, fun i hi => ?_⟩
      have hlt := hslot i hi
      omega
    · exact .inr ho

/-- Two parts, one behind the other, which declare different names in the innermost frame. -/
theorem append (h : Fresh owner own c passed s s' defs ds) (h' : Fresh owner own c' more s' s'' more' es)
    (hv : c.scopes.Valid) (hg : c.scopes.Grows true passed c'.scopes)
    (hnames : ∀ d ∈ ds, ∀ e ∈ es, c.scopes.opened.head? = some e.frame → d.key ≠ e.key)
    (hdefs : (owner :: (defs ++ more')).Nodup) (hle : s.locals.next ≤ s'.locals.next)
    (hle' : s'.locals.next ≤ s''.locals.next) :
    Fresh owner own c (passed ++ more) s s'' (defs ++ more') (ds ++ es) where
  keys := by
    rw [List.map_append, List.nodup_append]
    refine ⟨h.keys, h'.keys, ?_⟩
    rintro _ hdk _ hek heq
    obtain ⟨d, hd, rfl⟩ := List.mem_map.mp hdk
    obtain ⟨e, he, rfl⟩ := List.mem_map.mp hek
    obtain ⟨hframe, -⟩ := Prod.mk.inj heq
    have hsize := hg.size
    rcases h'.frames e he with he' | ⟨-, hopened, -⟩
    · rcases h.frames d hd with hd' | ⟨-, hopened, -⟩
      · omega
      · have hlt := hv.bound _ (List.mem_of_head? hopened)
        omega
    · rw [hg.opened] at hopened
      exact hnames d hd e he hopened heq
  places := by
    rw [List.filterMap_append, List.nodup_append]
    refine ⟨h.places, h'.places, ?_⟩
    rintro ⟨o, i⟩ hdx _ hex rfl
    obtain ⟨d, hd, hdp⟩ := List.mem_filterMap.mp hdx
    obtain ⟨e, he, hep⟩ := List.mem_filterMap.mp hex
    obtain ⟨rfl, hdi⟩ := place_eq_some.mp hdp
    obtain ⟨howner, hei⟩ := place_eq_some.mp hep
    have howner : e.owner = d.owner := howner
    rw [List.nodup_cons, List.nodup_append] at hdefs
    obtain ⟨hnot, -, -, hdisjoint⟩ := hdefs
    rcases h.owners d hd with ⟨ho, hslot⟩ | ho <;> rcases h'.owners e he with ⟨ho', hslot'⟩ | ho'
    · have hlt := hslot i hdi
      have hge := hslot' i hei
      omega
    · rw [howner, ho] at ho'
      exact hnot (List.mem_append_right _ ho')
    · rw [← howner, ho'] at ho
      exact hnot (List.mem_append_left _ ho)
    · exact hdisjoint _ ho _ ho' howner.symm
  frames := by
    have hsize := hg.size
    refine List.forall_mem_append.mpr ⟨fun d hd => ?_, fun e he => ?_⟩
    · rcases h.frames d hd with hf | hf
      · rw [List.count_append]
        exact .inl ⟨hf.1, by omega⟩
      · exact .inr hf
    · rcases h'.frames e he with hf | ⟨hown, hopened, hfree⟩
      · rw [List.count_append]
        exact .inl ⟨by omega, by omega⟩
      · rw [hg.opened] at hopened
        exact .inr ⟨hown, hopened, hg.localHere?_eq_none hv hfree⟩
  owners := by
    refine List.forall_mem_append.mpr ⟨fun d hd => ?_, fun e he => ?_⟩
    · rcases h.owners d hd with ⟨ho, hslot⟩ | ho
      · refine .inl ⟨ho, fun i hi => ?_⟩
        have hlt := hslot i hi
        omega
      · exact .inr (List.mem_append_left _ ho)
    · rcases h'.owners e he with ⟨ho, hslot⟩ | ho
      · refine .inl ⟨ho, fun i hi => ?_⟩
        have hlt := hslot i hi
        omega
      · exact .inr (List.mem_append_right _ ho)

/-- Two parts of which the first one only declares names in new frames. -/
theorem seq (h : Fresh owner false c passed s s' defs ds) (h' : Fresh owner own c' more s' s'' more' es)
    (hv : c.scopes.Valid) (hg : c.scopes.Grows false passed c'.scopes)
    (hdefs : (owner :: (defs ++ more')).Nodup) (hle : s.locals.next ≤ s'.locals.next)
    (hle' : s'.locals.next ≤ s''.locals.next) :
    Fresh owner own c (passed ++ more) s s'' (defs ++ more') (ds ++ es) := by
  refine h.weaken.append h' hv hg.weaken ?_ hdefs hle hle'
  intro d hd e _ hopened hkey
  have hframe : d.frame = e.frame := congrArg Prod.fst hkey
  exact h.not_here hv hd (hframe ▸ hopened)

/-- Two parts of which the last one only declares names in new frames. -/
theorem seqLast (h : Fresh owner own c passed s s' defs ds)
    (h' : Fresh owner false c' more s' s'' more' es) (hv : c.scopes.Valid)
    (hg : c.scopes.Grows true passed c'.scopes) (hdefs : (owner :: (defs ++ more')).Nodup)
    (hle : s.locals.next ≤ s'.locals.next) (hle' : s'.locals.next ≤ s''.locals.next) :
    Fresh owner own c (passed ++ more) s s'' (defs ++ more') (ds ++ es) := by
  refine h.append h'.weaken hv hg ?_ hdefs hle hle'
  intro d _ e he hopened _
  have hlt := hv.bound _ (List.mem_of_head? hopened)
  have hsize := hg.size
  rcases h'.frames e he with hf | ⟨hown, -⟩
  · omega
  · cases hown

/-- The frame of a block is new around the block. -/
theorem inScope (h : Fresh owner true c' passed s s' defs ds) (hc : c.scopes.Opens c'.scopes) :
    Fresh owner false c (enclosed passed) s s' defs ds where
  keys := h.keys
  places := h.places
  frames d hd := by
    have hsize := hc.size
    rw [count_enclosed]
    rcases h.frames d hd with hf | ⟨-, hopened, -⟩
    · exact .inl ⟨by omega, by omega⟩
    · rw [hc.opened, List.head?_cons, Option.some_inj] at hopened
      exact .inl ⟨by omega, by omega⟩
  owners := h.owners

theorem perm (h : Fresh owner own c passed s s' defs ds) (hp : ds.Perm es) :
    Fresh owner own c passed s s' defs es where
  keys := (hp.map _).nodup_iff.mp h.keys
  places := (hp.filterMap _).nodup_iff.mp h.places
  frames d hd := h.frames d (hp.mem_iff.mpr hd)
  owners d hd := h.owners d (hp.mem_iff.mpr hd)

end Fresh

theorem Locals.next_declare (l : Locals) (name : String) (slot : Option Nat) :
    (l.declare name slot).next = l.next := by
  obtain ⟨hparams, htypes, -⟩ := l.declare_rest name slot
  rw [Locals.next, Locals.next, hparams, htypes]

theorem Locals.lookup_declare {l : Locals} {name : String} {slot : Option Nat} {i : Nat}
    (h : ((l.declare name slot).lookup name).join = some i) : slot = some i := by
  unfold Locals.declare Locals.lookup at h
  split at h
  · rename_i hnil
    rw [hnil] at h
    cases h
  · rw [List.findSome?_cons, List.lookup_cons_self] at h
    exact h

/-- The name of a `let` statement gets the new local, if it gets one. -/
theorem binding_slot {env : Env} {id : NodeId} {name : Ident} {is : List Wasm.Instr} {t : Ty} {i : Nat}
    (hrun : binding env id name s = .ok is s') (ht : env.types.get? id = some t)
    (hi : (s'.locals.lookup name.text).join = some i) : s.locals.next ≤ i ∧ i < s'.locals.next := by
  rcases binding_ok hrun ht with ⟨v, -, -, rfl⟩ | ⟨-, -, rfl⟩
  · have hslot := Option.some_inj.mp (Locals.lookup_declare hi)
    have hindex : (s.locals.add v).1 = s.locals.next := rfl
    have hnext : (s.locals.add v).2.next = s.locals.next + 1 := by
      simp only [Locals.next, Locals.add, List.length_append, List.length_singleton]
      omega
    rw [hindex] at hslot
    show _ ∧ i < ((s.locals.add v).2.declare name.text _).next
    rw [Locals.next_declare, hnext]
    omega
  · cases Locals.lookup_declare hi

end

section

variable {env : Env} {c : Check.State} {s : State} {h : Header}

theorem declarations_place {e : Expr} {name : Ident} (he : e.place? = some name) :
    (e.visits (joint env) h true (c, s)).flatMap (declarations env) = [] := by
  rw [List.flatMap_eq_nil_iff]
  intro v hv
  obtain ⟨-, -, -, e', hnode, -⟩ := visits_place e he v hv
  unfold declarations
  rw [hnode]

theorem names_paramLocals (hs : h.Sound) :
    (Check.paramLocals h).map Prod.fst = (h.params.map Ident.text).reverse := by
  rw [Check.paramLocals, List.map_reverse, List.map_map]
  refine congrArg List.reverse ?_
  have hmap : (h.params.zip h.signature.params).map Prod.fst = h.params :=
    List.map_fst_zip (Nat.le_of_eq hs.params)
  rw [← hmap, List.map_map, hmap]
  rfl

theorem keys_paramDeclarations (hs : h.Sound) (hn : ((Check.paramLocals h).map Prod.fst).Nodup)
    (k : Nat) : ((paramDeclarations h k).map Declaration.key).Nodup := by
  have hkeys : (paramDeclarations h k).map Declaration.key = (h.params.map Ident.text).map (k, ·) := by
    rw [paramDeclarations, List.map_map, List.map_map]
    conv_rhs => rw [← List.zipIdx_map_fst 0 h.params, List.map_map]
    rfl
  rw [names_paramLocals hs, List.nodup_reverse] at hn
  rw [hkeys]
  exact hn.map fun a b hab => (Prod.mk.inj hab).2

theorem places_paramDeclarations (h : Header) (k : Nat) :
    ((paramDeclarations h k).filterMap Declaration.place).Nodup := by
  have hplaces : (paramDeclarations h k).filterMap Declaration.place =
      (List.range' 0 h.params.length).map (h.id, ·) := by
    rw [paramDeclarations, List.filterMap_map, ← List.zipIdx_map_snd 0 h.params, List.map_map,
      ← List.filterMap_eq_map]
    rfl
  rw [hplaces]
  exact List.Nodup.map (fun a b hab => (Prod.mk.inj hab).2) List.nodup_range'

theorem mem_paramDeclarations {k : Nat} {d : Declaration} (hd : d ∈ paramDeclarations h k) :
    d.owner = h.id ∧ d.frame = k ∧ ∃ i < h.params.length, d.slot = some i := by
  obtain ⟨⟨p, i⟩, hp, rfl⟩ := List.mem_map.mp hd
  have hi := List.mem_zipIdx_iff_getElem?.mp hp
  obtain ⟨hlt, -⟩ := List.getElem?_eq_some_iff.mp hi
  exact ⟨rfl, rfl, i, hlt, rfl⟩

end

/-- A function declares its parameters, and what its body declares. -/
theorem Fresh.function {c c' : Check.State} {passed : List Event} {s s' : State} {h : Header}
    {defs : List NodeId} {ds : List Declaration}
    (hb : Fresh h.id false c' passed (s.atFunction h) s' defs ds) (hc : c.scopes.Opens c'.scopes)
    (hs : h.Sound) (hn : ((Check.paramLocals h).map Prod.fst).Nodup) (hdefs : (h.id :: defs).Nodup)
    (owner : NodeId) (t : State) :
    Fresh owner false c (enclosed passed) t t (h.id :: defs)
      (paramDeclarations h c.scopes.record.frames.size ++ ds) := by
  have hsize := hc.size
  have hbody : ∀ d ∈ ds, c'.scopes.record.frames.size ≤ d.frame ∧
      d.frame < c'.scopes.record.frames.size + passed.count .push := by
    intro d hd
    rcases hb.frames d hd with hf | ⟨hown, -⟩
    · exact hf
    · cases hown
  refine ⟨?_, ?_, ?_, ?_⟩
  · rw [List.map_append, List.nodup_append]
    refine ⟨keys_paramDeclarations hs hn _, hb.keys, ?_⟩
    rintro _ hpk _ hdk heq
    obtain ⟨p, hp, rfl⟩ := List.mem_map.mp hpk
    obtain ⟨d, hd, rfl⟩ := List.mem_map.mp hdk
    obtain ⟨-, hframe, -⟩ := mem_paramDeclarations hp
    have hd' := hbody d hd
    have hkey : p.frame = d.frame := congrArg Prod.fst heq
    omega
  · rw [List.filterMap_append, List.nodup_append]
    refine ⟨places_paramDeclarations h _, hb.places, ?_⟩
    rintro ⟨o, i⟩ hpx _ hdx rfl
    obtain ⟨p, hp, hpp⟩ := List.mem_filterMap.mp hpx
    obtain ⟨d, hd, hdp⟩ := List.mem_filterMap.mp hdx
    obtain ⟨howner, -, j, hj, hslot⟩ := mem_paramDeclarations hp
    obtain ⟨hpo, hpi⟩ := place_eq_some.mp hpp
    obtain ⟨hdo, hdi⟩ := place_eq_some.mp hdp
    have heq : d.owner = h.id := hdo.trans (hpo.symm.trans howner)
    rcases hb.owners d hd with ⟨-, hnew⟩ | hin
    · have hle : h.params.length ≤ i := (hnew i hdi).1
      rw [hslot, Option.some_inj] at hpi
      have hji : j = i := hpi
      omega
    · rw [heq] at hin
      exact (List.nodup_cons.mp hdefs).1 hin
  · rw [count_enclosed]
    refine List.forall_mem_append.mpr ⟨fun p hp => ?_, fun d hd => ?_⟩
    · obtain ⟨-, hframe, -⟩ := mem_paramDeclarations hp
      exact .inl ⟨by omega, by omega⟩
    · have hd' := hbody d hd
      exact .inl ⟨by omega, by omega⟩
  · refine List.forall_mem_append.mpr ⟨fun p hp => ?_, fun d hd => ?_⟩
    · obtain ⟨howner, -⟩ := mem_paramDeclarations hp
      exact .inr (howner ▸ List.mem_cons_self)
    · rcases hb.owners d hd with ⟨ho, -⟩ | hin
      · exact .inr (ho ▸ List.mem_cons_self)
      · exact .inr (List.mem_cons_of_mem _ hin)

variable {env : Env} {given : Prop} {headers : List Header}

/-- The numbers of a function and of those inside two parts of it, where they are distinct. -/
theorem nodup_parts {owner : NodeId} {ms ns : List Node}
    (h : (owner :: definedIn (ms ++ ns)).Nodup) :
    (owner :: (definedIn ms ++ definedIn ns)).Nodup ∧ (owner :: definedIn ms).Nodup ∧
      (owner :: definedIn ns).Nodup := by
  rw [definedIn_append] at h
  exact ⟨h, h.sublist (List.cons_sublist_cons.mpr (List.sublist_append_left _ _)),
    h.sublist (List.cons_sublist_cons.mpr (List.sublist_append_right _ _))⟩

/-- The name of a `let` statement is declared behind its value. -/
theorem bind_fresh {h : Header} {c : Check.State} {s s' : State} {is : List Wasm.Instr} {id : NodeId}
    {span : Span} {name : Ident} {declared : Option Ty} {init : Expr} {ds : List Declaration}
    (hv : c.scopes.Valid) (ho : c.scopes.opened.isEmpty = false)
    (hrun : Lower.stmt env (.bind id span name declared init) s = .ok is s')
    (hd : (h.id :: definedIn init.nodes).Nodup)
    (hc : Check.Clean env.types given headers
      ⟨.stmt (.bind id span name declared init), some h, false, c⟩)
    (hinit : ∀ {value s₁}, expr env init s = .ok value s₁ →
      Fresh h.id false c init.scopes s s₁ (definedIn init.nodes) ds) :
    Fresh h.id true c init.scopes s s' (definedIn init.nodes)
        (declarations env ⟨.stmt (.bind id span name declared init), some h, false, (c, s)⟩ ++ ds) ∧
      ∀ d ∈ declarations env ⟨.stmt (.bind id span name declared init), some h, false, (c, s)⟩ ++ ds,
        c.scopes.opened.head? = some d.frame →
          (Check.after (do Check.binding id name declared init (← Check.expr init))
            c).scopes.localHere? d.name ≠ none := by
  have hafter := after_ok hrun
  obtain ⟨value, s₁, code, hvalue, hcode, -⟩ := stmt_bind_ok hrun
  obtain ⟨t, ht, -, -, -, hfree⟩ := Check.Clean.bind hc
  have hg := Check.expr_grows init c
  have hv₁ := hg.scopes.valid hv
  obtain ⟨k, f, htop⟩ := hv.top ho
  have hfront := hinit hvalue
  have hopened : (Check.after (Check.expr init) c).scopes.opened.head? = some k := by
    rw [hg.scopes.opened]
    exact htop.opened
  have hlast : Fresh h.id true (Check.after (Check.expr init) c) [] s₁ s' []
      [⟨h.id, k, name.text, (s'.locals.lookup name.text).join⟩] := by
    refine ⟨List.nodup_singleton _, ?_, ?_, ?_⟩
    · rw [List.filterMap_cons]
      split
      · exact List.nodup_nil
      · exact List.nodup_singleton _
    · exact List.forall_mem_singleton.mpr (.inr ⟨rfl, hopened, hfree⟩)
    · exact List.forall_mem_singleton.mpr (.inl ⟨rfl, fun i hi => binding_slot hcode ht hi⟩)
  have hself : declarations env
      (⟨.stmt (.bind id span name declared init), some h, false, (c, s)⟩ : JointVisit) =
      [⟨h.id, k, name.text, (s'.locals.lookup name.text).join⟩] := by
    simp only [declarations, htop.opened, Option.getD_some, hafter]
  have hdefs : (h.id :: (definedIn init.nodes ++ [])).Nodup := by
    rw [List.append_nil]
    exact hd
  have hfresh := (hfront.seq hlast hv hg.scopes hdefs ((expr_lowers env init s).ok hvalue).next
    ((Lowers.binding id name s₁).ok hcode).next).perm (List.perm_append_singleton _ _)
  rw [List.append_nil, List.append_nil] at hfresh
  obtain ⟨k', f', htop'⟩ := hv₁.top (by rw [hg.scopes.opened]; exact ho)
  have hbound : (Check.after (Check.binding id name declared init (Check.value (Check.expr init) c))
      (Check.after (Check.expr init) c)).scopes.localHere? name.text ≠ none := by
    rw [Check.localHere?_binding id name declared init _ htop']
    exact Option.some_ne_none _
  rw [hself]
  refine ⟨hfresh, ?_⟩
  intro d hd' hhere
  rcases List.mem_cons.mp hd' with rfl | hd'
  · exact hbound
  · exact absurd hhere (hfront.not_here hv hd')

mutual
/-- What an expression declares is fresh. -/
theorem expr_fresh (hs : ∀ h ∈ headers, h.Sound) (h : Header) :
    ∀ (e : Expr) (c : Check.State) {s s' : State} {is : List Wasm.Instr}, c.scopes.Valid →
    expr env e s = .ok is s' → (h.id :: definedIn e.nodes).Nodup →
    (∀ v ∈ e.visits (joint env) h false (c, s), Check.Clean env.types given headers v.fst) →
    Fresh h.id false c e.scopes s s' (definedIn e.nodes)
      ((e.visits (joint env) h false (c, s)).flatMap (declarations env))
  | .literal id span value, c, s, s', is, hv, hrun, hd, hc => .nil ..
  | .path id span name, c, s, s', is, hv, hrun, hd, hc => .nil ..
  | .grouped id span inner, c, s, s', is, hv, hrun, hd, hc => by
    obtain ⟨t, code, -, hinner, -⟩ := expr_grouped_ok hrun
    rw [Expr.visits, List.forall_mem_cons] at hc
    rw [Expr.visits, Expr.nodes, Expr.scopes]
    rw [Expr.nodes] at hd
    exact expr_fresh hs h inner c hv hinner hd hc.2
  | .unary id span op operand, c, s, s', is, hv, hrun, hd, hc => by
    obtain ⟨t, u, code, -, -, hoperand, -⟩ := expr_unary_ok hrun
    rw [Expr.visits, List.forall_mem_cons] at hc
    rw [Expr.visits, Expr.nodes, Expr.scopes]
    rw [Expr.nodes] at hd
    exact expr_fresh hs h operand c hv hoperand hd hc.2
  | .binary id span op lhs rhs, c, s, s', is, hv, hrun, hd, hc => by
    rw [Expr.visits, List.forall_mem_cons, List.forall_mem_append] at hc
    rw [Expr.nodes, definedIn_expr] at hd
    obtain ⟨hboth, hleft, hright⟩ := nodup_parts hd
    have hgl := Check.expr_grows lhs c
    have hv₁ := hgl.scopes.valid hv
    rw [Expr.visits, Expr.nodes, Expr.scopes, List.flatMap_cons, List.flatMap_append, definedIn_expr,
      definedIn_append]
    by_cases ho : op = .assign
    · subst ho
      obtain ⟨t, name, value, slot, -, hname, hvalue, -⟩ := expr_assign_ok hrun
      have hfresh := expr_fresh hs h rhs _ hv₁ hvalue hright hc.2.2
      have hnone : (lhs.visits (joint env) h (false || decide (BinaryOp.assign = .assign)) (c, s)).flatMap
          (declarations env) = [] := declarations_place hname
      rw [hnone]
      exact (Fresh.nil h.id false c lhs.scopes s s (definedIn lhs.nodes)).seq hfresh hv hgl.scopes hboth
        (Nat.le_refl _) ((expr_lowers env rhs s).ok hvalue).next
    · obtain ⟨t, l, s₁, r, s₂, code, -, hl, hr, hop, -⟩ := expr_binary_ok ho hrun
      have htarget : (false || decide (op = .assign)) = false := by simp [ho]
      rw [htarget, joint_left ho, after_ok hl] at hc
      rw [htarget, joint_left ho, after_ok hl]
      have hfresh := (expr_fresh hs h lhs c hv hl hleft hc.2.1).seq
        (expr_fresh hs h rhs _ hv₁ hr hright hc.2.2) hv hgl.scopes hboth
        ((expr_lowers env lhs s).ok hl).next ((expr_lowers env rhs s₁).ok hr).next
      have hgrows : Grows false [] [] s₂ s' := (Lowers.binary op lhs rhs s₂).ok hop
      exact hfresh.between (Nat.le_refl _) hgrows.next
  | .call id span callee args, c, s, s', is, hv, hrun, hd, hc => by
    obtain ⟨t, values, d, index, -, hvalues, -⟩ := expr_call_ok hrun
    rw [Expr.visits, List.forall_mem_cons] at hc
    rw [Expr.visits, Expr.nodes, Expr.scopes]
    rw [Expr.nodes] at hd
    exact exprs_fresh hs h args c hv hvalues hd hc.2
  | .ret id span none, c, s, s', is, hv, hrun, hd, hc => .nil ..
  | .ret id span (some value), c, s, s', is, hv, hrun, hd, hc => by
    obtain ⟨t, code, -, hvalue, -⟩ := expr_ret_some_ok hrun
    rw [Expr.visits, List.forall_mem_cons] at hc
    rw [Expr.visits, Expr.nodes, Expr.scopes]
    rw [Expr.nodes] at hd
    exact expr_fresh hs h value c hv hvalue hd hc.2
  | .block id span body, c, s, s', is, hv, hrun, hd, hc => by
    obtain ⟨t, code, -, hbody, -⟩ := expr_block_ok hrun
    rw [Expr.visits, List.forall_mem_cons] at hc
    rw [Expr.visits, Expr.nodes, Expr.scopes]
    rw [Expr.nodes] at hd
    exact block_fresh hs h body c hv hbody hd hc.2
  | .loop id span body, c, s, s', is, hv, hrun, hd, hc => by
    obtain ⟨t, code, b, w, -, hbody, -⟩ := expr_loop_ok hrun
    rw [Expr.visits, List.forall_mem_cons] at hc
    rw [Expr.visits, Expr.nodes, Expr.scopes]
    rw [Expr.nodes] at hd
    exact block_fresh hs h body c hv hbody hd hc.2
  | .while id span test body, c, s, s', is, hv, hrun, hd, hc => by
    obtain ⟨t, code, s₁, code', b, w, -, htest, hbody, -⟩ := expr_while_ok hrun
    rw [Expr.visits, List.forall_mem_cons, List.forall_mem_append, joint_test htest] at hc
    rw [Expr.nodes, definedIn_expr] at hd
    obtain ⟨hboth, hleft, hright⟩ := nodup_parts hd
    have hg := Check.test_grows h test c
    rw [Expr.visits, Expr.nodes, Expr.scopes, List.flatMap_cons, List.flatMap_append, definedIn_expr,
      definedIn_append, joint_test htest]
    exact (expr_fresh hs h test c hv htest hleft hc.2.1).seq
      (block_fresh hs h body _ (hg.scopes.valid hv) hbody hright hc.2.2) hv hg.scopes hboth
      ((expr_lowers env test s).ok htest).next ((block_lowers env body s₁).ok hbody).next
  | .cond id span links, c, s, s', is, hv, hrun, hd, hc => by
    obtain ⟨t, code, -, hlinks, -⟩ := expr_cond_ok hrun
    rw [Expr.visits, List.forall_mem_cons] at hc
    rw [Expr.visits, Expr.nodes, Expr.scopes]
    rw [Expr.nodes] at hd
    exact cond_fresh hs h links t c hv hlinks hd hc.2

theorem exprs_fresh (hs : ∀ h ∈ headers, h.Sound) (h : Header) :
    ∀ (es : List Expr) (c : Check.State) {s s' : State} {is : List Wasm.Instr}, c.scopes.Valid →
    exprs env es s = .ok is s' → (h.id :: definedIn (exprNodes es)).Nodup →
    (∀ v ∈ exprVisits (joint env) h false es (c, s), Check.Clean env.types given headers v.fst) →
    Fresh h.id false c (exprScopes es) s s' (definedIn (exprNodes es))
      ((exprVisits (joint env) h false es (c, s)).flatMap (declarations env))
  | [], c, s, s', is, hv, hrun, hd, hc => .nil ..
  | e :: es, c, s, s', is, hv, hrun, hd, hc => by
    obtain ⟨first, s₁, rest, hfirst, hrest, -⟩ := exprs_cons_ok hrun
    rw [exprVisits, List.forall_mem_append, joint_expr hfirst] at hc
    rw [exprNodes] at hd
    obtain ⟨hboth, hleft, hright⟩ := nodup_parts hd
    have hg := Check.expr_grows e c
    rw [exprVisits, exprNodes, exprScopes, List.flatMap_append, definedIn_append, joint_expr hfirst]
    exact (expr_fresh hs h e c hv hfirst hleft hc.1).seq
      (exprs_fresh hs h es _ (hg.scopes.valid hv) hrest hright hc.2) hv hg.scopes hboth
      ((expr_lowers env e s).ok hfirst).next ((exprs_lowers env es s₁).ok hrest).next

theorem cond_fresh (hs : ∀ h ∈ headers, h.Sound) (h : Header) :
    ∀ (links : Cond) (t : Ty) (c : Check.State) {s s' : State} {is : List Wasm.Instr}, c.scopes.Valid →
    cond env links t s = .ok is s' → (h.id :: definedIn links.nodes).Nodup →
    (∀ v ∈ links.visits (joint env) h false (c, s), Check.Clean env.types given headers v.fst) →
    Fresh h.id false c links.scopes s s' (definedIn links.nodes)
      ((links.visits (joint env) h false (c, s)).flatMap (declarations env))
  | .only test yes, t, c, s, s', is, hv, hrun, hd, hc => by
    obtain ⟨code, s₁, code', b, w, htest, hyes, -⟩ := cond_only_ok hrun
    rw [Cond.visits, List.forall_mem_append, joint_test htest] at hc
    rw [Cond.nodes] at hd
    obtain ⟨hboth, hleft, hright⟩ := nodup_parts hd
    have hg := Check.test_grows h test c
    rw [Cond.visits, Cond.nodes, Cond.scopes, List.flatMap_append, definedIn_append, joint_test htest]
    exact (expr_fresh hs h test c hv htest hleft hc.1).seq
      (block_fresh hs h yes _ (hg.scopes.valid hv) hyes hright hc.2) hv hg.scopes hboth
      ((expr_lowers env test s).ok htest).next ((block_lowers env yes s₁).ok hyes).next
  | .orElse test yes no, t, c, s, s', is, hv, hrun, hd, hc => by
    obtain ⟨code, s₁, result, yesCode, s₂, noCode, htest, -, hyes, hno, -⟩ := cond_orElse_ok hrun
    rw [Cond.visits, List.forall_mem_append, List.forall_mem_append, joint_test htest,
      joint_block hyes] at hc
    rw [Cond.nodes] at hd
    obtain ⟨hall, hfront, hlast⟩ := nodup_parts hd
    obtain ⟨hboth, hleft, hright⟩ := nodup_parts hfront
    have hg := Check.test_grows h test c
    have hg' := Check.block_grows yes (Check.pass.test h test c)
    have hl := ((expr_lowers env test s).ok htest).next
    have hl' := ((block_lowers env yes s₁).ok hyes).next
    have hv₁ := hg.scopes.valid hv
    rw [Cond.visits, Cond.nodes, Cond.scopes, List.flatMap_append, List.flatMap_append,
      definedIn_append, joint_test htest, joint_block hyes]
    have hbegin := (expr_fresh hs h test c hv htest hleft hc.1.1).seq
      (block_fresh hs h yes _ hv₁ hyes hright hc.1.2) hv hg.scopes hboth hl hl'
    rw [definedIn_append] at hall ⊢
    exact hbegin.seq (block_fresh hs h no _ (hg'.scopes.valid hv₁) hno hlast hc.2) hv
      (hg.scopes.trans hg'.scopes) hall (Nat.le_trans hl hl') ((block_lowers env no s₂).ok hno).next
  | .orIf test yes no, t, c, s, s', is, hv, hrun, hd, hc => by
    obtain ⟨code, s₁, result, yesCode, s₂, noCode, htest, -, hyes, hno, -⟩ := cond_orIf_ok hrun
    rw [Cond.visits, List.forall_mem_append, List.forall_mem_append, joint_test htest,
      joint_block hyes] at hc
    rw [Cond.nodes] at hd
    obtain ⟨hall, hfront, hlast⟩ := nodup_parts hd
    obtain ⟨hboth, hleft, hright⟩ := nodup_parts hfront
    have hg := Check.test_grows h test c
    have hg' := Check.block_grows yes (Check.pass.test h test c)
    have hl := ((expr_lowers env test s).ok htest).next
    have hl' := ((block_lowers env yes s₁).ok hyes).next
    have hv₁ := hg.scopes.valid hv
    rw [Cond.visits, Cond.nodes, Cond.scopes, List.flatMap_append, List.flatMap_append,
      definedIn_append, joint_test htest, joint_block hyes]
    have hbegin := (expr_fresh hs h test c hv htest hleft hc.1.1).seq
      (block_fresh hs h yes _ hv₁ hyes hright hc.1.2) hv hg.scopes hboth hl hl'
    rw [definedIn_append] at hall ⊢
    exact hbegin.seq (cond_fresh hs h no t _ (hg'.scopes.valid hv₁) hno hlast hc.2) hv
      (hg.scopes.trans hg'.scopes) hall (Nat.le_trans hl hl') ((cond_lowers env no t s₂).ok hno).next

theorem block_fresh (hs : ∀ h ∈ headers, h.Sound) (h : Header) :
    ∀ (b : Block) (c : Check.State) {s s' : State} {is : List Wasm.Instr}, c.scopes.Valid →
    block env b s = .ok is s' → (h.id :: definedIn b.nodes).Nodup →
    (∀ v ∈ b.visits (joint env) h false (c, s), Check.Clean env.types given headers v.fst) →
    Fresh h.id false c b.scopes s s' (definedIn b.nodes)
      ((b.visits (joint env) h false (c, s)).flatMap (declarations env))
  | .mk id span items ss none, c, s, s', is, hv, hrun, hd, hc => by
    obtain ⟨he, s₁, s₂, hitems, hstmts, -, hlocals⟩ := block_none_ok hrun
    rw [Block.visits, List.forall_mem_cons, List.forall_mem_append, joint_atBlock he,
      joint_items hitems] at hc
    rw [Block.nodes, definedIn_block] at hd
    obtain ⟨hboth, hleft, hright⟩ := nodup_parts hd
    have hopens := (Check.opens_atBlock items c).scopes
    have hg := Check.items_grows items (Check.atBlock items c)
    have hv₁ := hopens.valid hv
    have htop : ((Check.after (Check.items items) (Check.atBlock items c)).scopes.opened).isEmpty = false := by
      rw [hg.scopes.opened, hopens.opened, List.isEmpty_cons]
    have hnext : s₂.locals.next ≤ s'.locals.next := by
      rw [hlocals]
      exact Nat.le_refl _
    rw [Block.visits, Block.nodes, Block.scopes, List.flatMap_cons, List.flatMap_append, definedIn_block,
      definedIn_append, joint_atBlock he, joint_items hitems]
    have hl := ((items_lowers env items _).ok hitems).next
    have hfront := (items_fresh hs items _ h.id s.atBlock hv₁ hitems hleft hc.2.1).between
      (Nat.le_refl _) hl
    have hinner := hfront.seq (stmts_fresh hs h ss _ (hg.scopes.valid hv₁) htop hstmts hright hc.2.2)
      hv₁ hg.scopes hboth hl ((stmts_lowers env ss s₁).ok hstmts).next
    exact (hinner.inScope hopens).between (Nat.le_refl _) hnext
  | .mk id span items ss (some e), c, s, s', is, hv, hrun, hd, hc => by
    obtain ⟨he, s₁, code, s₂, last, s₃, hitems, hstmts, hlast, -, -, hlocals⟩ := block_some_ok hrun
    rw [Block.visits, List.forall_mem_cons, List.forall_mem_append, List.forall_mem_append,
      joint_atBlock he, joint_items hitems, joint_stmts hstmts] at hc
    rw [Block.nodes, definedIn_block] at hd
    obtain ⟨hall, hfront, hend⟩ := nodup_parts hd
    obtain ⟨hboth, hleft, hright⟩ := nodup_parts hfront
    have hopens := (Check.opens_atBlock items c).scopes
    have hg := Check.items_grows items (Check.atBlock items c)
    have hg' := Check.stmts_grows ss (Check.after (Check.items items) (Check.atBlock items c))
    have hv₁ := hopens.valid hv
    have hv₂ := hg.scopes.valid hv₁
    have htop : ((Check.after (Check.items items) (Check.atBlock items c)).scopes.opened).isEmpty = false := by
      rw [hg.scopes.opened, hopens.opened, List.isEmpty_cons]
    have hnext : s₃.locals.next ≤ s'.locals.next := by
      rw [hlocals]
      exact Nat.le_refl _
    have hl := ((items_lowers env items _).ok hitems).next
    have hl' := ((stmts_lowers env ss s₁).ok hstmts).next
    rw [Block.visits, Block.nodes, Block.scopes, List.flatMap_cons, List.flatMap_append,
      List.flatMap_append, definedIn_block, definedIn_append, joint_atBlock he, joint_items hitems,
      joint_stmts hstmts]
    have hfirst := (items_fresh hs items _ h.id s.atBlock hv₁ hitems hleft hc.2.1.1).between
      (Nat.le_refl _) hl
    have hbegin := hfirst.seq (stmts_fresh hs h ss _ hv₂ htop hstmts hright hc.2.1.2) hv₁ hg.scopes
      hboth hl hl'
    have htail := expr_fresh hs h e _ (hg'.scopes.valid hv₂) hlast hend hc.2.2
    rw [definedIn_append] at hall ⊢
    have hinner := hbegin.seqLast htail hv₁ (hg.scopes.weaken.trans hg'.scopes) hall
      (Nat.le_trans hl hl') ((expr_lowers env e s₂).ok hlast).next
    exact (hinner.inScope hopens).between (Nat.le_refl _) hnext

theorem stmts_fresh (hs : ∀ h ∈ headers, h.Sound) (h : Header) :
    ∀ (ss : List Stmt) (c : Check.State) {s s' : State} {is : List Wasm.Instr}, c.scopes.Valid →
    c.scopes.opened.isEmpty = false → stmts env ss s = .ok is s' →
    (h.id :: definedIn (stmtNodes ss)).Nodup →
    (∀ v ∈ stmtVisits (joint env) h false ss (c, s), Check.Clean env.types given headers v.fst) →
    Fresh h.id true c (stmtScopes ss) s s' (definedIn (stmtNodes ss))
      ((stmtVisits (joint env) h false ss (c, s)).flatMap (declarations env))
  | [], c, s, s', is, hv, ho, hrun, hd, hc => .nil ..
  | stmt :: ss, c, s, s', is, hv, ho, hrun, hd, hc => by
    obtain ⟨first, s₁, rest, hfirst, hrest, -⟩ := stmts_cons_ok hrun
    rw [stmtVisits, List.forall_mem_append, joint_stmt hfirst] at hc
    rw [stmtNodes] at hd
    obtain ⟨hboth, hleft, hright⟩ := nodup_parts hd
    have hg := Check.stmt_grows stmt c
    have ho₁ : (Check.after (Check.stmt stmt) c).scopes.opened.isEmpty = false := by
      rw [hg.scopes.opened]
      exact ho
    rw [stmtVisits, stmtNodes, stmtScopes, List.flatMap_append, definedIn_append, joint_stmt hfirst]
    obtain ⟨hfresh, hbound⟩ := stmt_fresh hs h stmt c hv ho hfirst hleft hc.1
    have hfresh' := stmts_fresh hs h ss _ (hg.scopes.valid hv) ho₁ hrest hright hc.2
    refine hfresh.append hfresh' hv hg.scopes ?_ hboth ((stmt_lowers env stmt s).ok hfirst).next
      ((stmts_lowers env ss s₁).ok hrest).next
    intro d hd' e he hopened hkey
    obtain ⟨hframe, hname⟩ := Prod.mk.inj hkey
    rcases hfresh'.frames e he with hf | ⟨-, -, hfree⟩
    · have hlt := hv.bound _ (List.mem_of_head? hopened)
      have hsize := hg.scopes.size
      omega
    · rw [← hframe] at hopened
      exact hbound d hd' hopened (hname ▸ hfree)

theorem stmt_fresh (hs : ∀ h ∈ headers, h.Sound) (h : Header) :
    ∀ (stmt : Stmt) (c : Check.State) {s s' : State} {is : List Wasm.Instr}, c.scopes.Valid →
    c.scopes.opened.isEmpty = false → Lower.stmt env stmt s = .ok is s' →
    (h.id :: definedIn stmt.nodes).Nodup →
    (∀ v ∈ stmt.visits (joint env) h false (c, s), Check.Clean env.types given headers v.fst) →
    Fresh h.id true c stmt.scopes s s' (definedIn stmt.nodes)
        ((stmt.visits (joint env) h false (c, s)).flatMap (declarations env)) ∧
      ∀ d ∈ (stmt.visits (joint env) h false (c, s)).flatMap (declarations env),
        c.scopes.opened.head? = some d.frame →
          (Check.after (Check.stmt stmt) c).scopes.localHere? d.name ≠ none
  | .bind id span name declared init, c, s, s', is, hv, ho, hrun, hd, hc => by
    rw [Stmt.visits, List.forall_mem_cons] at hc
    rw [Stmt.nodes, definedIn_stmt] at hd
    rw [Stmt.visits, Stmt.nodes, Stmt.scopes, List.flatMap_cons, definedIn_stmt, Check.stmt]
    exact bind_fresh hv ho hrun hd hc.1 fun hvalue => expr_fresh hs h init c hv hvalue hd hc.2
  | .expr span e semi, c, s, s', is, hv, ho, hrun, hd, hc => by
    obtain ⟨code, t, w, hcode, -⟩ := stmt_expr_ok hrun
    rw [Stmt.visits, List.forall_mem_cons] at hc
    rw [Stmt.nodes, definedIn_stmt] at hd
    have hfresh := expr_fresh hs h e c hv hcode hd hc.2
    rw [Stmt.visits, Stmt.nodes, Stmt.scopes, List.flatMap_cons, definedIn_stmt]
    exact ⟨hfresh.weaken, fun d hd' hopened => absurd hopened (hfresh.not_here hv hd')⟩

theorem items_fresh (hs : ∀ h ∈ headers, h.Sound) :
    ∀ (items : List Item) (c : Check.State) (owner : NodeId) (t : State) {s s' : State},
    c.scopes.Valid → Lower.items env items s = .ok () s' →
    (owner :: definedIn (itemNodes items)).Nodup →
    (∀ v ∈ itemVisits (joint env) false items (c, s), Check.Clean env.types given headers v.fst) →
    Fresh owner false c (itemScopes items) t t (definedIn (itemNodes items))
      ((itemVisits (joint env) false items (c, s)).flatMap (declarations env))
  | [], c, owner, t, s, s', hv, hrun, hd, hc => .nil ..
  | i :: items, c, owner, t, s, s', hv, hrun, hd, hc => by
    obtain ⟨s₁, hfirst, hrest⟩ := items_cons_ok hrun
    rw [itemVisits, List.forall_mem_append, joint_item hfirst] at hc
    rw [itemNodes] at hd
    obtain ⟨hboth, hleft, hright⟩ := nodup_parts hd
    have hg := Check.item_grows i c
    rw [itemVisits, itemNodes, itemScopes, List.flatMap_append, definedIn_append, joint_item hfirst]
    exact (item_fresh hs i c owner t hv hfirst hleft hc.1).seq
      (items_fresh hs items _ owner t (hg.scopes.valid hv) hrest hright hc.2) hv hg.scopes hboth
      (Nat.le_refl _) (Nat.le_refl _)

theorem item_fresh (hs : ∀ h ∈ headers, h.Sound) :
    ∀ (i : Item) (c : Check.State) (owner : NodeId) (t : State) {s s' : State},
    c.scopes.Valid → item env i s = .ok () s' → (owner :: definedIn i.nodes).Nodup →
    (∀ v ∈ i.visits (joint env) false (c, s), Check.Clean env.types given headers v.fst) →
    Fresh owner false c i.scopes t t (definedIn i.nodes)
      ((i.visits (joint env) false (c, s)).flatMap (declarations env))
  | .function h body, c, owner, t, s, s', hv, hrun, hd, hc => by
    obtain ⟨he, code, s₁, hbody, -⟩ := function_ok hrun
    rw [Item.visits, List.forall_mem_cons, joint_atFunction he] at hc
    obtain ⟨hh, hnames, -⟩ := hc.1
    rw [Item.nodes, definedIn_function] at hd
    have hdefs := (List.nodup_cons.mp hd).2
    have hopens : c.scopes.Opens (Check.atFunction h c).scopes := (Check.opens_atFunction h c).scopes
    rw [Item.visits, Item.nodes, Item.scopes, List.flatMap_cons, definedIn_function, joint_atFunction he]
    exact (block_fresh hs h body _ (hopens.valid hv) hbody hdefs hc.2).function hopens (hs h hh) hnames
      hdefs owner t
  | .foreign span abi functions, c, owner, t, s, s', hv, hrun, hd, hc => .nil ..
end

end Lower
end Ferrite
