import Ferrite.Proofs.Check.Visits

/-!
A program that is checked without a problem is clean: the types that are noted for its nodes go
together at each of them.
-/

namespace Ferrite.Check
open Scope (Frame)
open Scope.Stack (Top)

variable {given : Prop} {headers : List Header} {around : Option Header} {types : TypeTable}

/-- What names stand for in a frame: locals of fine types, and functions of the program. -/
structure FineFrame (given : Prop) (headers : List Header) (f : Frame) : Prop where
  locals : ∀ n t, (n, t) ∈ f.locals → Fine given t
  decls : ∀ d ∈ f.decls, ∃ h ∈ headers, d = h.decl

/-- A state in which a part of the program can be checked, inside a function or outside of all. -/
structure Ready (given : Prop) (headers : List Header) (around : Option Header) (s : State) : Prop where
  valid : s.scopes.Valid
  frames : ∀ k f, (k, f) ∈ s.scopes.numbered → FineFrame given headers f
  owner : s.owners.head? = around.map .of

/-- Nothing was reported up to a state, and its types are among those noted in the end. -/
structure Settled (types : TypeTable) (s : State) : Prop where
  problems : s.problems = []
  types : ∀ id t, (id, t) ∈ s.types.entries → types.get? id = some t

/-- The type that is noted for a node in the end. -/
structure Typed (given : Prop) (types : TypeTable) (id : NodeId) (t : Ty) : Prop where
  noted : types.get? id = some t
  fine : Fine given t

section

variable {s s' : State} {own : Bool} {nodes : List NodeId} {passed : List Scope.Event}

theorem Settled.before (h : Settled types s') (hg : Grows own nodes passed s s') : Settled types s where
  problems := silent_of_suffix hg.problems h.problems
  types id t hmem := by
    obtain ⟨new, hnew, -⟩ := hg.types
    refine h.types id t ?_
    rw [hnew]
    exact List.mem_append_right _ hmem

theorem Reports.settled {α : Type} {act : Checker α} (hr : Reports act)
    (h : Settled types (after act s)) : Settled types s :=
  h.before (hr.grows true s)

theorem Ready.past (h : Ready given headers around s) (hg : Grows false nodes passed s s') :
    Ready given headers around s' where
  valid := hg.scopes.valid h.valid
  frames k f hmem := h.frames k f (hg.scopes.numbered h.valid ▸ hmem)
  owner := hg.owners ▸ h.owner

theorem Ready.report {α : Type} {act : Checker α} (h : Ready given headers around s) (hr : Reports act) :
    Ready given headers around (after act s) :=
  h.past (hr.grows false s)

theorem Ready.inside (h : Ready given headers around s) (ho : Opens s s') {f : Frame}
    (htop : Top s.scopes.record.frames.size f s'.scopes) (hf : FineFrame given headers f) :
    Ready given headers around s' where
  valid := ho.scopes.valid h.valid
  frames k g hmem := by
    rw [ho.scopes.numbered h.valid htop.frame, List.mem_cons] at hmem
    rcases hmem with heq | hmem
    · cases heq
      exact hf
    · exact h.frames k g hmem
  owner := ho.owners ▸ h.owner

theorem Ready.into (h : Ready given headers around s) (owner : Header) :
    Ready given headers (some owner) (s.into (.of owner)) :=
  ⟨h.valid, h.frames, rfl⟩

end

/-- A local that a name stands for is in one of the open frames. -/
theorem exists_local {frames : List Frame} {name : String} {t : Ty}
    (h : Scope.findLocal? name frames = some t) : ∃ f ∈ frames, (name, t) ∈ f.locals := by
  induction frames with
  | nil => cases h
  | cons f fs ih =>
    rw [Scope.findLocal?] at h
    split at h
    · rename_i u hu
      cases h
      obtain ⟨l₁, l₂, heq, -⟩ := List.lookup_eq_some_iff.mp hu
      exact ⟨f, List.mem_cons_self, heq ▸ List.mem_append_right _ List.mem_cons_self⟩
    · split at h
      · cases h
      · obtain ⟨g, hg, hmem⟩ := ih h
        exact ⟨g, List.mem_cons_of_mem _ hg, hmem⟩

theorem Ready.local? {s : State} (h : Ready given headers around s) {name : String} {t : Ty}
    (hl : s.scopes.local? name = some t) : Fine given t := by
  rw [Scope.Stack.local?, Scope.Stack.frames_eq] at hl
  obtain ⟨f, hf, hmem⟩ := exists_local hl
  obtain ⟨⟨k, g⟩, hkg, rfl⟩ := List.mem_map.mp hf
  exact (h.frames k g hkg).locals name t hmem

theorem Ready.decl? {s : State} (h : Ready given headers around s) {name : String} {d : Decl}
    (hd : s.scopes.decl? name = some d) : ∃ h ∈ headers, d = h.decl := by
  rw [Scope.Stack.decl?, Scope.Stack.frames_eq, Scope.findDecl?] at hd
  obtain ⟨f, hf, hfind⟩ := List.exists_of_findSome?_eq_some hd
  obtain ⟨⟨k, g⟩, hkg, rfl⟩ := List.mem_map.mp hf
  exact (h.frames k g hkg).decls d (List.mem_of_find?_eq_some hfind)

theorem isUnsupported_signature {h : Header} (hs : h.Sound) :
    (∀ t ∈ h.signature.params, t.hasUnknown = false) ∧ h.signature.result.hasUnknown = false := by
  have hk := hs.known
  rw [Signature.type, Ty.hasUnknown, Bool.or_eq_false_iff, Ty.anyUnknown_eq_any, List.any_eq_false] at hk
  exact ⟨fun t ht => Bool.eq_false_iff.mpr (hk.1 t ht), hk.2⟩

/-- The functions of a program: their types are known and, under the condition, have a place. -/
structure FineHeaders (given : Prop) (headers : List Header) : Prop where
  sound : ∀ h ∈ headers, h.Sound
  supported : given → ∀ h ∈ headers, h.signature.Supported

namespace FineHeaders

variable {h : Header} (hf : FineHeaders given headers) (hh : h ∈ headers)
include hf hh

theorem result : Fine given h.signature.result where
  known := (isUnsupported_signature (hf.sound h hh)).2
  supported hg := (hf.supported hg h hh).result

theorem param {t : Ty} (ht : t ∈ h.signature.params) : Fine given t where
  known := (isUnsupported_signature (hf.sound h hh)).1 t ht
  supported hg := ((hf.supported hg h hh).params t ht).1

theorem frame : FineFrame given headers { boundary := true, locals := paramLocals h } where
  locals n t hmem := by
    rw [paramLocals, List.mem_reverse] at hmem
    obtain ⟨⟨p, u⟩, hin, heq⟩ := List.mem_map.mp hmem
    cases heq
    exact hf.param hh (List.of_mem_zip hin).2
  decls d hd := by cases hd

end FineHeaders

theorem fine_bool : Fine given .bool := ⟨rfl, fun _ => rfl⟩

theorem fine_unit : Fine given .unit := ⟨rfl, fun _ => rfl⟩

theorem fine_never : Fine given .never := ⟨rfl, fun _ => rfl⟩

theorem fine_joins {yesReturns noReturns : Bool} {yes no t : Ty}
    (h : Joins yesReturns yes noReturns no t) (hy : Fine given yes) (hn : Fine given no) :
    Fine given t := by
  rcases h with ⟨-, rfl⟩ | ⟨-, rfl⟩ | ⟨-, rfl⟩
  · exact hn
  · exact hy
  · exact hy

theorem fine_operates {op : BinaryOp} {l r t : Ty} (h : Operates op l r t) (hl : Fine given l)
    (hr : Fine given r) : Fine given t := by
  rw [h.type]
  split
  · exact fine_bool
  · unfold operandType
    split
    · exact hr
    · exact hl

theorem Settled.get? {s : State} (h : Settled types s) {id : NodeId}
    (hid : id ∈ s.types.entries.map Prod.fst) : s.types.get? id = types.get? id := by
  obtain ⟨⟨i, t⟩, hin, rfl⟩ := List.mem_map.mp hid
  have hsome : (s.types.get? i).isSome := List.lookup_isSome_iff.mpr ⟨_, hin, beq_self_eq_true i⟩
  obtain ⟨u, hu⟩ := Option.isSome_iff_exists.mp hsome
  obtain ⟨l₁, l₂, heq, -⟩ := List.lookup_eq_some_iff.mp hu
  rw [hu, h.types i u (heq ▸ List.mem_append_right _ List.mem_cons_self)]

theorem typed_recorded {id : NodeId} {act : Checker Ty} {s : State}
    (hs : Settled types (after (recorded id act) s)) (hf : Fine given (value act s)) :
    Typed given types id (value (recorded id act) s) :=
  ⟨hs.types id _ List.mem_cons_self, hf⟩

theorem settled_leave {s : State} {scopes : Scope.Stack} {owners : List Owner}
    (h : Settled types { s with scopes, owners }) : Settled types s :=
  ⟨h.problems, h.types⟩

theorem settled_recorded {id : NodeId} {act : Checker Ty} {s : State}
    (hs : Settled types (after (recorded id act) s)) : Settled types (after act s) :=
  ⟨hs.problems, fun i t hmem => hs.types i t (List.mem_cons_of_mem _ hmem)⟩

theorem fine_literal {l : Literal} (h : given → ∀ text, l ≠ .text text) : Fine given l.type := by
  cases l with
  | bool b => exact ⟨rfl, fun _ => rfl⟩
  | int t bits => exact ⟨rfl, fun _ => rfl⟩
  | float t bits => exact ⟨rfl, fun _ => rfl⟩
  | text text => exact ⟨rfl, fun hg => absurd rfl (h hg text)⟩

theorem forall₂_fine {es : List Expr} {ts : List Ty}
    (h : List.Forall₂ (fun e t => Typed given types e.id t) es ts) : ∀ t ∈ ts, Fine given t := by
  induction h with
  | nil => exact List.forall_mem_nil _
  | cons ht _ ih => exact List.forall_mem_cons.mpr ⟨ht.fine, ih⟩

/-- Arguments that suit the types of parameters. -/
theorem suiting_args {es : List Expr} {ts ps : List Ty}
    (h : List.Forall₂ (fun e t => Typed given types e.id t) es ts) (hs : List.Forall₂ Ty.Suits ts ps) :
    List.Forall₂ (fun e p => ∃ a, types.get? e.id = some a ∧ a.Suits p) es ps := by
  induction h generalizing ps with
  | nil =>
    cases hs
    exact .nil
  | cons ht _ ih =>
    cases hs with
    | cons hsuits hrest => exact .cons ⟨_, ht.noted, hsuits⟩ (ih hrest)

theorem value_blockType (b : Block) (tail : Option Ty) (s : State) :
    value (blockType b tail) s = match b.trailingReturn? with
      | some (some v) => (s.types.get? v.id).getD .unknown
      | some none => .unit
      | none => tail.getD .unit := by
  unfold blockType
  cases b.trailingReturn? with
  | none => rfl
  | some v => cases v <;> rfl

/-- What a block returns last is typed behind its statements. -/
theorem returned_typed {b : Block} {owner : Header} {target : Bool} {s : State}
    (hclean : ∀ v ∈ stmtVisits pass owner target b.stmts s, Clean types given headers v)
    (hs : Settled types (after (stmts b.stmts) s)) {v : Expr}
    (hv : b.trailingReturn? = some (some v)) :
    ∃ t, Typed given types v.id t ∧ (after (stmts b.stmts) s).types.get? v.id = some t := by
  have hnode := Block.returned_mem_nodes hv
  have hid := mem_ids hnode
  rw [← map_node_stmtVisits pass owner target b.stmts s] at hnode
  obtain ⟨visit, hvisit, hvnode⟩ := List.mem_map.mp hnode
  have hc := hclean visit hvisit
  rw [Clean, hvnode] at hc
  obtain ⟨-, -, -, t, ht, hfine, -⟩ := hc
  refine ⟨t, ⟨ht, hfine⟩, ?_⟩
  obtain ⟨new, hnew, hp⟩ := (stmts_grows b.stmts s).types
  have hkey : v.id ∈ (after (stmts b.stmts) s).types.entries.map Prod.fst := by
    rw [hnew, List.map_append]
    exact List.mem_append_left _ (hp.mem_iff.mpr hid)
  rw [hs.get? hkey, ht]

/-- The type of a block whose parts are typed. -/
theorem blockType_rule {b : Block} {tail : Option Ty} {s : State}
    (hreturned : ∀ v, b.trailingReturn? = some (some v) →
      ∃ t, Typed given types v.id t ∧ s.types.get? v.id = some t)
    (htail : Option.Rel (fun e t => Typed given types e.id t) b.tail tail) :
    Fine given (value (blockType b tail) s) ∧ BlockRule types b (value (blockType b tail) s) := by
  rw [value_blockType, BlockRule]
  rcases hreturn : b.trailingReturn? with _ | _ | v
  · generalize b.tail = last at htail
    cases htail with
    | none => exact ⟨fine_unit, rfl⟩
    | some h => exact ⟨h.fine, h.noted⟩
  · exact ⟨fine_unit, rfl⟩
  · obtain ⟨t, ht, hget⟩ := hreturned v hreturn
    dsimp only
    rw [hget]
    exact ⟨ht.fine, ht.noted⟩

/-- The frame of a block whose functions are among those of the program. -/
theorem fineFrame_atBlock {is : List Item} (h : ∀ i ∈ is, ∀ d ∈ i.headers, d ∈ headers) :
    FineFrame given headers
      { boundary := false, decls := ((is.flatMap Item.headers).map Header.decl).reverse } where
  locals n t hmem := by cases hmem
  decls d hd := by
    rw [List.mem_reverse] at hd
    obtain ⟨f, hf, rfl⟩ := List.mem_map.mp hd
    obtain ⟨i, hi, hf⟩ := List.mem_flatMap.mp hf
    exact ⟨f, h i hi f hf, rfl⟩

theorem Ready.block {s : State} (hr : Ready given headers around s) {target : Bool} {is : List Item}
    (hall : ∀ v ∈ itemVisits pass target is (atBlock is s), Allowed given headers v)
    (hs : Settled types (atBlock is s)) : Ready given headers around (atBlock is s) := by
  refine hr.inside (opens_atBlock is s) (top_atBlock hs.problems) (fineFrame_atBlock ?_)
  intro i hi
  have hnode := item_mem_nodes hi
  rw [← map_node_itemVisits pass target is (atBlock is s)] at hnode
  obtain ⟨v, hv, hvi⟩ := List.mem_map.mp hnode
  exact (hall v hv).headers i hvi

/-- A `let` statement leaves its frame fine. -/
theorem Ready.binding {s : State} (hr : Ready given headers around s) {id : NodeId} {name : Ident}
    {declared : Option Ty} {init : Expr} {t : Ty}
    (hs : Settled types (after (binding id name declared init t) s)) (ht : Fine given t)
    (hd : ∀ u, declared = some u → Fine given u) :
    Ready given headers around (after (binding id name declared init t) s) ∧
      s.scopes.localHere? name.text = none ∧ Typed given types id (declared.getD t) ∧
      ∀ u, declared = some u → t.Suits u := by
  have hbound : Fine given (declared.getD t) := by
    cases declared with
    | none => exact ht
    | some u => exact hd u rfl
  obtain ⟨hfits, hafter⟩ := silent_binding hs.problems
  have hsuits : ∀ u, declared = some u → t.Suits u := fun u hu =>
    Ty.suits_of_fits (hfits u hu) ht.known (hd u hu).known
  have hgrows := grows_binding id name declared init t s
  rw [hafter] at hs hgrows ⊢
  have hfree : (!(s.scopes.insertLocal name.text (declared.getD t)).1) = false :=
    silent_reportIf hs.problems
  rw [Bool.not_eq_false', Scope.Stack.insertLocal, Bool.and_eq_true, Bool.not_eq_true',
    Option.isNone_iff_eq_none] at hfree
  obtain ⟨k, f, htop⟩ := hr.valid.top hfree.1
  have htop' := (silent_bindName hs.problems (htop : Top k f (after (record id _) s).scopes)).2
  obtain ⟨rest, hold, hnew⟩ := hgrows.scopes.numbered_top hr.valid htop htop'
  refine ⟨⟨hgrows.scopes.valid hr.valid, ?_, hgrows.owners ▸ hr.owner⟩, hfree.2, ?_, hsuits⟩
  · intro i g hmem
    rw [hnew, List.mem_cons] at hmem
    rcases hmem with heq | hmem
    · cases heq
      have hframe := hr.frames k f (hold ▸ List.mem_cons_self)
      refine ⟨?_, hframe.decls⟩
      intro n u hu
      rcases List.mem_cons.mp hu with heq | hu
      · cases heq
        exact hbound
      · exact hframe.locals n u hu
    · exact hr.frames i g (hold ▸ List.mem_cons_of_mem _ hmem)
  · refine ⟨?_, hbound⟩
    have hbind := grows_bind name (declared.getD t) (.repeatedLocal name.text)
      (after (record id (declared.getD t)) s)
    exact (hs.before hbind).types id _ List.mem_cons_self

/-- What is assigned to is a local, and its type is that of the local. -/
theorem value_place : ∀ (e : Expr) (name : Ident) (s : State), e.place? = some name →
    ∀ t, s.scopes.local? name.text = some t → value (expr e) s = t
  | .path _ _ name, _, s, rfl, t, ht => by
    rw [expr]
    have hpath : value (path name) s = t := by
      unfold path
      simp [ht]
    exact hpath
  | .grouped _ _ inner, name, s, h, t, ht => by
    rw [expr]
    exact value_place inner name s h t ht

/-- An expression whose type goes with those of its parts. -/
theorem clean_recorded {owner : Header} (hh : owner ∈ headers) {target : Bool} {e : Expr}
    {act : Checker Ty} {s : State} (hs : Settled types (after (recorded e.id act) s))
    (hf : Fine given (value act s)) (hrule : ExprRule types headers owner s.scopes e (value act s)) :
    Clean types given headers ⟨.expr e, some owner, target, s⟩ ∧
      Typed given types e.id (value (recorded e.id act) s) := by
  have htyped := typed_recorded hs hf
  exact ⟨⟨owner, hh, rfl, _, htyped.noted, htyped.fine, hrule⟩, htyped⟩

/-- A name whose use is allowed stands for a local or for a function of the program. -/
theorem fine_path (hf : FineHeaders given headers) {owner : Option Header} {target : Bool} {id : NodeId}
    {span : Span} {name : Ident} {s : State} (hr : Ready given headers around s)
    (hall : Allowed given headers ⟨.expr (.path id span name), owner, target, s⟩)
    (hrule : s.scopes.local? name.text = some (value (path name) s) ∨
      s.scopes.local? name.text = none ∧
        ∃ d, s.scopes.decl? name.text = some d ∧ value (path name) s = d.signature.type) :
    Fine given (value (path name) s) := by
  rcases hrule with hl | ⟨hnone, d, hd, ht⟩
  · exact hr.local? hl
  · obtain ⟨h, hmem, rfl⟩ := hr.decl? hd
    refine ⟨ht ▸ (hf.sound h hmem).known, fun hg => ?_⟩
    exact absurd ⟨hnone, Option.isSome_iff_exists.mpr ⟨_, hd⟩⟩ (hall.supported hg)

/-- Two operands whose types go with their operator. What is assigned to is a local, and has its type
where the assignment begins. -/
theorem binary_rule {owner : Header} (id : NodeId) {span : Span} {op : BinaryOp} {lhs rhs : Expr}
    {s : State} (hr : Ready given headers around s)
    (hs : Settled types (after
      (if op = .assign then
        assignment lhs rhs (value (expr lhs) s) (value (expr rhs) (after (expr lhs) s))
      else binary op span (value (expr lhs) s) (value (expr rhs) (after (expr lhs) s)))
      (after (expr rhs) (after (expr lhs) s))))
    (hl : Typed given types lhs.id (value (expr lhs) s))
    (hr' : Typed given types rhs.id (value (expr rhs) (after (expr lhs) s))) :
    let t := value
      (if op = .assign then
        assignment lhs rhs (value (expr lhs) s) (value (expr rhs) (after (expr lhs) s))
      else binary op span (value (expr lhs) s) (value (expr rhs) (after (expr lhs) s)))
      (after (expr rhs) (after (expr lhs) s))
    Fine given t ∧ ExprRule types headers owner s.scopes (.binary id span op lhs rhs) t := by
  have hgl := expr_grows lhs s
  have hgr := expr_grows rhs (after (expr lhs) s)
  by_cases ho : op = .assign
  · subst ho
    rw [if_pos rfl] at hs ⊢
    obtain ⟨⟨name, t, hplace, hlocal⟩, hsuits⟩ :=
      silent_assignment hs.problems hl.fine.known hr'.fine.known
    rw [hgr.scopes.local? (hgl.scopes.valid hr.valid), hgl.scopes.local? hr.valid] at hlocal
    have hplaced := value_place lhs name s hplace t hlocal
    rw [hplaced] at hl hsuits
    rw [value_assignment]
    refine ⟨fine_unit, _, _, hl.noted, hr'.noted, ?_⟩
    rw [if_pos rfl]
    exact ⟨⟨name, hplace, hlocal⟩, hsuits, rfl⟩
  · rw [if_neg ho] at hs ⊢
    have hop := silent_binary hs.problems hl.fine.known hr'.fine.known
    refine ⟨fine_operates hop hl.fine hr'.fine, _, _, hl.noted, hr'.noted, ?_⟩
    rw [if_neg ho]
    exact hop

/-- A call of a function of the program, whose arguments suit its parameters. -/
theorem call_rule (hf : FineHeaders given headers) (owner : Header) (id : NodeId) {span : Span}
    {callee : Ident} {args : List Expr} {ts : List Ty} {s : State} {nodes : List NodeId}
    {passed : List Scope.Event} (hr : Ready given headers around s) {s' : State}
    (hg : Grows false nodes passed s s') (hs : Settled types (after (call callee span args ts) s'))
    (hargs : List.Forall₂ (fun e t => Typed given types e.id t) args ts) :
    Fine given (value (call callee span args ts) s') ∧
      ExprRule types headers owner s.scopes (.call id span callee args)
        (value (call callee span args ts) s') := by
  have hr' := hr.past hg
  have hparams : ∀ d, s'.scopes.decl? callee.text = some d →
      ∀ t ∈ d.signature.params, t.hasUnknown = false := by
    intro d hd t ht
    obtain ⟨h, hmem, rfl⟩ := hr'.decl? hd
    exact (hf.param hmem ht).known
  obtain ⟨hnone, d, hd, hsuits, hvalue⟩ := silent_call hs.problems hargs.length_eq
    (fun t ht => (forall₂_fine hargs t ht).known) hparams
  obtain ⟨h, hmem, rfl⟩ := hr'.decl? hd
  rw [hg.scopes.local? hr.valid] at hnone
  rw [hg.scopes.decl? hr.valid] at hd
  exact ⟨hvalue ▸ hf.result hmem, hnone, h, hmem, hd, hvalue, suiting_args hargs hsuits⟩

/-- A condition whose expression is clean. -/
theorem test_clean {owner : Header} {target : Bool} {c : Expr} {s : State}
    (hr : Ready given headers around s) (hs : Settled types (pass.test owner c s))
    (hc : Settled types (after (expr c) s) →
      (∀ v ∈ c.visits pass owner target s, Clean types given headers v) ∧
        Typed given types c.id (value (expr c) s)) :
    (∀ v ∈ c.visits pass owner target s, Clean types given headers v) ∧
      (∃ u, types.get? c.id = some u ∧ IsTest u) ∧ Ready given headers around (pass.test owner c s) := by
  have htruth : Settled types (after (truth c.span (value (expr c) s)) (after (expr c) s)) := hs
  obtain ⟨hclean, htyped⟩ := hc ((Reports.reportIf _ _ _).settled htruth)
  refine ⟨hclean, ⟨_, htyped.noted, silent_truth htruth.problems htyped.fine.known⟩, ?_⟩
  exact (hr.past (expr_grows c s)).report (Reports.reportIf _ _ _)

mutual
theorem expr_clean (hf : FineHeaders given headers) {owner : Header} (hh : owner ∈ headers)
    (target : Bool) : ∀ (e : Expr) (s : State), Ready given headers (some owner) s →
    (∀ v ∈ e.visits pass owner target s, Allowed given headers v) →
    Settled types (after (expr e) s) →
    (∀ v ∈ e.visits pass owner target s, Clean types given headers v) ∧
      Typed given types e.id (value (expr e) s)
  | .literal id span l, s, hr, hall, hs => by
    rw [expr] at hs ⊢
    rw [Expr.visits, List.forall_mem_singleton] at hall ⊢
    refine clean_recorded hh hs (fine_literal fun hg text hl => ?_) rfl
    have hsupported := hall.supported hg
    rw [hl] at hsupported
    exact hsupported
  | .path id span name, s, hr, hall, hs => by
    rw [expr] at hs ⊢
    rw [Expr.visits, List.forall_mem_singleton] at hall ⊢
    have hrule := silent_path (settled_recorded hs).problems
    exact clean_recorded hh hs (fine_path hf hr hall hrule) hrule
  | .grouped id span inner, s, hr, hall, hs => by
    rw [expr] at hs ⊢
    rw [Expr.visits, List.forall_mem_cons] at hall ⊢
    obtain ⟨hclean, hinner⟩ := expr_clean hf hh target inner s hr hall.2 (settled_recorded hs)
    obtain ⟨hroot, htyped⟩ := clean_recorded (e := .grouped id span inner) hh hs hinner.fine hinner.noted
    exact ⟨⟨hroot, hclean⟩, htyped⟩
  | .unary id span op operand, s, hr, hall, hs => by
    rw [expr] at hs ⊢
    rw [Expr.visits, List.forall_mem_cons] at hall ⊢
    have hrule : Settled types (after (unary op span (value (expr operand) s))
      (after (expr operand) s)) := settled_recorded hs
    obtain ⟨hclean, hoperand⟩ :=
      expr_clean hf hh target operand s hr hall.2 ((reports_unary _ _ _).settled hrule)
    have haccepts := silent_unary hrule.problems hoperand.fine.known
    obtain ⟨hroot, htyped⟩ := clean_recorded (e := .unary id span op operand) hh hs hoperand.fine
      ⟨hoperand.noted, haccepts⟩
    exact ⟨⟨hroot, hclean⟩, htyped⟩
  | .binary id span op lhs rhs, s, hr, hall, hs => by
    rw [expr] at hs ⊢
    rw [Expr.visits, List.forall_mem_cons, List.forall_mem_append, pass_left] at hall ⊢
    have hrule : Settled types (after
      (if op = .assign then
        assignment lhs rhs (value (expr lhs) s) (value (expr rhs) (after (expr lhs) s))
      else binary op span (value (expr lhs) s) (value (expr rhs) (after (expr lhs) s)))
      (after (expr rhs) (after (expr lhs) s))) := settled_recorded hs
    have hright : Settled types (after (expr rhs) (after (expr lhs) s)) := by
      split at hrule
      · exact (reports_assignment _ _ _ _).settled hrule
      · exact (reports_binary _ _ _ _).settled hrule
    obtain ⟨hcl, hl⟩ := expr_clean hf hh _ lhs s hr hall.2.1 (hright.before (expr_grows rhs _))
    obtain ⟨hcr, hr'⟩ := expr_clean hf hh target rhs _ (hr.past (expr_grows lhs s)) hall.2.2 hright
    obtain ⟨hfine, hexpr⟩ := binary_rule id hr hrule hl hr'
    obtain ⟨hroot, htyped⟩ := clean_recorded (e := .binary id span op lhs rhs) hh hs hfine hexpr
    exact ⟨⟨hroot, hcl, hcr⟩, htyped⟩
  | .call id span callee args, s, hr, hall, hs => by
    rw [expr] at hs ⊢
    rw [Expr.visits, List.forall_mem_cons] at hall ⊢
    have hrule : Settled types (after (call callee span args (value (exprs args) s))
      (after (exprs args) s)) := settled_recorded hs
    obtain ⟨hclean, hargs⟩ :=
      exprs_clean hf hh target args s hr hall.2 ((reports_call _ _ _ _).settled hrule)
    obtain ⟨hfine, hexpr⟩ := call_rule hf owner id hr (exprs_grows args s) hrule hargs
    obtain ⟨hroot, htyped⟩ := clean_recorded (e := .call id span callee args) hh hs hfine hexpr
    exact ⟨⟨hroot, hclean⟩, htyped⟩
  | .ret id span none, s, hr, hall, hs => by
    rw [expr] at hs ⊢
    rw [Expr.visits, List.forall_mem_singleton] at hall ⊢
    have hsuits := silent_returned (settled_recorded hs).problems hr.owner rfl (hf.result hh).known
    have hnever := value_returned span .unit s
    exact clean_recorded hh hs (hnever ▸ fine_never) ⟨hsuits, hnever⟩
  | .ret id span (some e), s, hr, hall, hs => by
    rw [expr] at hs ⊢
    rw [Expr.visits, List.forall_mem_cons] at hall ⊢
    have hrule : Settled types (after (returned e.span (value (expr e) s))
      (after (expr e) s)) := settled_recorded hs
    obtain ⟨hclean, he⟩ := expr_clean hf hh target e s hr hall.2 ((reports_returned _ _).settled hrule)
    have hinner := (hr.past (expr_grows e s)).owner
    have hsuits := silent_returned hrule.problems hinner he.fine.known (hf.result hh).known
    have hnever := value_returned e.span (value (expr e) s) (after (expr e) s)
    obtain ⟨hroot, htyped⟩ := clean_recorded (e := .ret id span (some e)) hh hs (hnever ▸ fine_never)
      ⟨_, he.noted, hsuits, hnever⟩
    exact ⟨⟨hroot, hclean⟩, htyped⟩
  | .block id span body, s, hr, hall, hs => by
    rw [expr] at hs ⊢
    rw [Expr.visits, List.forall_mem_cons] at hall ⊢
    obtain ⟨hclean, hbody⟩ := block_clean hf hh target body s hr hall.2 (settled_recorded hs)
    obtain ⟨hroot, htyped⟩ := clean_recorded (e := .block id span body) hh hs hbody.fine hbody.noted
    exact ⟨⟨hroot, hclean⟩, htyped⟩
  | .loop id span body, s, hr, hall, hs => by
    rw [expr] at hs ⊢
    rw [Expr.visits, List.forall_mem_cons] at hall ⊢
    have hact := settled_recorded hs
    obtain ⟨hclean, -⟩ := block_clean hf hh target body s hr hall.2 hact
    obtain ⟨hroot, htyped⟩ := clean_recorded (e := .loop id span body) hh hs fine_unit rfl
    exact ⟨⟨hroot, hclean⟩, htyped⟩
  | .while id span c body, s, hr, hall, hs => by
    rw [expr] at hs ⊢
    rw [Expr.visits, List.forall_mem_cons, List.forall_mem_append] at hall ⊢
    have hact := settled_recorded hs
    have hbody : Settled types (after (block body) (pass.test owner c s)) := hact
    obtain ⟨hct, htest, hrt⟩ := test_clean hr (hbody.before (block_grows body _))
      (expr_clean hf hh target c s hr hall.2.1)
    obtain ⟨hclean, -⟩ := block_clean hf hh target body _ hrt hall.2.2 hbody
    obtain ⟨hroot, htyped⟩ := clean_recorded (e := .while id span c body) hh hs fine_unit ⟨htest, rfl⟩
    exact ⟨⟨hroot, hct, hclean⟩, htyped⟩
  | .cond id span links, s, hr, hall, hs => by
    rw [expr] at hs ⊢
    rw [Expr.visits, List.forall_mem_cons] at hall ⊢
    obtain ⟨hclean, hfine, hrule⟩ := cond_clean hf hh target links s hr hall.2 (settled_recorded hs)
    obtain ⟨hroot, htyped⟩ := clean_recorded (e := .cond id span links) hh hs hfine hrule
    exact ⟨⟨hroot, hclean⟩, htyped⟩

theorem exprs_clean (hf : FineHeaders given headers) {owner : Header} (hh : owner ∈ headers) (target : Bool) :
    ∀ (es : List Expr) (s : State), Ready given headers (some owner) s →
    (∀ v ∈ exprVisits pass owner target es s, Allowed given headers v) →
    Settled types (after (exprs es) s) →
    (∀ v ∈ exprVisits pass owner target es s, Clean types given headers v) ∧
      List.Forall₂ (fun e t => Typed given types e.id t) es (value (exprs es) s)
  | [], s, hr, hall, hs => by
    rw [exprs]
    exact ⟨List.forall_mem_nil _, .nil⟩
  | e :: es, s, hr, hall, hs => by
    rw [exprs] at hs ⊢
    rw [exprVisits, List.forall_mem_append] at hall ⊢
    have hge := expr_grows e s
    have hrest : Settled types (after (exprs es) (after (expr e) s)) := hs
    obtain ⟨hce, he⟩ := expr_clean hf hh target e s hr hall.1 (hrest.before (exprs_grows es _))
    obtain ⟨hces, hes⟩ := exprs_clean hf hh target es _ (hr.past hge) hall.2 hrest
    exact ⟨⟨hce, hces⟩, .cons he hes⟩

theorem cond_clean (hf : FineHeaders given headers) {owner : Header} (hh : owner ∈ headers) (target : Bool) :
    ∀ (c : Cond) (s : State), Ready given headers (some owner) s →
    (∀ v ∈ c.visits pass owner target s, Allowed given headers v) →
    Settled types (after (cond c) s) →
    (∀ v ∈ c.visits pass owner target s, Clean types given headers v) ∧
      Fine given (value (cond c) s) ∧ CondRule types c (value (cond c) s)
  | .only c yes, s, hr, hall, hs => by
    rw [cond] at hs ⊢
    rw [Cond.visits, List.forall_mem_append] at hall ⊢
    have hrule : Settled types (after (withoutElse yes (value (block yes) (pass.test owner c s)))
      (after (block yes) (pass.test owner c s))) := hs
    have hyes := (reports_withoutElse _ _).settled hrule
    obtain ⟨hct, htest, hrt⟩ := test_clean hr (hyes.before (block_grows yes _))
      (expr_clean hf hh target c s hr hall.1)
    obtain ⟨hcy, hy⟩ := block_clean hf hh target yes _ hrt hall.2 hyes
    exact ⟨⟨hct, hcy⟩, fine_unit, htest, _, hy.noted, silent_withoutElse hrule.problems hy.fine.known, rfl⟩
  | .orElse c yes no, s, hr, hall, hs => by
    rw [cond] at hs ⊢
    rw [Cond.visits, List.forall_mem_append, List.forall_mem_append] at hall ⊢
    have hrule : Settled types (after (branches yes.endsInReturn
        (value (block yes) (pass.test owner c s)) no.endsInReturn no.span
        (value (block no) (after (block yes) (pass.test owner c s))))
      (after (block no) (after (block yes) (pass.test owner c s)))) := hs
    have hno := (reports_branches _ _ _ _ _).settled hrule
    have hgy := block_grows yes (pass.test owner c s)
    have hyes := hno.before (block_grows no _)
    obtain ⟨hct, htest, hrt⟩ := test_clean hr (hyes.before hgy)
      (expr_clean hf hh target c s hr hall.1.1)
    obtain ⟨hcy, hy⟩ := block_clean hf hh target yes _ hrt hall.1.2 hyes
    obtain ⟨hcn, hn⟩ := block_clean hf hh target no _ (hrt.past hgy) hall.2 hno
    have hjoins := silent_branches hrule.problems hy.fine.known hn.fine.known
    exact ⟨⟨⟨hct, hcy⟩, hcn⟩, fine_joins hjoins hy.fine hn.fine, htest, _, _, hy.noted, hn.noted, hjoins⟩
  | .orIf c yes no, s, hr, hall, hs => by
    rw [cond] at hs ⊢
    rw [Cond.visits, List.forall_mem_append, List.forall_mem_append] at hall ⊢
    have hrule : Settled types (after (branches yes.endsInReturn
        (value (block yes) (pass.test owner c s)) false (no.cond.span.join no.yes.span)
        (value (cond no) (after (block yes) (pass.test owner c s))))
      (after (cond no) (after (block yes) (pass.test owner c s)))) := hs
    have hno := (reports_branches _ _ _ _ _).settled hrule
    have hgy := block_grows yes (pass.test owner c s)
    have hyes := hno.before (cond_grows no _)
    obtain ⟨hct, htest, hrt⟩ := test_clean hr (hyes.before hgy)
      (expr_clean hf hh target c s hr hall.1.1)
    obtain ⟨hcy, hy⟩ := block_clean hf hh target yes _ hrt hall.1.2 hyes
    obtain ⟨hcn, hfn, hn⟩ := cond_clean hf hh target no _ (hrt.past hgy) hall.2 hno
    have hjoins := silent_branches hrule.problems hy.fine.known hfn.known
    exact ⟨⟨⟨hct, hcy⟩, hcn⟩, fine_joins hjoins hy.fine hfn, htest, _, _, hy.noted, hn, hjoins⟩

theorem block_clean (hf : FineHeaders given headers) {owner : Header} (hh : owner ∈ headers) (target : Bool) :
    ∀ (b : Block) (s : State), Ready given headers (some owner) s →
    (∀ v ∈ b.visits pass owner target s, Allowed given headers v) →
    Settled types (after (block b) s) →
    (∀ v ∈ b.visits pass owner target s, Clean types given headers v) ∧
      Typed given types b.id (value (block b) s)
  | .mk id span is ss none, s, hr, hall, hs => by
    rw [block] at hs ⊢
    rw [Block.visits, List.forall_mem_cons, List.forall_mem_append, pass_items] at hall ⊢
    have hact := settled_recorded hs
    have hrule : Settled types (after (blockType (.mk id span is ss none) none)
      (after (stmts ss) (after (items is) (atBlock is s)))) := settled_leave hact
    have hend := (reports_blockType _ _).settled hrule
    have hstmts := hend.before (stmts_grows ss _)
    have hgi := items_grows is (atBlock is s)
    have hrb := hr.block hall.2.1 (hstmts.before hgi)
    have hci := items_clean hf target is _ hrb hall.2.1 hstmts
    obtain ⟨hcs, -⟩ := stmts_clean hf hh target ss _ (hrb.past hgi) hall.2.2 hend
    obtain ⟨hfine, hblock⟩ := blockType_rule (b := .mk id span is ss none)
      (fun v hv => returned_typed hcs hend hv) .none
    have htyped := typed_recorded hs hfine
    exact ⟨⟨⟨_, htyped.noted, htyped.fine, hblock⟩, hci, hcs⟩, htyped⟩
  | .mk id span is ss (some e), s, hr, hall, hs => by
    rw [block] at hs ⊢
    rw [Block.visits, List.forall_mem_cons, List.forall_mem_append, List.forall_mem_append, pass_items,
      pass_stmts] at hall ⊢
    have hact := settled_recorded hs
    have hrule : Settled types (after (blockType (.mk id span is ss (some e))
        (some (value (expr e) (after (stmts ss) (after (items is) (atBlock is s))))))
      (after (expr e) (after (stmts ss) (after (items is) (atBlock is s))))) :=
      settled_leave hact
    have hend := (reports_blockType _ _).settled hrule
    have htail := hend.before (expr_grows e _)
    have hstmts := htail.before (stmts_grows ss _)
    have hgi := items_grows is (atBlock is s)
    have hrb := hr.block hall.2.1.1 (hstmts.before hgi)
    have hci := items_clean hf target is _ hrb hall.2.1.1 hstmts
    obtain ⟨hcs, hrs⟩ := stmts_clean hf hh target ss _ (hrb.past hgi) hall.2.1.2 htail
    obtain ⟨hce, he⟩ := expr_clean hf hh target e _ hrs hall.2.2 hend
    obtain ⟨hfine, hblock⟩ := blockType_rule (b := .mk id span is ss (some e))
      (fun v hv => (by cases hv)) (.some he)
    have htyped := typed_recorded hs hfine
    exact ⟨⟨⟨_, htyped.noted, htyped.fine, hblock⟩, ⟨hci, hcs⟩, hce⟩, htyped⟩

theorem stmts_clean (hf : FineHeaders given headers) {owner : Header} (hh : owner ∈ headers) (target : Bool) :
    ∀ (ss : List Stmt) (s : State), Ready given headers (some owner) s →
    (∀ v ∈ stmtVisits pass owner target ss s, Allowed given headers v) →
    Settled types (after (stmts ss) s) →
    (∀ v ∈ stmtVisits pass owner target ss s, Clean types given headers v) ∧
      Ready given headers (some owner) (after (stmts ss) s)
  | [], s, hr, hall, hs => by
    rw [stmts]
    exact ⟨List.forall_mem_nil _, hr⟩
  | stmt :: ss, s, hr, hall, hs => by
    rw [stmts] at hs ⊢
    rw [stmtVisits, List.forall_mem_append] at hall ⊢
    have hrest : Settled types (after (stmts ss) (after (Check.stmt stmt) s)) := hs
    obtain ⟨hc, hr'⟩ := stmt_clean hf hh target stmt s hr hall.1 (hrest.before (stmts_grows ss _))
    obtain ⟨hcs, hrs⟩ := stmts_clean hf hh target ss _ hr' hall.2 hrest
    exact ⟨⟨hc, hcs⟩, hrs⟩

theorem stmt_clean (hf : FineHeaders given headers) {owner : Header} (hh : owner ∈ headers) (target : Bool) :
    ∀ (stmt : Stmt) (s : State), Ready given headers (some owner) s →
    (∀ v ∈ stmt.visits pass owner target s, Allowed given headers v) →
    Settled types (after (Check.stmt stmt) s) →
    (∀ v ∈ stmt.visits pass owner target s, Clean types given headers v) ∧
      Ready given headers (some owner) (after (Check.stmt stmt) s)
  | .bind id span name declared init, s, hr, hall, hs => by
    rw [Check.stmt] at hs ⊢
    rw [Stmt.visits, List.forall_mem_cons] at hall ⊢
    have hbind : Settled types (after (binding id name declared init (value (expr init) s))
      (after (expr init) s)) := hs
    obtain ⟨hc, hi⟩ := expr_clean hf hh target init s hr hall.2
      (hbind.before (grows_binding id name declared init _ _))
    have hdeclared : ∀ u, declared = some u → Fine given u := by
      rintro u rfl
      exact ⟨hall.1.sound u rfl, hall.1.supported⟩
    obtain ⟨hr', hfree, htyped, hsuits⟩ :=
      (hr.past (expr_grows init s)).binding hbind hi.fine hdeclared
    refine ⟨⟨⟨owner, hh, rfl, _, htyped.noted, htyped.fine, ⟨_, hi.noted, ?_⟩, rfl, hfree⟩, hc⟩, hr'⟩
    cases declared with
    | none => rfl
    | some u => exact ⟨hsuits u rfl, rfl⟩
  | .expr span e semi, s, hr, hall, hs => by
    rw [Check.stmt] at hs ⊢
    rw [Stmt.visits, List.forall_mem_cons] at hall ⊢
    obtain ⟨hc, -⟩ := expr_clean hf hh target e s hr hall.2 hs
    exact ⟨⟨trivial, hc⟩, hr.past (expr_grows e s)⟩

theorem items_clean (hf : FineHeaders given headers) {outer : Option Header} (target : Bool) :
    ∀ (is : List Item) (s : State), Ready given headers outer s →
    (∀ v ∈ itemVisits pass target is s, Allowed given headers v) → Settled types (after (items is) s) →
    ∀ v ∈ itemVisits pass target is s, Clean types given headers v
  | [], s, hr, hall, hs => List.forall_mem_nil _
  | i :: is, s, hr, hall, hs => by
    rw [items] at hs
    rw [itemVisits, List.forall_mem_append] at hall ⊢
    have hrest : Settled types (after (items is) (after (item i) s)) := hs
    exact ⟨item_clean hf target i s hr hall.1 (hrest.before (items_grows is _)),
      items_clean hf target is _ (hr.past (item_grows i s)) hall.2 hrest⟩

theorem item_clean (hf : FineHeaders given headers) {outer : Option Header} (target : Bool) :
    ∀ (i : Item) (s : State), Ready given headers outer s →
    (∀ v ∈ i.visits pass target s, Allowed given headers v) → Settled types (after (item i) s) →
    ∀ v ∈ i.visits pass target s, Clean types given headers v
  | .function h body, s, hr, hall, hs => by
    rw [item] at hs
    rw [Item.visits, List.forall_mem_cons] at hall ⊢
    have hmem : h ∈ headers := hall.1.headers _ rfl h List.mem_cons_self
    have hrule : Settled types (after (functionBody h body (value (block body) (atFunction h s)))
      (after (block body) (atFunction h s))) := settled_leave hs
    have hbody := (reports_functionBody _ _ _).settled hrule
    have hstart := hbody.before (block_grows body _)
    obtain ⟨htop, hnodup⟩ := top_atFunction hstart.problems
    have hr' := (hr.into h).inside (opens_atFunction h s) htop (hf.frame hmem)
    obtain ⟨hc, hb⟩ := block_clean hf hmem target body _ hr' hall.2 hbody
    have hsuits := silent_functionBody hrule.problems hb.fine.known (hf.result hmem).known
    exact ⟨⟨hmem, hnodup, _, hb.noted, hsuits⟩, hc⟩
  | .foreign span abi functions, s, hr, hall, hs => by
    rw [Item.visits, List.forall_mem_singleton]
    trivial
end

end Ferrite.Check
