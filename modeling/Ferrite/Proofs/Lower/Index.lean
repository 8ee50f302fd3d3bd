import Ferrite.Lexer.Stream
import Ferrite.Proofs.Lower.Accepted
import Ferrite.Proofs.Tree.Parts
import Ferrite.Proofs.Tree.Targets

/-!
The functions of a program and the places they have in its module. Those of other modules come
first, and each list is in the order in which the nodes of the program stand.
-/

namespace Ferrite
open Lower

/-- The states in which lowering along a record comes to the nodes of the program, beside those of
checking it. -/
def Program.loweringVisits (p : Program) (checked : Check.Checked) : List JointVisit :=
  p.visits (joint (Lower.env p checked.types))
    (Check.start p, after (replayed Scope.Replay.enter) (Lower.start checked))

/-- The functions of a program fill the places of its module. -/
structure FunctionSpace (p : Program) (checked : Check.Checked) (m : Wasm.Module) : Prop where
  /-- The functions are those that stand anywhere in the program, -/
  everywhere : ∀ h, h ∈ Lower.headers p ↔ ∃ i, p.Holds (.item i) ∧ h ∈ i.headers
  /-- each of them once, -/
  once : ((Lower.headers p).map Header.id).Nodup
  /-- in the order of the items that declare them, first those of other modules. -/
  order : ∃ nodes, Node.Preorder (p.items.map Node.item) nodes ∧ Lower.headers p =
    ((nodes.filterMap Node.item?).flatMap foreignOf).map Foreign.header ++
      (nodes.filterMap Node.item?).filterMap definedOf
  /-- The index of a function is its place among them. -/
  index : ∀ h ∈ Lower.headers p, ∀ i,
    (Lower.env p checked.types).functions.idxOf? h.id = some i ↔ (Lower.headers p)[i]? = some h
  types : List.Forall₂ (fun h t =>
    List.Forall₂ (fun u v => valType u = .ok (some v)) h.signature.params t.params ∧
      ∃ r, valType h.signature.result = .ok r ∧ t.results = r.toList) (Lower.headers p) m.types
  /-- The function at an index has the type at that index. -/
  places : m.imports.map Wasm.Import.type ++ m.functions = List.range (Lower.headers p).length
  imports : List.Forall₂ (fun f i => i.module = f.abi ∧ i.name = f.header.name.text)
    (foreigns p) m.imports
  /-- Each function of the program was given one body, -/
  filled : ∃ bs, bodies p checked = .ok bs ∧
    (bs.map Prod.fst).Perm ((definitions p).map Header.id)
  /-- which is the code of its own body, made where lowering comes to the function. -/
  codes : List.Forall₂ (fun h c => ∃ body owner σ τ is τ',
    ⟨.item (.function h body), owner, false, (σ, τ)⟩ ∈ p.loweringVisits checked ∧
      Lower.block (Lower.env p checked.types) body (τ.atFunction h) = .ok is τ' ∧
      c = ⟨τ'.locals.types, is⟩) (definitions p) m.codes
  /-- The functions at the top of the program are exported. -/
  exports : List.Forall₂ (fun h e => e.name = h.name.text ∧ (Lower.headers p)[e.function]? = some h)
    (p.items.filterMap definedOf) m.exports
  exportNames : (Check.run p).2 = [] → (m.exports.map Wasm.Export.name).Nodup

/-! ## Places -/

theorem filter_mem_of_sublist {α β : Type} [DecidableEq β] {f : α → β} {xs ys : List α}
    (h : xs.Sublist ys) (hn : (ys.map f).Nodup) : ys.filter (fun y => f y ∈ xs.map f) = xs := by
  induction h with
  | slnil => rfl
  | @cons xs ys a h ih =>
    rw [List.map_cons, List.nodup_cons] at hn
    have hout : f a ∉ xs.map f := fun hmem => hn.1 ((h.map f).subset hmem)
    rw [List.filter_cons_of_neg (by simpa using hout), ih hn.2]
  | @cons_cons xs ys a h ih =>
    rw [List.map_cons, List.nodup_cons] at hn
    rw [List.filter_cons_of_pos (by simp)]
    refine congrArg (a :: ·) (.trans (List.filter_congr ?_) (ih hn.2))
    intro y hy
    have hne : f y ≠ f a := fun heq => hn.1 (heq ▸ List.mem_map_of_mem hy)
    simp [hne]

theorem idxOf?_iff {α β : Type} [DecidableEq β] {f : α → β} {xs : List α} (hn : (xs.map f).Nodup)
    {x : α} (hx : x ∈ xs) (i : Nat) : (xs.map f).idxOf? (f x) = some i ↔ xs[i]? = some x := by
  rw [List.idxOf?_eq_some_iff, List.getElem?_eq_some_iff]
  constructor
  · rintro ⟨hlt, heq, -⟩
    rw [List.length_map] at hlt
    refine ⟨hlt, List.inj_on_of_nodup_map hn (List.getElem_mem hlt) hx ?_⟩
    simpa using heq
  · rintro ⟨hlt, rfl⟩
    refine ⟨by rwa [List.length_map], by simp, ?_⟩
    intro j hj heq
    have hi : i < (xs.map f).length := by rwa [List.length_map]
    have hj' : j < (xs.map f).length := hj.trans hi
    have hsame : (xs.map f)[j] = (xs.map f)[i] := by simpa using heq
    exact absurd (hn.getElem_inj_iff.mp hsame) (Nat.ne_of_lt hj)

theorem mem_headers_iff {p : Program} {h : Header} :
    h ∈ Lower.headers p ↔ ∃ i, p.Holds (.item i) ∧ h ∈ i.headers := by
  rw [p.perm_headers.mem_iff]
  constructor
  · intro hh
    obtain ⟨i, hi, hh⟩ := p.exists_item hh
    exact ⟨i, Program.mem_nodes_iff.mp hi, hh⟩
  · rintro ⟨i, hi, hh⟩
    exact Program.mem_headers (Program.mem_nodes_iff.mpr hi) hh

theorem items_sublist_allItems (p : Program) : p.items.Sublist p.allItems := by
  rw [Program.allItems, Program.nodes, itemNodes_eq]
  induction p.items with
  | nil => exact .slnil
  | cons i is ih =>
    rw [List.flatMap_cons, List.filterMap_append]
    have hi : [i].Sublist (i.nodes.filterMap Node.item?) := by
      rw [show i.nodes = (Node.item i).nodes from rfl, Node.nodes_eq]
      exact (List.nil_sublist _).cons_cons i
    exact hi.append ih

section

variable {p : Program} {checked : Check.Checked} {m : Wasm.Module}

/-- The functions at the top of the program are those that are exported. -/
theorem exported_eq (hn : ((Lower.headers p).map Header.id).Nodup) :
    (definitions p).filter (fun h => h.id ∈ (p.items.filterMap definedOf).map Header.id) =
      p.items.filterMap definedOf :=
  filter_mem_of_sublist ((items_sublist_allItems p).filterMap definedOf)
    (nodup_definitions_of_headers hn)

theorem exports_forall₂ (hn : ((Lower.headers p).map Header.id).Nodup) :
    List.Forall₂ (fun h e => e.name = h.name.text ∧ (Lower.headers p)[e.function]? = some h)
      (p.items.filterMap definedOf) (Lower.exports p) := by
  have hall : ∀ h ∈ p.items.filterMap definedOf, h ∈ Lower.headers p := fun h hh =>
    List.mem_append_right _ (((items_sublist_allItems p).filterMap definedOf).subset hh)
  rw [Lower.exports, exported_eq hn, List.forall₂_map_right_iff, List.forall₂_same]
  intro h hh
  refine ⟨rfl, ?_⟩
  have hmem := hall h hh
  obtain ⟨i, hi⟩ := List.getElem?_of_mem hmem
  rw [(idxOf?_iff hn hmem i).mpr hi, Option.getD_some]
  exact hi

theorem names_of_exports {hs : List Header} {es : List Wasm.Export}
    (h : List.Forall₂ (fun h e => e.name = h.name.text ∧ (Lower.headers p)[e.function]? = some h) hs es) :
    es.map Wasm.Export.name = hs.map fun h => h.name.text := by
  induction h with
  | nil => rfl
  | cons hhe _ ih => rw [List.map_cons, List.map_cons, hhe.1, ih]

/-- Functions that are declared together without a problem have different names. -/
theorem silent_declareAll_names {k : Nat} : ∀ {hs : List Header} {f : Scope.Frame} {s : Check.State},
    Check.Silent (hs.forM Check.declare) s → Scope.Stack.Top k f s.scopes →
      (f.decls.map Decl.name).Nodup →
        ((hs.map Header.decl).reverse.map Decl.name ++ f.decls.map Decl.name).Nodup
  | [], _, _, _, _, hnodup => hnodup
  | h :: hs, f, s, hsilent, htop, hnodup => by
    have hrest : Check.Silent (hs.forM Check.declare) (Check.after (Check.declare h) s) := hsilent
    have hfirst : Check.Silent (Check.declare h) s :=
      Check.silent_of_suffix (Check.suffix_forM Check.suffix_declare hs _) hrest
    obtain ⟨hfree, htop'⟩ := Check.silent_declare hfirst htop
    have hnew : ((h.decl :: f.decls).map Decl.name).Nodup := by
      rw [List.map_cons, List.nodup_cons]
      refine ⟨?_, hnodup⟩
      intro hmem
      obtain ⟨d, hd, hname⟩ := List.mem_map.mp hmem
      have hne := List.find?_eq_none.mp hfree d hd
      simp only [decide_eq_true_eq] at hne
      exact hne hname
    have hall := silent_declareAll_names hrest htop' hnew
    rw [List.map_cons, List.reverse_cons, List.map_append, List.append_assoc]
    exact hall

/-- The functions at the top of a program that is checked without a problem have different names. -/
theorem nodup_names_of_checked (h : (Check.run p).2 = []) :
    ((p.items.filterMap definedOf).map fun h => h.name.text).Nodup := by
  have hproblems : (Check.after (Check.items p.items) (Check.start p)).problems = [] :=
    List.reverse_eq_nil_iff.mp h
  have hstart : Check.Silent (Check.declareItems p.items)
      { ({} : Check.State) with scopes := ({} : Scope.Stack).push false } :=
    Check.silent_of_suffix (Check.items_grows p.items (Check.start p)).problems hproblems
  have hall := silent_declareAll_names hstart (Scope.Stack.Top.push {} false) List.nodup_nil
  rw [List.map_nil, List.append_nil, List.map_reverse, List.nodup_reverse, List.map_map] at hall
  refine hall.sublist ?_
  rw [show (Decl.name ∘ Header.decl) = fun h => h.name.text from rfl]
  refine List.Sublist.map _ ?_
  induction p.items with
  | nil => exact .slnil
  | cons i is ih =>
    rw [List.flatMap_cons]
    cases i with
    | function h body => exact ih.cons_cons h
    | «foreign» span abi functions => exact ih.trans (List.sublist_append_right _ _)

/-! ## Bodies -/

theorem perm_of_bodies {bs : List (NodeId × Wasm.Code)} (h : bodies p checked = .ok bs) :
    (bs.map Prod.fst).Perm ((definitions p).map Header.id) := by
  obtain ⟨s, hrun, -, rfl⟩ := bodies_eq_ok h
  obtain ⟨new, hnew, hp⟩ := ((program_lowers p checked.types (Lower.start checked)).ok hrun).bodies
  rw [hnew, Lower.start, List.append_nil]
  exact hp

/-- Where all is lowered, only names are assigned to, and no function stands in them. -/
theorem target_of_item {s : State}
    (hrun : Lower.items (Lower.env p checked.types) p.items
      (after (replayed Scope.Replay.enter) (Lower.start checked)) = .ok () s)
    {v : JointVisit} (hv : v ∈ p.loweringVisits checked) {i : Item} (hi : v.node = .item i) :
    v.target = false := by
  cases ht : v.target with
  | false => rfl
  | true =>
    obtain ⟨h, id, span, lhs, rhs, ⟨σ, τ⟩, hu, hin⟩ := p.targeted_visits _ _ v hv ht
    obtain ⟨is, s', hmakes, -⟩ := (items_emitted p.items _ hrun _ hu).code rfl h rfl
    obtain ⟨t, name, value, slot, -, hname, -⟩ := expr_assign_ok hmakes
    obtain ⟨-, -, -, e, he, -⟩ := visits_place lhs hname v hin
    rw [hi] at he
    cases he

/-- The body of a function is the code that lowering makes of it. -/
theorem code_of_definition (hn : ((Lower.headers p).map Header.id).Nodup)
    {bs : List (NodeId × Wasm.Code)} (hbs : bodies p checked = .ok bs) {h : Header}
    (hh : h ∈ definitions p) {c : Wasm.Code} (hc : codeOf bs h = .ok c) :
    ∃ body owner σ τ is τ', ⟨.item (.function h body), owner, false, (σ, τ)⟩ ∈ p.loweringVisits checked ∧
      Lower.block (Lower.env p checked.types) body (τ.atFunction h) = .ok is τ' ∧
      c = ⟨τ'.locals.types, is⟩ := by
  obtain ⟨s, hrun, rfl⟩ := run_of_bodies hbs
  obtain ⟨i, hi, hih⟩ := List.mem_filterMap.mp hh
  obtain ⟨n, hnode, hni⟩ := List.mem_filterMap.mp hi
  rw [← p.map_node_visits (joint (Lower.env p checked.types))
    (Check.start p, after (replayed Scope.Replay.enter) (Lower.start checked))] at hnode
  obtain ⟨⟨node, owner, target, σ, τ⟩, hv, rfl⟩ := List.mem_map.mp hnode
  cases node with
  | item j =>
    cases hni
    cases i with
    | «foreign» => cases hih
    | function d body =>
      cases hih
      have htarget := target_of_item hrun hv rfl
      have hbody := (items_emitted p.items _ hrun _ hv).body h body rfl htarget
      obtain ⟨-, is, τ', hblock, hdone⟩ := hbody
      have hdefined : (s.bodies.map Prod.fst).Nodup :=
        (perm_of_bodies hbs).nodup_iff.mpr (nodup_definitions_of_headers hn)
      rw [codeOf, lookup_of_mem hdefined hdone] at hc
      cases hc
      cases htarget
      exact ⟨body, owner, σ, τ, is, τ', hv, hblock, rfl⟩
  | _ => cases hni

theorem types_of_headers {hs : List Header} {ts : List Wasm.FuncType}
    (h : List.Forall₂ (fun h t => funcType h = .ok t) hs ts) :
    List.Forall₂ (fun h t =>
      List.Forall₂ (fun u v => valType u = .ok (some v)) h.signature.params t.params ∧
        ∃ r, valType h.signature.result = .ok r ∧ t.results = r.toList) hs ts :=
  h.imp fun _ _ => funcType_ok

/-- The functions of a module are numbered as their types are. -/
theorem places_of_generate (hm : generate p checked = .ok m) :
    m.imports.map Wasm.Import.type ++ m.functions = List.range (Lower.headers p).length := by
  obtain ⟨bs, -, -, -, himports, -, hfunctions⟩ := generate_eq_ok hm
  have himported : m.imports.map Wasm.Import.type = List.range' 0 (foreigns p).length := by
    rw [himports, imports, List.map_map, ← List.zipIdx_map_snd]
    rfl
  rw [himported, hfunctions, List.zipIdx_map_snd, Lower.headers, List.length_append, List.length_map,
    List.range_eq_range']
  simpa using @List.range'_append 0 (foreigns p).length (definitions p).length 1

theorem imports_forall₂ (p : Program) :
    List.Forall₂ (fun f i => i.module = f.abi ∧ i.name = f.header.name.text)
      (foreigns p) (Lower.imports p) := by
  rw [List.forall₂_iff_get, Lower.imports]
  refine ⟨by simp, ?_⟩
  intro i _ _
  simp

end

namespace Lower

/-- Every function of a parsed program, wherever it stands, has one index, which is its place among
the functions, and under which the module has its type and the code of its body. -/
theorem generate_function_space {tokens : List Token} {p : Program}
    {problems : List (Located Parse.Problem)} {checked : Check.Checked} {m : Wasm.Module}
    (hp : Parse.run Parse.program tokens = ⟨.ok p, problems⟩) (hm : generate p checked = .ok m) :
    FunctionSpace p checked m := by
  have hn := nodup_headers_of_numbers (Parse.numbers_nodup hp)
  obtain ⟨bs, hbs, htypes, hcodes, himports, hexports, -⟩ := generate_eq_ok hm
  have hforall := exports_forall₂ hn
  rw [← hexports] at hforall
  exact {
    everywhere := fun _ => mem_headers_iff
    once := hn
    order := ⟨p.nodes, p.nodes_preorder, rfl⟩
    index := fun _ hh i => idxOf?_iff hn hh i
    types := types_of_headers htypes
    places := places_of_generate hm
    imports := himports ▸ imports_forall₂ p
    filled := ⟨bs, hbs, perm_of_bodies hbs⟩
    codes := by
      refine List.forall₂_iff_get.mpr ⟨hcodes.length_eq, fun i hi hj => ?_⟩
      exact code_of_definition hn hbs (List.get_mem _ _) (hcodes.get hi hj)
    exports := hforall
    exportNames := fun hchecked => names_of_exports hforall ▸ nodup_names_of_checked hchecked }

/-- A function of another module comes first, and one inside an argument behind that around it. -/
theorem generate_function_space_nested :
    ∃ p m, Accepted (Lexer.read 0
        "fn f() \x7b g(\x7b fn h() \x7b\x7d true \x7d) \x7d extern \"c\" \x7b fn g(a: bool); \x7d").tokens p ∧
      generate p (Check.run p).1 = .ok m ∧
      (headers p).map (fun h => h.name.text) = ["g", "f", "h"] ∧
      m.exports = [⟨"f", 1⟩] ∧ FunctionSpace p (Check.run p).1 m := by
  have hmodule : ((accepted? (Lexer.read 0
        "fn f() \x7b g(\x7b fn h() \x7b\x7d true \x7d) \x7d extern \"c\" \x7b fn g(a: bool); \x7d").tokens).bind fun p =>
      (generate p (Check.run p).1).toOption.map fun m =>
        ((headers p).map fun h => h.name.text, m.exports)) =
      some (["g", "f", "h"], [⟨"f", 1⟩]) := by
    cbv
  obtain ⟨p, m, h, hm, hview⟩ := exists_module hmodule
  obtain ⟨hheaders, hexports⟩ := Prod.mk.inj hview
  exact ⟨p, m, h, hm, hheaders, hexports, generate_function_space h.parsed hm⟩

end Lower
end Ferrite
