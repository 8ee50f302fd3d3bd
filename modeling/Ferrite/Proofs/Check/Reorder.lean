import Ferrite.Proofs.Check.Accepted
import Ferrite.Proofs.Check.Apart
import Mathlib.Data.List.Nodup

/-!
The items of a program can stand in any order: as long as no two of them have the same name, checking
finds the same types, problems and frames.
-/

namespace Ferrite

section

variable {α β : Type} [DecidableEq β]

/-- In a list without repeated keys, a key finds the one entry that has it. -/
theorem find?_key_eq_some {key : α → β} {l : List α} (h : (l.map key).Nodup) {b : β} {a : α} :
    l.find? (fun x => decide (key x = b)) = some a ↔ a ∈ l ∧ key a = b := by
  constructor
  · intro hfind
    exact ⟨List.mem_of_find?_eq_some hfind, by simpa using List.find?_some hfind⟩
  · rintro ⟨hmem, rfl⟩
    obtain ⟨c, hc⟩ : ∃ c, l.find? (fun x => decide (key x = key a)) = some c :=
      Option.isSome_iff_exists.mp (List.find?_isSome.mpr ⟨a, hmem, by simp⟩)
    have hkey : key c = key a := by simpa using List.find?_some hc
    rw [hc, List.inj_on_of_nodup_map h (List.mem_of_find?_eq_some hc) hmem hkey]

theorem find?_key_perm (key : α → β) {l l' : List α} (hp : l.Perm l') (h : (l.map key).Nodup) (b : β) :
    l.find? (fun x => decide (key x = b)) = l'.find? (fun x => decide (key x = b)) := by
  refine Option.ext fun a => ?_
  rw [find?_key_eq_some h, find?_key_eq_some ((hp.map key).nodup_iff.mp h), hp.mem_iff]

theorem lookup_perm {l l' : List (β × α)} (hp : l.Perm l') (h : (l.map Prod.fst).Nodup) (b : β) :
    l.lookup b = l'.lookup b := by
  have hmem : ∀ {l : List (β × α)}, (l.map Prod.fst).Nodup → ∀ a, l.lookup b = some a ↔ (b, a) ∈ l := by
    intro l h a
    refine ⟨fun hl => ?_, lookup_of_mem h⟩
    obtain ⟨l₁, l₂, rfl, -⟩ := List.lookup_eq_some_iff.mp hl
    exact List.mem_append_right _ List.mem_cons_self
  refine Option.ext fun a => ?_
  rw [hmem h, hmem ((hp.map _).nodup_iff.mp h), hp.mem_iff]

end

/-- The frames answer alike, whatever order they were written to in. -/
structure Scope.Frame.Same (f g : Scope.Frame) : Prop where
  boundary : f.boundary = g.boundary
  local? : ∀ name, f.local? name = g.local? name
  decl? : ∀ name, f.decl? name = g.decl? name

theorem Scope.Frame.Same.refl (f : Scope.Frame) : f.Same f := ⟨rfl, fun _ => rfl, fun _ => rfl⟩

namespace Check

/-- A state where only the frame of the whole program is open, and declares the given functions. -/
def crate (decls : List Decl) : State where
  scopes :=
    { record := { events := #[.push], frames := #[{ boundary := false, decls }] }
      opened := [0] }

theorem crate_decl? (decls : List Decl) (name : String) :
    (crate decls).scopes.decl? name = decls.find? (·.name = name) := by
  simp [crate, Scope.Stack.decl?, Scope.Stack.frames, Scope.Record.framesAt, Scope.findDecl?,
    Scope.Frame.decl?]

theorem valid_crate (decls : List Decl) : (crate decls).scopes.Valid where
  bound j hj := by
    rw [List.mem_singleton.mp hj]
    exact Nat.zero_lt_one
  nodup := List.nodup_singleton 0

theorem after_declare {decls : List Decl} {h : Header} (hfree : h.name.text ∉ decls.map Decl.name) :
    after (declare h) (crate decls) = crate (h.decl :: decls) := by
  have hfind : decls.find? (fun d => decide (d.name = h.name.text)) = none := by
    rw [List.find?_eq_none]
    intro d hd heq
    exact hfree (of_decide_eq_true heq ▸ List.mem_map_of_mem hd)
  let frame : Scope.Frame := { boundary := false, decls }
  have hnone : frame.decl? h.decl.name = none := hfind
  have hinsert : (crate decls).scopes.insertDecl h.decl = (true, (crate (h.decl :: decls)).scopes) := by
    have hadd : frame.addDecl h.decl = { frame with decls := h.decl :: decls } := by
      rw [Scope.Frame.addDecl, hnone]
      rfl
    have hmodify : #[frame].modify 0 (·.addDecl h.decl) = #[{ frame with decls := h.decl :: decls }] := by
      rw [← hadd]
      rfl
    have htop : Scope.Stack.Top 0 frame (crate decls).scopes := ⟨rfl, rfl⟩
    refine Prod.ext ?_ ?_
    · rw [htop.insertDecl, hnone]
      rfl
    · exact congrArg (fun frames => Scope.Stack.mk ⟨#[.push], frames⟩ [0]) hmodify
  have hafter : after (declare h) (crate decls) = after
      (reportIf (!((crate decls).scopes.insertDecl h.decl).1) (.repeatedItem h.name.text) h.name.span)
      { crate decls with scopes := ((crate decls).scopes.insertDecl h.decl).2 } := rfl
  rw [hafter, hinsert]
  rfl

theorem after_declareAll : ∀ {hs : List Header} {decls : List Decl},
    (hs.map (·.name.text)).Nodup → (∀ h ∈ hs, h.name.text ∉ decls.map Decl.name) →
      after (hs.forM declare) (crate decls) = crate ((hs.map Header.decl).reverse ++ decls)
  | [], _, _, _ => rfl
  | h :: hs, decls, hnodup, hfree => by
    rw [List.map_cons, List.nodup_cons] at hnodup
    obtain ⟨hh, hhs⟩ := hnodup
    have hrest : ∀ g ∈ hs, g.name.text ∉ (h.decl :: decls).map Decl.name := by
      intro g hg hmem
      rw [List.map_cons, List.mem_cons] at hmem
      rcases hmem with heq | hmem
      · exact hh (List.mem_map.mpr ⟨g, hg, heq⟩)
      · exact hfree g (List.mem_cons_of_mem _ hg) hmem
    have hall : after ((h :: hs).forM declare) (crate decls) =
        after (hs.forM declare) (after (declare h) (crate decls)) := rfl
    rw [hall, after_declare (hfree h List.mem_cons_self), after_declareAll hhs hrest, List.map_cons,
      List.reverse_cons, List.append_assoc, List.singleton_append]

/-- Where no two items have the same name, all of them are declared before the first one is checked. -/
theorem start_eq {p : Program} (h : ((p.items.flatMap Item.headers).map (·.name.text)).Nodup) :
    start p = crate ((p.items.flatMap Item.headers).map Header.decl).reverse := by
  have hall : start p = after ((p.items.flatMap Item.headers).forM declare) (crate []) := rfl
  rw [hall, after_declareAll h (fun _ _ hmem => by cases hmem), List.append_nil]

/-- Behind items that were checked one after the other, what each of them adds has been put together. -/
structure Gathers (part : Item → State) (is : List Item) (s s' : State) : Prop where
  types : s'.types.entries.Perm (is.flatMap (fun i => (part i).types.entries) ++ s.types.entries)
  problems : s'.problems.Perm (is.flatMap (fun i => (part i).problems) ++ s.problems)
  frames : s'.scopes.record.frames.toList =
    s.scopes.record.frames.toList ++ is.flatMap fun i => (part i).scopes.record.frames.toList

theorem items_gather {decls : String → Option Decl} {part : Item → State}
    (hopened : ∀ i, (part i).scopes.opened = [])
    (hpart : ∀ i s, Around decls s → after (item i) s = s.append (part i)) :
    ∀ (is : List Item) (s : State), Around decls s → Gathers part is s (after (items is) s)
  | [], s, _ => ⟨.refl _, .refl _, (List.append_nil _).symm⟩
  | i :: is, s, hs => by
    have h := items_gather hopened hpart is (s.append (part i)) (hs.append (hopened i))
    have hafter : after (items (i :: is)) s = after (items is) (after (item i) s) := by
      rw [items]
      rfl
    rw [hafter, hpart i s hs]
    refine ⟨?_, ?_, ?_⟩
    · rw [List.flatMap_cons, List.append_assoc]
      exact h.types.trans (List.perm_append_comm_assoc _ _ _)
    · rw [List.flatMap_cons, List.append_assoc]
      exact h.problems.trans (List.perm_append_comm_assoc _ _ _)
    · rw [h.frames, List.flatMap_cons, ← List.append_assoc]
      exact congrArg (· ++ _) Array.toList_append

theorem frames_run (p : Program) :
    (run p).1.record.frames = (after (items p.items) (start p)).scopes.record.frames := by
  rw [run_eq]
  exact Scope.Stack.frames_leave _

/-- The frame of the whole program answers alike, whatever order its functions were declared in. -/
theorem same_crate {hs hs' : List Header} (hp : hs.Perm hs') (h : (hs.map (·.name.text)).Nodup) :
    Scope.Frame.Same { boundary := false, decls := (hs.map Header.decl).reverse }
      { boundary := false, decls := (hs'.map Header.decl).reverse } where
  boundary := rfl
  local? _ := rfl
  decl? name := by
    have hdecls : (hs.map Header.decl).reverse.Perm (hs'.map Header.decl).reverse :=
      (List.reverse_perm _).trans ((hp.map _).trans (List.reverse_perm _).symm)
    refine find?_key_perm Decl.name hdecls ?_ name
    rw [List.map_reverse, List.nodup_reverse, List.map_map]
    exact h

/-- The order of the items does not matter, as long as no two functions of the program have the same
name, the declared foreign ones included. Checking notes the same types, each as often, and finds the same
problems and frames. Where no number is used twice, as in every parsed program, the table of types is the
same one. -/
theorem run_perm {p q : Program} (hitems : p.items.Perm q.items)
    (hnames : ((p.items.flatMap Item.headers).map (·.name.text)).Nodup) :
    (run p).1.types.entries.Perm (run q).1.types.entries ∧
      (p.ids.Nodup → ∀ id, (run p).1.types.get? id = (run q).1.types.get? id) ∧
      ((∃ tokens problems, Parse.run Parse.program tokens = ⟨.ok p, problems⟩) → p.ids.Nodup) ∧
      (run p).2.Perm (run q).2 ∧
      ∃ frames, (run p).1.record.frames.toList.Perm frames ∧
        List.Forall₂ Scope.Frame.Same frames (run q).1.record.frames.toList := by
  have hheaders : (p.items.flatMap Item.headers).Perm (q.items.flatMap Item.headers) :=
    hitems.flatMap_right _
  have hsame := same_crate hheaders hnames
  -- Every item is checked with the functions of the whole program in sight, in the same way in both.
  choose part hopened _ hpart using exists_part (start p).scopes.decl?
  have hp : Around (start p).scopes.decl? (start p) := by
    refine ⟨?_, fun _ => rfl⟩
    rw [start_eq hnames]
    exact valid_crate _
  have hq : Around (start p).scopes.decl? (start q) := by
    rw [start_eq hnames, start_eq ((hheaders.map _).nodup_iff.mp hnames)]
    refine ⟨valid_crate _, fun name => ?_⟩
    rw [crate_decl?, crate_decl?]
    exact (hsame.decl? name).symm
  have hgp := items_gather hopened hpart p.items _ hp
  have hgq := items_gather hopened hpart q.items _ hq
  have htypes : (run p).1.types.entries.Perm (run q).1.types.entries := by
    refine hgp.types.trans (.trans ?_ hgq.types.symm)
    rw [start_eq hnames, start_eq ((hheaders.map _).nodup_iff.mp hnames)]
    exact (hitems.flatMap_right _).append (.refl _)
  refine ⟨htypes, fun hids id => ?_, ?_, ?_, ?_⟩
  · exact lookup_perm htypes ((types_run p).nodup_iff.mpr hids) id
  · rintro ⟨tokens, problems, hrun⟩
    exact (Parse.numbers_nodup hrun).sublist (ids_sublist_numbers p.nodes)
  · rw [run_eq, run_eq]
    refine (List.reverse_perm _).trans (.trans ?_ (List.reverse_perm _).symm)
    refine hgp.problems.trans (.trans ?_ hgq.problems.symm)
    rw [start_eq hnames, start_eq ((hheaders.map _).nodup_iff.mp hnames)]
    exact (hitems.flatMap_right _).append (.refl _)
  · refine ⟨{ boundary := false, decls := ((p.items.flatMap Item.headers).map Header.decl).reverse } ::
      q.items.flatMap fun i => (part i).scopes.record.frames.toList, ?_, ?_⟩
    · rw [frames_run, hgp.frames, start_eq hnames]
      exact (hitems.flatMap_right _).cons _
    · rw [frames_run, hgq.frames, start_eq ((hheaders.map _).nodup_iff.mp hnames)]
      exact .cons hsame (List.forall₂_same.mpr fun f _ => .refl f)

/-- Two functions and a foreign one, from front to back and from back to front: the two problems that are
reported change their places, and each call finds the function that stands behind it in one of the two. -/
theorem run_perm_reverse : ∃ p q : Program, q.items = p.items.reverse ∧
    (p.items.flatMap Item.headers).map (·.name.text) = ["f", "h", "g"] ∧
    (run p).2.map Located.value =
      [.argument 1 "g" .bool (.int .i32), .body "g" (.int .i32) .bool] ∧
    (run q).2.map Located.value =
      [.body "g" (.int .i32) .bool, .argument 1 "g" .bool (.int .i32)] ∧
    (run p).1.types.entries.Perm (run q).1.types.entries ∧
    (p.ids.Nodup → ∀ id, (run p).1.types.get? id = (run q).1.types.get? id) ∧
    ((∃ tokens problems, Parse.run Parse.program tokens = ⟨.ok p, problems⟩) → p.ids.Nodup) ∧
    (run p).2.Perm (run q).2 ∧
    ∃ frames, (run p).1.record.frames.toList.Perm frames ∧
      List.Forall₂ Scope.Frame.Same frames (run q).1.record.frames.toList := by
  have hruns : (Parse.run Parse.program (Lexer.read 0
      "fn f() -> i32 \x7b g(true) \x7d extern \"C\" \x7b fn h(); \x7d fn g(a: i32) -> i32 \x7b h(); false \x7d").tokens).result.toOption.map
        (fun p => ((p.items.flatMap Item.headers).map fun h => h.name.text, (run p).2.map Located.value,
          (run ⟨p.items.reverse, p.span⟩).2.map Located.value)) =
      some (["f", "h", "g"], [.argument 1 "g" .bool (.int .i32), .body "g" (.int .i32) .bool],
        [.body "g" (.int .i32) .bool, .argument 1 "g" .bool (.int .i32)]) := by
    decide +kernel
  obtain ⟨p, -, hsome⟩ := Parse.Outcome.exists_ok hruns
  rw [Prod.mk.injEq, Prod.mk.injEq] at hsome
  obtain ⟨hnames, hp, hq⟩ := hsome
  exact ⟨p, ⟨p.items.reverse, p.span⟩, rfl, hnames, hp, hq,
    run_perm (List.reverse_perm _).symm (hnames ▸ by decide)⟩

end Check
end Ferrite
