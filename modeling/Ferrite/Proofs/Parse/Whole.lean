import Ferrite.Proofs.Parse.Complete

/-!
Whole phrases of the grammar are parsed: statements, blocks, items and programs, and with them every
expression by itself.
-/

namespace Ferrite.Parse

/-! ## Functions without their bodies -/

theorem perhaps_takes {k : Keyword} {ts rest : List Token} (h : Perhaps k ts)
    (hrest : first rest ≠ .keyword k) : Takes (acceptKeyword k) ts rest fun _ => True := by
  rcases h with rfl | ⟨t, ht, rfl⟩
  · exact (Takes.acceptKeyword_not hrest).mono fun _ _ => trivial
  · exact (Takes.acceptKeyword ht).mono fun _ _ => trivial

/-- The same name and type, wherever the name stands. -/
def SameParam (p q : Ident × Ty) : Prop := q.1.relabel .bare = p.1.relabel .bare ∧ q.2 = p.2

theorem Ident.relabel_bare {i j : Ident} (h : i.text = j.text) : i.relabel .bare = j.relabel .bare := by
  rw [Ident.relabel, Ident.relabel, h]
  rfl

theorem param_takes {p : Ident × Ty} {ts rest : List Token} (h : ParamSpelled p ts)
    (hrest : first rest ≠ .punct .arrow) : Takes param ts rest (SameParam p) := by
  cases h with
  | @mk muts n c name t ts hmut hn hc h =>
    refine Takes.bind (perhaps_takes hmut (by simp [hn])) fun _ _ => ?_
    refine .token (.expectName hn) fun found hfound => .token (.expect hc) fun _ _ => ?_
    refine (type_takes h hrest).last fun t ht => ?_
    exact .pure ⟨Ident.relabel_bare hfound, ht⟩

theorem ParamSpelled.starts {p : Ident × Ty} {ts : List Token} (h : ParamSpelled p ts) :
    first ts ≠ .punct .rparen ∧ first ts ≠ .endOfInput := by
  cases h with
  | mk hmut hn =>
    rcases hmut with rfl | ⟨t, ht, rfl⟩
    · simp [hn]
    · simp [ht]

theorem header_takes {h : Header} {ts rest : List Token} (hh : HeaderSpelled h ts) (start : Span)
    (hrest : first rest ≠ .punct .arrow) :
    Takes (header start) ts rest fun h' => h'.relabel .bare = h.relabel .bare := by
  cases hh with
  | @mk f n l r _ params comma ps rs hf hn hl hparams hr hresult hnames htypes =>
    refine .silent .freshId fun id _ => .token (.advance (hf ▸ Terminal.noConfusion)) fun _ _ => ?_
    refine .token (.expectName hn) fun name hname => ?_
    rw [show l :: (ps ++ r :: rs) = l :: (ps ++ [r]) ++ rs by simp]
    refine (parenthesized_takes SameParam (fun _ _ => ParamSpelled.starts) hl hparams hr ?_).bind ?_
    · intro p us rest hp _ hrest
      exact param_takes hp (by rcases hrest with hrest | hrest <;> simp [hrest])
    rintro ⟨found, last⟩ ⟨hfound, -⟩
    refine (result_takes hresult hrest).last fun t ht => .silent .lastSpan fun place _ => .pure ?_
    have hnames' : found.map (fun p => p.1.relabel .bare) = params.map fun p => p.1.relabel .bare :=
      map_eq_of_forall₂ (hfound.imp fun _ _ h => h.1)
    have htypes' : found.map (·.2) = params.map (·.2) := map_eq_of_forall₂ (hfound.imp fun _ _ h => h.2)
    obtain ⟨_, _, _, ⟨_, _⟩, _⟩ := h
    simp only at hnames htypes ht hname
    simp only [Header.relabel, List.map_map, Function.comp_def, hnames, htypes, hnames', htypes', ht,
      Ident.relabel_bare hname]
    rfl

theorem HeaderSpelled.starts {h : Header} {ts : List Token} (hh : HeaderSpelled h ts) :
    first ts = .keyword .fn := by
  cases hh with
  | mk hf => exact hf

theorem declaration_takes {h : Header} {semi : Token} {ts rest : List Token} (hh : HeaderSpelled h ts)
    (hsemi : semi.terminal = .punct .semi) :
    Takes declaration (ts ++ [semi]) rest fun h' => h'.relabel .bare = h.relabel .bare := by
  refine .silent .span fun start _ => (header_takes hh start (by simp [hsemi])).bind fun h' hh' => ?_
  refine (Takes.expect hsemi).last fun _ _ => .silent .lastSpan fun place _ => .pure ?_
  exact hh'

theorem declarations_takes {hs : List Header} {ts rest : List Token} (h : HeadersSpelled hs ts) {bound : Nat}
    (hbound : ts.length < bound) (hrest : first rest = .punct .rbrace) :
    Takes (declarations bound) ts rest fun hs' =>
      hs'.map (Header.relabel .bare) = hs.map (Header.relabel .bare) := by
  induction h generalizing bound with
  | nil =>
    obtain ⟨bound, rfl⟩ := Nat.exists_eq_succ_of_ne_zero (Nat.ne_zero_of_lt hbound)
    refine .dispatch ?_
    rw [List.nil_append, hrest]
    exact .pure rfl
  | @cons h hs semi ts us hh hsemi _ ih =>
    obtain ⟨bound, rfl⟩ := Nat.exists_eq_succ_of_ne_zero (Nat.ne_zero_of_lt hbound)
    rw [List.length_append, List.length_cons] at hbound
    refine .dispatch ?_
    rw [List.append_assoc, first_append (by rw [hh.starts]; exact Terminal.noConfusion), hh.starts]
    rw [show ts ++ semi :: us = ts ++ [semi] ++ us by simp]
    refine .remaining fun before _ => (declaration_takes hh hsemi).attempt.bind ?_
    rintro _ ⟨h', rfl, hh'⟩
    refine (ih (by omega)).last fun hs' hhs' => .pure ?_
    rw [List.map_cons, List.map_cons, hh', hhs']

/-! ## Statements, blocks and items -/

/-- What a statement can start with. -/
def startsStmt (t : Terminal) : Prop := t = .keyword .let ∨ startsExpr t = true

/-- The tokens are taken for the statement. -/
structure StmtRun (s : Stmt) (ts : List Token) : Prop where
  starts : startsStmt (first ts)
  takes : ∀ n rest, 2 * ts.length < n → s.EndsAt (first rest) → first rest ≠ .keyword .else →
    Takes (level n).statement ts rest fun s' => s'.relabel .bare = s.relabel .bare

/-- The tokens are taken for the item. -/
structure ItemRun (i : Item) (ts : List Token) : Prop where
  starts : first ts = .keyword .fn ∨ first ts = .keyword .foreign
  takes : ∀ n rest, 2 * ts.length ≤ n →
    Takes (level n).item? ts rest fun found =>
      found.map (Item.relabel .bare) = some (i.relabel .bare)

theorem ItemRun.ne_end {i : Item} {ts : List Token} (h : ItemRun i ts) : first ts ≠ .endOfInput := by
  rcases h.starts with hfirst | hfirst <;> simp [hfirst]

/-- The tokens are taken for what a block holds. -/
structure EntriesRun (es : List Entry) (ts : List Token) : Prop where
  starts : first ts ≠ .keyword .else
  takes : ∀ n bound rest, 2 * (ts.length + 1) ≤ n → ts.length < bound → first rest = .punct .rbrace →
    Takes ((level n).entries bound) ts rest fun es' =>
      es'.map (Entry.relabel .bare) = es.map (Entry.relabel .bare)

theorem foreign_run {t l r : Token} {span : Span} {abi : String} {hs : List Header} {as ts : List Token}
    (ht : t.terminal = .keyword .foreign) (habi : AbiSpelled abi as) (hl : l.terminal = .punct .lbrace)
    (h : HeadersSpelled hs ts) (hr : r.terminal = .punct .rbrace) :
    ItemRun (.foreign span abi hs) (t :: (as ++ l :: (ts ++ [r]))) where
  starts := .inr ht
  takes n rest hn := by
    have hbody : ∀ start : Span, Takes
        (do
          expect .lbrace
          let functions ← declarations ((← remaining) + 1)
          expect .rbrace
          return Item.foreign (start.join (← lastSpan)) abi functions)
        (l :: (ts ++ [r])) rest fun i => i.relabel .bare = (Item.foreign span abi hs).relabel .bare := by
      refine fun start => .token (.expect hl) fun _ _ => .remaining fun n hn => ?_
      rw [List.length_append] at hn
      refine (declarations_takes h (by omega) (by exact hr)).bind fun functions hfunctions => ?_
      refine (Takes.expect hr).last fun _ _ => .silent .lastSpan fun place _ => .pure ?_
      rw [Item.relabel, hfunctions]
      rfl
    refine .dispatch ?_
    rw [List.cons_append, first_cons, ht]
    refine Takes.map ?_ fun _ => congrArg some
    refine .silent .span fun start _ => .token (.advance (ht ▸ Terminal.noConfusion)) fun _ _ => .dispatch ?_
    rcases habi with ⟨rfl, rfl⟩ | ⟨a, ha, rfl⟩
    · rw [List.nil_append, List.cons_append, first_cons, hl]
      exact .known (hbody start)
    · rw [List.append_assoc, List.singleton_append, first_cons, ha]
      refine .token (.advance (ha ▸ Terminal.noConfusion)) fun _ _ => ?_
      exact .known (hbody start)

theorem function_run {h : Header} {body : Block} {ts us : List Token} (hh : HeaderSpelled h ts)
    (hbody : BlockRun body us) : ItemRun (.function h body) (ts ++ us) where
  starts := by
    left
    rw [first_append (by rw [hh.starts]; exact Terminal.noConfusion), hh.starts]
  takes n rest hn := by
    have hne : first ts ≠ .endOfInput := by rw [hh.starts]; exact Terminal.noConfusion
    have hpos : 0 < ts.length := List.length_pos_of_ne_nil fun hnil => hne (by rw [hnil]; rfl)
    rw [List.length_append] at hn
    obtain ⟨n, rfl⟩ := Nat.exists_eq_succ_of_ne_zero (by omega : n ≠ 0)
    refine .dispatch ?_
    rw [List.append_assoc, first_append hne, hh.starts]
    refine Takes.map ?_ fun _ => congrArg some
    refine .silent .span fun start _ => (header_takes hh start ?_).bind fun h' hh' => ?_
    · rw [hbody.first_append]
      simp
    refine Takes.last (hbody.takes n rest (by omega)) fun body' hbody' => ?_
    refine .silent .lastSpan fun place _ => .pure ?_
    rw [Item.relabel, Item.relabel, hbody']
    exact congrArg (Item.function · _) hh'

theorem startsStmt.ne {t t' : Terminal} (h : startsStmt t) (hlet : t' ≠ .keyword .let)
    (hexpr : startsExpr t' = false) : t ≠ t' := by
  rintro rfl
  rcases h with h | h
  · exact hlet h
  · exact Bool.noConfusion (h.symm.trans hexpr)

theorem startsStmt.ne_end {t : Terminal} (h : startsStmt t) : t ≠ .endOfInput := h.ne (by simp) rfl

theorem bind_run {t n q semi : Token} {muts declared : List Token} {id : NodeId} {span : Span} {name : Ident}
    {type : Option Ty} {init : Expr} {ts : List Token} (ht : t.terminal = .keyword .let)
    (hmut : Perhaps .mut muts) (hn : n.terminal = .name name.text)
    (htype : type = none ∧ declared = [] ∨ ∃ (ty : Ty) (c : Token) (us : List Token),
      type = some ty ∧ c.terminal = .punct .colon ∧ TypeSpelled (.type ty) us ∧ declared = c :: us)
    (hq : q.terminal = .punct .eq) (h : ExprRun init ts) (hsemi : semi.terminal = .punct .semi) :
    StmtRun (.bind id span name type init) (t :: (muts ++ n :: (declared ++ q :: (ts ++ [semi])))) where
  starts := .inl ht
  takes m rest hm _ _ := by
    have hclosing : Closing [.semi] := by simp [Closing]
    simp only [List.length_cons, List.length_append] at hm
    have hinit : ∀ (start : Span) (id' : NodeId) (name' : Ident), name'.relabel .bare = name.relabel .bare →
        Takes
          (do
            expect .eq
            let init ← (level m).expr [.semi]
            expect .semi
            return Stmt.bind id' (start.join (← lastSpan)) name' type init)
          (q :: (ts ++ [semi])) rest fun s =>
            s.relabel .bare = (Stmt.bind id span name type init).relabel .bare := by
      intro start id' name' hname
      refine .token (.expect hq) fun _ _ => ?_
      refine (h.expr (by omega) hclosing (by simp) (by simp [hsemi, stops])).bind fun init' hinit => ?_
      refine (Takes.expect hsemi).last fun _ _ => .silent .lastSpan fun place _ => .pure ?_
      rw [Stmt.relabel, hname, hinit]
      rfl
    refine .dispatch ?_
    rw [List.cons_append, first_cons, ht, if_pos rfl]
    refine .silent .span fun start _ => .silent .freshId fun id' _ => ?_
    refine .token (.advance (ht ▸ Terminal.noConfusion)) fun _ _ => ?_
    refine Takes.bind (perhaps_takes hmut (by simp [hn])) fun _ _ => ?_
    refine .token (.expectName hn) fun name' hname => ?_
    rcases htype with ⟨rfl, rfl⟩ | ⟨ty, c, us, rfl, hc, hty, rfl⟩
    · refine .silent (.accept_not (by simp [hq])) fun b hb => ?_
      rw [if_neg (by simp [hb])]
      exact .known (hinit start id' name' (Ident.relabel_bare hname))
    · refine .token (.accept hc) fun b hb => ?_
      rw [if_pos hb]
      have hdeclared : Takes (some <$> Parse.type) us (q :: (ts ++ [semi]) ++ rest) (· = some ty) :=
        (type_takes hty (by simp [hq])).map fun _ => congrArg some
      refine hdeclared.bind ?_
      rintro _ rfl
      exact hinit start id' name' (Ident.relabel_bare hname)

/-- An expression as a statement, up to what follows it. -/
theorem statement_takes {e : Expr} {ts us rest : List Token} {n : Nat} {good : Stmt → Prop} (h : ExprRun e ts)
    (hstart : Nested.startsBlockLike (first ts) = true → e.endsInBlock = true) (hn : 2 * ts.length < n)
    (helse : first (us ++ rest) ≠ .keyword .else)
    (hstops : e.endsInBlock = false → stops [.semi, .rbrace] (first (us ++ rest)) = true)
    (hrest : ∀ (start : Span) e', e'.relabel .bare = e.relabel .bare → Takes
      (do
        let semi ← accept .semi
        if !semi && !e'.endsInBlock && !(← isAt .rbrace) then failAt (.unexpected .statementEnd)
        else return Stmt.expr (start.join (← lastSpan)) e' semi) us rest good) :
    Takes (level n).statement (ts ++ us) rest good := by
  have hfirst : first (ts ++ us ++ rest) = first ts := by
    rw [List.append_assoc, first_append h.ne_end]
  have hlet : first ts ≠ .keyword .let := fun hlet => by
    have hstarts := h.starts
    rw [hlet] at hstarts
    cases hstarts
  refine .dispatch ?_
  rw [hfirst, if_neg hlet]
  refine .silent .span fun start _ => .dispatch ?_
  rw [hfirst]
  split
  · rename_i hblock
    exact (h.blockLike (hstart hblock) n _ (by omega) helse).bind (hrest start)
  · rename_i hno
    have hends : e.endsInBlock = false := by
      cases hends : e.endsInBlock with
      | false => rfl
      | true => exact absurd (h.blockStart hends) hno
    exact (h.expr (by omega) (by simp [Closing]) (by simp) (hstops hends)).bind (hrest start)

theorem endsInBlock_of_relabel {e e' : Expr} (h : e'.relabel .bare = e.relabel .bare) :
    e'.endsInBlock = e.endsInBlock := by
  rw [← Expr.relabel_endsInBlock .bare e', h, Expr.relabel_endsInBlock]

theorem head_startsBlockLike {e : Expr} {ts : List Token} (h : ExprRun e ts)
    (hstart : ∀ t ∈ ts.head?, Nested.startsBlockLike t.terminal = true → e.endsInBlock = true) :
    Nested.startsBlockLike (first ts) = true → e.endsInBlock = true := by
  cases ts with
  | nil => exact absurd rfl h.ne_end
  | cons t ts => exact hstart t rfl

theorem semiStmt_run {span : Span} {e : Expr} {semi : Token} {ts : List Token} (h : ExprRun e ts)
    (hstart : ∀ t ∈ ts.head?, Nested.startsBlockLike t.terminal = true → e.endsInBlock = true)
    (hsemi : semi.terminal = .punct .semi) : StmtRun (.expr span e true) (ts ++ [semi]) where
  starts := by
    rw [first_append h.ne_end]
    exact .inr h.starts
  takes n rest hn _ _ := by
    rw [List.length_append] at hn
    refine statement_takes h (head_startsBlockLike h hstart) (by simp at hn; omega) (by simp [hsemi])
      (fun _ => by simp [hsemi, stops]) fun start e' he' => ?_
    refine (Takes.accept hsemi).last fun b hb => .silent (.isAt _) fun closing _ => ?_
    rw [if_neg (by simp [hb])]
    refine .silent .lastSpan fun place _ => .pure ?_
    rw [Stmt.relabel, he', hb]
    rfl

theorem exprStmt_run {span : Span} {e : Expr} {ts : List Token} (h : ExprRun e ts)
    (hstart : ∀ t ∈ ts.head?, Nested.startsBlockLike t.terminal = true → e.endsInBlock = true) :
    StmtRun (.expr span e false) ts where
  starts := .inr h.starts
  takes n rest hn hends helse := by
    obtain ⟨hsemi, hbrace⟩ := hends
    have htakes : Takes (level n).statement (ts ++ []) rest fun s =>
        s.relabel .bare = (Stmt.expr span e false).relabel .bare := by
      refine statement_takes h (head_startsBlockLike h hstart) hn helse
        (fun hblock => by simp [hbrace hblock, stops]) fun start e' he' => ?_
      refine .silent (.accept_not hsemi) fun b hb => .silent (.isAt _) fun closing hclosing => ?_
      have hdone : (!b && !e'.endsInBlock && !closing) = false := by
        rw [endsInBlock_of_relabel he', hclosing]
        cases hblock : e.endsInBlock with
        | true => simp
        | false => simp [hbrace hblock]
      rw [if_neg (by simp [hdone])]
      refine .silent .lastSpan fun place _ => .pure ?_
      rw [Stmt.relabel, he', hb]
      rfl
    rwa [List.append_nil] at htakes

/-- Where a statement starts, no item does. -/
theorem item?_takes_none {nested : Nested} {ts us rest : List Token} {f : Option (Option Item) → Parser (List Entry)}
    {good : List Entry → Prop} (h : startsStmt (first ts))
    (hf : Takes (f (some none)) (ts ++ us) rest good) :
    Takes (attempt nested.item? >>= f) (ts ++ us) rest good := by
  have hnone : Takes nested.item? [] (ts ++ us ++ rest) (· = none) := by
    refine .dispatch ?_
    rw [List.nil_append, List.append_assoc, first_append h.ne_end]
    rcases h with h | h
    · rw [h]
      exact .pure rfl
    · cases hterminal : first ts with
      | keyword k =>
        rw [hterminal] at h
        simp only [startsExpr, decide_eq_true_eq, List.mem_cons, List.not_mem_nil, or_false] at h
        rcases h with rfl | rfl | rfl | rfl <;> exact .pure rfl
      | _ => exact .pure rfl
  refine .silent hnone.attempt ?_
  rintro _ ⟨_, rfl, rfl⟩
  exact hf

/-- What is done in a block where no `;` and no brace comes next. -/
def entry (nested : Nested) (bound : Nat) : Parser (List Entry) := do
  let before ← remaining
  match ← attempt nested.item? with
  | some (some i) => return .item i :: (← nested.entries bound)
  | none => do
      recoverStatement before
      nested.entries bound
  | some none =>
      match ← attempt nested.statement with
      | some s => return .stmt s :: (← nested.entries bound)
      | none => do
          recoverStatement before
          nested.entries bound

theorem entries_takes {nested : Nested} {bound : Nat} {ts rest : List Token} {good : List Entry → Prop}
    (hbrace : first (ts ++ rest) ≠ .punct .rbrace) (hend : first (ts ++ rest) ≠ .endOfInput)
    (hsemi : first (ts ++ rest) ≠ .punct .semi) (h : Takes (entry nested bound) ts rest good) :
    Takes (nested.entries (bound + 1)) ts rest good := by
  refine .dispatch ?_
  split
  · exact absurd ‹_› hbrace
  · exact absurd ‹_› hend
  · exact absurd ‹_› hsemi
  · exact h

theorem entriesNil_run : EntriesRun [] [] where
  starts := by simp [first]
  takes n bound rest _ hbound hrest := by
    obtain ⟨bound, rfl⟩ := Nat.exists_eq_succ_of_ne_zero (Nat.ne_zero_of_lt hbound)
    refine .dispatch ?_
    rw [List.nil_append, hrest]
    exact .pure rfl

theorem entriesSemi_run {t : Token} {es : List Entry} {ts : List Token} (ht : t.terminal = .punct .semi)
    (h : EntriesRun es ts) : EntriesRun es (t :: ts) where
  starts := by simp [ht]
  takes n bound rest hn hbound hrest := by
    obtain ⟨bound, rfl⟩ := Nat.exists_eq_succ_of_ne_zero (Nat.ne_zero_of_lt hbound)
    rw [List.length_cons] at hn hbound
    refine .dispatch ?_
    rw [List.cons_append, first_cons, ht]
    refine .token (.advance (ht ▸ Terminal.noConfusion)) fun _ _ => ?_
    exact h.takes n bound rest (by omega) (by omega) hrest

theorem entriesItem_run {i : Item} {es : List Entry} {ts us : List Token} (h : ItemRun i ts)
    (hs : EntriesRun es us) : EntriesRun (.item i :: es) (ts ++ us) where
  starts := by
    rw [first_append h.ne_end]
    rcases h.starts with hfirst | hfirst <;> simp [hfirst]
  takes n bound rest hn hbound hrest := by
    obtain ⟨bound, rfl⟩ := Nat.exists_eq_succ_of_ne_zero (Nat.ne_zero_of_lt hbound)
    rw [List.length_append] at hn hbound
    have hpos := length_pos_of_first h.ne_end
    have hfirst : first (ts ++ us ++ rest) = first ts := by rw [List.append_assoc, first_append h.ne_end]
    have hmarks : first ts ≠ .punct .rbrace ∧ first ts ≠ .punct .semi := by
      rcases h.starts with hstart | hstart <;> simp [hstart]
    refine entries_takes (hfirst ▸ hmarks.1) (hfirst ▸ h.ne_end) (hfirst ▸ hmarks.2) ?_
    refine .remaining fun before _ => (h.takes n _ (by omega)).attempt.bind ?_
    rintro _ ⟨found, rfl, hfound⟩
    obtain ⟨i', rfl, hi⟩ := Option.map_eq_some_iff.mp hfound
    refine (hs.takes n bound rest (by omega) (by omega) hrest).last fun es' hes => .pure ?_
    rw [List.map_cons, List.map_cons, hes]
    exact congrArg (Entry.item · :: _) hi

/-- Behind a statement comes what may follow it. -/
theorem endsAt_of_before {s : Stmt} {us rest : List Token} (h : s.EndsBefore us)
    (hrest : first rest = .punct .rbrace) : s.EndsAt (first (us ++ rest)) := by
  match s, h with
  | .bind .., _ => trivial
  | .expr _ _ true, _ => trivial
  | .expr _ e false, ⟨hsemi, hblock⟩ =>
    cases us with
    | nil => exact ⟨by simp [hrest], fun _ => hrest⟩
    | cons u us => exact ⟨fun h => hsemi (congrArg some h), fun h => absurd (hblock h) (List.cons_ne_nil _ _)⟩

theorem entriesStmt_run {s : Stmt} {es : List Entry} {ts us : List Token} (h : StmtRun s ts)
    (hends : Stmt.EndsBefore us s) (hs : EntriesRun es us) : EntriesRun (.stmt s :: es) (ts ++ us) where
  starts := by
    rw [first_append h.starts.ne_end]
    exact h.starts.ne (by simp) rfl
  takes n bound rest hn hbound hrest := by
    obtain ⟨bound, rfl⟩ := Nat.exists_eq_succ_of_ne_zero (Nat.ne_zero_of_lt hbound)
    rw [List.length_append] at hn hbound
    have hpos := length_pos_of_first h.starts.ne_end
    have hfirst : first (ts ++ us ++ rest) = first ts := by
      rw [List.append_assoc, first_append h.starts.ne_end]
    have helse : first (us ++ rest) ≠ .keyword .else := by
      cases us with
      | nil => simp [hrest]
      | cons u us => exact hs.starts
    refine entries_takes (hfirst ▸ h.starts.ne (by simp) rfl) (hfirst ▸ h.starts.ne_end)
      (hfirst ▸ h.starts.ne (by simp) rfl) ?_
    refine .remaining fun before _ => item?_takes_none h.starts ?_
    refine (h.takes n _ (by omega) (endsAt_of_before hends hrest) helse).attempt.bind ?_
    rintro _ ⟨s', rfl, hs'⟩
    refine (hs.takes n bound rest (by omega) (by omega) hrest).last fun es' hes => .pure ?_
    rw [List.map_cons, List.map_cons, hes]
    exact congrArg (Entry.stmt · :: _) hs'

/-- Blocks of the same entries, of which the last token is a `;` or not, are the same. -/
theorem relabel_blockOf {id id' : NodeId} {span span' : Span} {es es' : List Entry} {ts : List Token}
    (h : es'.map (Entry.relabel .bare) = es.map (Entry.relabel .bare)) :
    (blockOf id' span' es' ts).relabel .bare = (blockOf id span es ts).relabel .bare := by
  have htail : ∀ b, (Nested.tail? es' b).map (Expr.relabel .bare) =
      (Nested.tail? es b).map (Expr.relabel .bare) := by
    intro b
    rw [← Nested.tail?_relabel, h, Nested.tail?_relabel]
  have hsome : ∀ b, (Nested.tail? es' b).isSome = (Nested.tail? es b).isSome := by
    intro b
    rw [← Option.isSome_map (f := Expr.relabel .bare), htail, Option.isSome_map]
  have hitems : (es'.filterMap Entry.item?).map (Item.relabel .bare) =
      (es.filterMap Entry.item?).map (Item.relabel .bare) := by
    rw [← Nested.entries_items_relabel, h, Nested.entries_items_relabel]
  have hstmts : (es'.filterMap Entry.stmt?).map (Stmt.relabel .bare) =
      (es.filterMap Entry.stmt?).map (Stmt.relabel .bare) := by
    rw [← Nested.entries_stmts_relabel, h, Nested.entries_stmts_relabel]
  simp only [blockOf, Block.relabel_mk, htail, hsome, hitems, apply_ite (List.map (Stmt.relabel .bare)),
    List.map_dropLast, hstmts]
  rfl

theorem braced_run {l r : Token} {id : NodeId} {span : Span} {es : List Entry} {ts : List Token}
    (hl : l.terminal = .punct .lbrace) (h : EntriesRun es ts) (hr : r.terminal = .punct .rbrace) :
    BlockRun (blockOf id span es (l :: ts)) (l :: (ts ++ [r])) where
  starts := hl
  takes n rest hn := by
    simp only [List.length_cons, List.length_append, List.length_nil] at hn
    -- the last token before the brace tells whether the last entry is the tail
    let content : Parser (List Entry × Bool) := do
      expect .lbrace
      let es ← (level n).entries ((← remaining) + 1)
      return (es, (← get).last.map Token.terminal = some (.punct .semi))
    have hcontent : Takes content (l :: ts) (r :: rest) fun found =>
        found.1.map (Entry.relabel .bare) = es.map (Entry.relabel .bare) ∧
          found.2 = decide ((l :: ts).getLast?.map Token.terminal = some (.punct .semi)) := by
      have hentries : Takes (do expect .lbrace; (level n).entries ((← remaining) + 1)) (l :: ts) (r :: rest)
          fun es' => es'.map (Entry.relabel .bare) = es.map (Entry.relabel .bare) :=
        .token (.expect hl) fun _ _ => .remaining fun m hm => h.takes n (m + 1) _ (by omega) (by omega) hr
      intro s hs
      obtain ⟨es', s', hrun, hpass, hproblems, hes⟩ := hentries s hs
      refine ⟨(es', s'.last.map Token.terminal = some (.punct .semi)), s', ?_, hpass, hproblems, hes, ?_⟩
      · have hcontent : content = (do expect .lbrace; (level n).entries ((← remaining) + 1)) >>= fun es =>
            get >>= fun s => pure (es, decide (s.last.map Token.terminal = some (.punct .semi))) := by
          simp only [content, bind_assoc]
        rw [hcontent]
        simp only [Bind.bind, EStateM.bind] at hrun ⊢
        rw [hrun]
        rfl
      · rw [hpass.last, List.getLast?_cons]
        rfl
    have hbraced : (level n).braced = Parse.span >>= fun start : Span => freshId >>= fun id => content >>= fun found =>
        expect .rbrace >>= fun _ => lastSpan >>= fun place =>
          pure (.mk id (start.join place) (found.1.filterMap Entry.item?)
            (if (Nested.tail? found.1 found.2).isSome then (found.1.filterMap Entry.stmt?).dropLast
              else found.1.filterMap Entry.stmt?) (Nested.tail? found.1 found.2)) := by
      simp only [content, Nested.braced, bind_assoc, pure_bind]
    rw [hbraced]
    refine .silent .span fun start _ => .silent .freshId fun id' _ => ?_
    rw [show l :: (ts ++ [r]) = l :: ts ++ [r] from rfl]
    refine hcontent.bind ?_
    rintro ⟨es', semi⟩ ⟨hes, rfl⟩
    refine (Takes.expect hr).last fun _ _ => .silent .lastSpan fun place _ => .pure ?_
    exact relabel_blockOf hes

/-! ## All phrases -/

/-- The tokens are taken for the phrase. -/
def Taken : Phrase → List Token → Prop
  | .expr e, ts => ExprRun e ts
  | .args es, ts => ∃ last, Commas ExprRun false (es, last) ts
  | .cond c, ts => CondRun c ts
  | .block b, ts => BlockRun b ts
  | .entries es, ts => EntriesRun es ts
  | .stmt s, ts => StmtRun s ts
  | .item i, ts => ItemRun i ts

theorem Spells.taken {located : Prop} {phrase : Phrase} {ts : List Token} (h : Spells located phrase ts) :
    Taken phrase ts := by
  induction h with
  | literal h => exact literal_run h
  | path h => exact path_run h
  | grouped hl _ hr _ ih => exact grouped_run hl ih hr
  | unary ht _ he _ ih => exact unary_run ht ih he
  | binary _ ht _ hclosed hpower _ ihl ihr => exact binary_run ihl ht ihr hclosed hpower
  | call hn hl _ hr _ ih =>
    obtain ⟨_, hargs⟩ := ih
    exact call_run hn hl hargs hr
  | retNone h => exact retNone_run h
  | retSome ht _ _ ih => exact retSome_run ht ih
  | block _ _ ih => exact block_run ih
  | loop ht _ _ ih => exact loop_run ht ih
  | «while» ht _ hopens _ _ ihc ihb => exact while_run ht ihc hopens ihb
  | cond _ _ ih => exact cond_run ih
  | argsNil => exact ⟨false, .nil⟩
  | argsLast _ ih => exact ⟨false, .last ih⟩
  | argsCons _ hc _ ih ihs =>
    obtain ⟨_, hargs⟩ := ihs
    obtain ⟨last, hargs⟩ := hargs.flag true
    exact ⟨last, .cons ih hc hargs⟩
  | only ht _ hopens _ ihc ihy => exact only_run ht ihc hopens ihy
  | orElse ht _ hopens _ he _ ihc ihy ihn => exact orElse_run ht ihc hopens ihy he ihn
  | orIf ht _ hopens _ he _ ihc ihy ihn => exact orIf_run ht ihc hopens ihy he ihn
  | braced hl _ hr ih => exact braced_run hl ih hr
  | entriesNil => exact entriesNil_run
  | entriesSemi ht _ ih => exact entriesSemi_run ht ih
  | entriesItem _ _ ih ihs => exact entriesItem_run ih ihs
  | entriesStmt _ hends _ ih ihs => exact entriesStmt_run ih hends ihs
  | bind ht hmut hn htype hq _ hsemi ih => exact bind_run ht hmut hn htype hq ih hsemi
  | exprStmt _ hstart ih => exact exprStmt_run ih hstart
  | semiStmt _ hstart hsemi ih => exact semiStmt_run ih hstart hsemi
  | function hh _ ih => exact function_run hh ih
  | «foreign» ht habi hl h hr => exact foreign_run ht habi hl h hr

/-- What takes all tokens but the end of input parses them. -/
theorem Takes.run_eq {α : Type} {p : Parser α} {ts rest : List Token} {good : α → Prop}
    (h : Takes p ts rest good) : ∃ a, run p (ts ++ rest) = ⟨.ok a, []⟩ ∧ good a := by
  obtain ⟨a, s, hrun, -, hproblems, ha⟩ := h { rest := ts ++ rest } rfl
  refine ⟨a, ?_, ha⟩
  rw [run, hrun]
  simp only [hproblems, List.reverse_nil]

/-- An expression by itself is parsed. -/
theorem expression_of_spells {located : Prop} {e : Expr} {ts : List Token} {t : Token}
    (h : Spells located (.expr e) ts) (ht : t.terminal = .endOfInput) :
    ∃ e', run expression (ts ++ [t]) = ⟨.ok e', []⟩ ∧ e'.relabel .bare = e.relabel .bare := by
  have hrun : ExprRun e ts := h.taken
  refine Takes.run_eq (.remaining fun n hn => ?_)
  refine (hrun.expr (by omega) (by simp [Closing]) (by simp) (by simp [ht, stops])).last fun e' he => ?_
  refine .silent .isAtEnd fun ended hended => ?_
  rw [if_pos (by simp [hended, ht])]
  exact .pure he

theorem items_takes {located : Prop} {is : List Item} {ts : List Token} (h : ItemsSpelled located is ts)
    {n bound : Nat} (hn : 2 * ts.length ≤ n) (hbound : ts.length < bound) {rest : List Token}
    (hrest : first rest = .endOfInput) : Takes (items (level n) bound) ts rest fun is' =>
      is'.map (Item.relabel .bare) = is.map (Item.relabel .bare) := by
  induction h generalizing bound with
  | nil =>
    obtain ⟨bound, rfl⟩ := Nat.exists_eq_succ_of_ne_zero (Nat.ne_zero_of_lt hbound)
    refine .silent .isAtEnd fun ended hended => ?_
    rw [if_pos (by simp [hended, hrest])]
    exact .pure rfl
  | @cons i is ts us h _ ih =>
    have hi : ItemRun i ts := h.taken
    obtain ⟨bound, rfl⟩ := Nat.exists_eq_succ_of_ne_zero (Nat.ne_zero_of_lt hbound)
    rw [List.length_append] at hn hbound
    have hpos := length_pos_of_first hi.ne_end
    refine .silent .isAtEnd fun ended hended => ?_
    rw [List.append_assoc, first_append hi.ne_end] at hended
    rw [if_neg (by simp [hended, hi.ne_end])]
    refine .remaining fun before _ => (hi.takes n _ (by omega)).attempt.bind ?_
    rintro _ ⟨found, rfl, hfound⟩
    obtain ⟨i', rfl, hi'⟩ := Option.map_eq_some_iff.mp hfound
    refine (ih (by omega) (by omega)).last fun is' his => .pure ?_
    rw [List.map_cons, List.map_cons, his, hi']

/-- The items of a program are parsed. -/
theorem program_of_spells {located : Prop} {is : List Item} {ts : List Token} {t : Token}
    (h : ItemsSpelled located is ts) (ht : t.terminal = .endOfInput) :
    ∃ p, run program (ts ++ [t]) = ⟨.ok p, []⟩ ∧
      p.items.map (Item.relabel .bare) = is.map (Item.relabel .bare) := by
  refine Takes.run_eq (.silent .span fun start _ => .remaining fun n hn => ?_)
  refine (items_takes h (by omega) (by omega) (by exact ht)).last fun is' his => ?_
  exact .silent .span fun stop _ => .pure his

end Ferrite.Parse
