import Ferrite.Proofs.Parse.Forward
import Ferrite.Proofs.Parse.Inside

/-!
Where the parser puts what it reports and what it builds. Every place is that of a token or one over several,
and the place of a part lies inside that of the whole; whatever mistakes were met on the way.
-/

namespace Ferrite.Parse

variable {ok : Span → Prop} {s t : State}

/-! ## Names, types and headers -/

/-- What holds of something that was read between two states, and so between two that are further apart. -/
def Lasting (ok : Span → Prop) {α : Type} (good : State → State → α → Prop) : Prop :=
  ∀ ⦃s t u v a⦄, good t u a → Advances ok s t → Advances ok u v → good s v a

theorem expectName_traces (hok : Places ok) :
    Traces ok expectName fun s t name => Crosses ok s t ∧ Named ok s t name := by
  intro s hs
  refine .read ?_
  split
  · rename_i text hname
    have hnext : Crosses ok s s.advance := hs.cross hok (by simp [hname])
    exact .read (.advance (.pure hnext.toAdvances ⟨hnext, hs.span, hnext.first⟩))
  · exact .failAt (.refl hs)

section

variable {α : Type} {element : Parser α} {good : State → State → α → Prop}

theorem commaList_traces (hok : Places ok) (hgood : Lasting ok good) (he : Traces ok element good) (bound : Nat)
    (comma : Bool) : Traces ok (commaList element bound comma) fun s t list => ∀ a ∈ list.1, good s t a := by
  induction bound generalizing comma with
  | zero => exact fun s hs => .exhausted (.refl hs)
  | succ bound ih =>
    intro s hs
    unfold commaList
    refine .read (.read (.ite (fun _ => .pure (.refl hs) (by simp)) fun _ => ?_))
    refine .call (.refl hs) he fun a t ht ha => .accept (fun _ => ?_) (.pure ht (by simpa using ha))
    have hnext := ht.sited.advance hok
    refine .call (ht.trans hnext) (ih true) fun list u hu hlist => .pure ((ht.trans hnext).trans hu) ?_
    refine List.forall_mem_cons.mpr ⟨hgood ha (.refl hs) (hnext.trans hu), fun b hb => ?_⟩
    exact hgood (hlist b hb) (ht.trans hnext) (.refl hu.sited)

theorem parenthesized_traces (hok : Places ok) (hgood : Lasting ok good) (he : Traces ok element good) :
    Traces ok (parenthesized element) fun s t list => Crosses ok s t ∧ ∀ a ∈ list.1, good s t a := by
  intro s hs
  unfold parenthesized
  refine .expect (.refl hs) fun hopen => .read ?_
  have hnext : Crosses ok s s.advance := hs.cross hok (by simp [hopen])
  refine .call hnext.toAdvances (commaList_traces hok hgood he _ _) fun list t ht hlist => ?_
  refine .expect (hnext.toAdvances.trans ht) fun _ => ?_
  have hend := ht.sited.advance hok
  refine .pure ((hnext.trans ht).trans hend).toAdvances ⟨(hnext.trans ht).trans hend, fun a ha => ?_⟩
  exact hgood (hlist a ha) hnext.toAdvances hend

end

theorem resultOf_traces (hok : Places ok) {type : Parser Ty} (ht : Traces ok type fun _ _ _ => True) :
    Traces ok (resultOf type) fun _ _ _ => True := by
  intro s hs
  unfold resultOf
  exact .accept (fun _ => .tail (hs.advance hok) ht fun _ _ _ _ => trivial) (.pure (.refl hs) trivial)

theorem typeWithin_traces (hok : Places ok) (bound : Nat) : Traces ok (typeWithin bound) fun _ _ _ => True := by
  induction bound with
  | zero => exact fun s hs => .exhausted (.refl hs)
  | succ bound ih =>
    have hlist := parenthesized_traces hok (fun _ _ _ _ _ _ _ _ => trivial) ih
    intro s hs
    have hnext := hs.advance hok
    unfold typeWithin
    refine .read (.read ?_)
    split
    · refine .advance ?_
      split
      · exact .pure hnext trivial
      · exact .report (.pure (hnext.report hs.span) trivial)
    · exact .advance (.pure hnext trivial)
    · exact .call (.refl hs) hlist fun _ _ ht _ => .pure ht trivial
    · refine .advance (.call hnext hlist fun _ _ ht _ => ?_)
      exact .call (hnext.trans ht) (resultOf_traces hok ih) fun _ _ hu _ => .pure ((hnext.trans ht).trans hu) trivial
    · exact .unsupported (.refl hs) hs.span
    · exact .unsupported (.refl hs) hs.span
    · exact .failAt (.refl hs)

theorem type_traces (hok : Places ok) : Traces ok type fun _ _ _ => True :=
  fun s hs => .read (typeWithin_traces hok _ s hs)

theorem param_traces (hok : Places ok) : Traces ok param fun s t p => Named ok s t p.1 := by
  intro s hs
  have hrest (t : State) (ht : Advances ok s t) : Tracks ok s t
      (do
        let name ← expectName
        expect .colon
        return (name, ← type)) fun p u => Named ok s u p.1 := by
    refine .call ht (expectName_traces hok) fun name u hu hname => .expect (ht.trans hu) fun _ => ?_
    have hnext := hu.sited.advance hok
    refine .call ((ht.trans hu).trans hnext) (type_traces hok) fun _ v hv _ => ?_
    exact .pure (((ht.trans hu).trans hnext).trans hv) (hname.2.wider ht (hnext.trans hv))
  unfold param
  exact .acceptKeyword (fun _ => hrest _ (hs.advance hok)) (hrest s (.refl hs))

theorem header_traces (hok : Places ok) (start : Span) : Traces ok (header start) fun s t h =>
    Crosses ok s t ∧ ∀ name ∈ h.name :: h.params, Named ok s t name := by
  intro s hs
  unfold header
  refine .fresh (.advance ?_)
  have hnext : Advances ok s (State.advance { s with nextId := s.nextId + 1 }) := (Advances.refl hs).fresh.advance hok
  refine .call hnext (expectName_traces hok) fun name t ht hname => ?_
  have ht' := hnext.trans ht
  have hlist := parenthesized_traces hok (fun _ _ _ _ _ h => h.wider) (param_traces hok)
  refine .call ht' hlist fun params u hu hparams => ?_
  refine .call (ht'.trans hu) (resultOf_traces hok (type_traces hok)) fun result v hv _ => .read (.pure ?_ ⟨?_, ?_⟩)
  · exact (ht'.trans hu).trans hv
  · exact ((hnext.crosses hname.1).trans hu).trans hv
  · refine List.forall_mem_cons.mpr ⟨hname.2.wider hnext (hu.trans hv), fun param hparam => ?_⟩
    obtain ⟨p, hp, rfl⟩ := List.mem_map.mp hparam
    exact (hparams.2 p hp).wider ht' hv

/-- A function that is placed from its first token to the one passed last. -/
theorem Crosses.header (h : Crosses ok s t) (hok : Places ok) (hs : Sited ok s) {f : Header}
    (hspan : f.span = s.span.join t.lastSpan) (hnames : ∀ name ∈ f.name :: f.params, Named ok s t name) :
    f.Sits ok ∧ Between s t f.span := by
  rw [hspan]
  refine ⟨⟨hspan ▸ hok.join _ _ hs.span h.sited.lastSpan, fun name hname => ?_⟩, h.first.join h.last⟩
  rw [hspan]
  exact ⟨(hnames name hname).place, (hnames name hname).between.within⟩

theorem declaration_traces (hok : Places ok) :
    Traces ok declaration fun s t f => f.Sits ok ∧ Between s t f.span := by
  intro s hs
  unfold declaration
  refine .read (.call (.refl hs) (header_traces hok _) fun f t ht hf => .expect ht fun _ => .read ?_)
  have hnext := ht.sited.advance hok
  have hu : Crosses ok s t.advance := hf.1.trans hnext
  exact .pure hu.toAdvances (hu.header hok hs rfl fun name hname => (hf.2 name hname).wider (.refl hs) hnext)

/-! ## Expressions -/

/-- Parsers for what is nested that put trees where they were read. -/
structure Nested.Traces (ok : Span → Prop) (nested : Nested) : Prop where
  block : Parse.Traces ok nested.block fun s t b => Stands ok s t (.block b)
  operand : ∀ marks power, Parse.Traces ok (nested.operand marks power) fun s t e => Stands ok s t (.expr e)
  cond : Parse.Traces ok nested.cond fun s t c => Crosses ok s t ∧ ∀ m ∈ c.parts, Lies ok s t m

/-- An expression that is numbered and ends with the token passed last. -/
theorem closed_tracks (make : NodeId → Span → Expr) (hok : Places ok) (hs : Sited ok s) (h : Crosses ok s t)
    (hspan : ∀ id place, (make id place).span = place)
    (hnames : ∀ id place, ∀ name ∈ (Node.expr (make id place)).names, Named ok s t name)
    (hparts : ∀ id place, ∀ m ∈ (Node.expr (make id place)).parts, Lies ok s t m) :
    Tracks ok s t (do let id ← freshId; return make id (s.span.join (← lastSpan)))
      fun e u => Stands ok s u (.expr e) := by
  have hnext : Advances ok t { t with nextId := t.nextId + 1 } := (Advances.refl h.sited).fresh
  refine .fresh (.read (.pure h.toAdvances.fresh ⟨h.fresh, ?_⟩))
  refine h.fresh.node hok hs (hspan _ _) (fun name hname => ?_) (by simp [Node.declared]) fun m hm => ?_
  · exact (hnames _ _ name hname).wider (.refl hs) hnext
  · exact (hparts _ _ m hm).wider (.refl hs) hnext

/-- An expression that is one token. -/
theorem leaf_tracks (make : NodeId → Span → Expr) (hok : Places ok) (hs : Sited ok s)
    (hend : s.terminal ≠ .endOfInput) (hspan : ∀ id place, (make id place).span = place)
    (hnames : ∀ id place, ∀ name ∈ (Node.expr (make id place)).names, Named ok s s.advance name)
    (hparts : ∀ id place, (Node.expr (make id place)).parts = []) :
    Tracks ok s s.advance (do return make (← freshId) s.span) fun e t => Stands ok s t (.expr e) := by
  have hnext : Crosses ok s s.advance := hs.cross hok hend
  have hplace : s.span = s.span.join s.advance.lastSpan := by rw [State.lastSpan_advance hend, Span.join_self]
  refine .fresh (.pure hnext.toAdvances.fresh ⟨hnext.fresh, hnext.fresh.node hok hs ?_ (fun name hname => ?_) ?_ ?_⟩)
  · exact (hspan _ _).trans hplace
  · exact (hnames _ _ name hname).wider (.refl hs) (Advances.refl hnext.sited).fresh
  · simp [Node.declared]
  · simp [hparts]

variable {nested : Nested}

namespace Nested

theorem operand_lies (hn : nested.Traces ok) (marks : List Punct) (power : Nat) :
    Parse.Traces ok (nested.operand marks power) fun s t e => Lies ok s t (.expr e) :=
  (hn.operand marks power).mono fun _ _ _ h => h.toLies

/-- The operators and right operands behind a left operand. -/
theorem operators_tracks (hok : Places ok) (hn : nested.Traces ok) (marks : List Punct) (power bound : Nat)
    {lhs : Expr} (hs : Sited ok s) (h : Stands ok s t (.expr lhs)) :
    Tracks ok s t (nested.operators marks power bound lhs) fun e u => Stands ok s u (.expr e) := by
  induction bound generalizing t lhs with
  | zero => exact .exhausted h.toAdvances
  | succ bound ih =>
    unfold operators
    refine .read (.ite (fun _ => .pure h.toAdvances h) fun _ => ?_)
    split
    · exact .failAt h.toAdvances
    · exact .failAt h.toAdvances
    · exact .read (.unsupported h.toAdvances h.sited.span)
    split
    · exact .pure h.toAdvances h
    rename_i op _
    refine .ite (fun _ => .pure h.toAdvances h) fun _ => .advance ?_
    have hnext := h.sited.advance hok
    refine .call (h.toAdvances.trans hnext) (hn.operand _ _) fun rhs u hu hrhs => .fresh (ih ?_)
    have hid : Advances ok u { u with nextId := u.nextId + 1 } := (Advances.refl hu.sited).fresh
    -- the place is over both operands and not from token to token, but the operands reach as far
    have hleft := h.between.wider (.refl hs) ((hnext.trans hu).trans hid)
    have hright := hrhs.between.wider (h.toAdvances.trans hnext) hid
    have hplace := hok.join _ _ h.ok_span hrhs.ok_span
    refine ⟨h.toCrosses.trans ((hnext.trans hu).trans hid), .of_parts hplace (hleft.join hright) rfl rfl ?_⟩
    simpa [Node.parts] using
      ⟨⟨Span.within_join_left .., h.sits⟩, Span.within_join_right .., hrhs.sits⟩

theorem call_tracks (hok : Places ok) (hn : nested.Traces ok) {callee : Ident} (hs : Sited ok s) (h : Crosses ok s t)
    (hcallee : Named ok s t callee) :
    Tracks ok s t (nested.call s.span callee) fun e u => Stands ok s u (.expr e) := by
  unfold call
  refine .call h.toAdvances (parenthesized_traces hok (fun _ _ _ _ _ h => h.wider) (operand_lies hn _ _))
    fun args u hu hargs => ?_
  refine closed_tracks (fun id place => .call id place callee args.1) hok hs (h.trans hu) (fun _ _ => rfl) ?_ ?_
  · simpa [Node.names] using hcallee.wider (.refl hs) hu
  · intro id place m hm
    obtain ⟨arg, harg, rfl⟩ := List.mem_map.mp hm
    exact (hargs.2 arg harg).wider h.toAdvances (.refl hu.sited)

theorem group_tracks (hok : Places ok) (hn : nested.Traces ok) (hs : Sited ok s) :
    Tracks ok s s (nested.group s.span) fun e t => Stands ok s t (.expr e) := by
  have hnext := hs.advance hok
  unfold group
  refine .advance (.read (.ite (fun _ => ?_) fun _ => ?_))
  · exact .read (.unsupported hnext (hok.join _ _ hs.span hnext.sited.span))
  refine .call hnext (hn.operand _ _) fun inner t ht hinner => .read (.ite (fun _ => ?_) fun _ => ?_)
  · exact .read (.unsupported (hnext.trans ht) (hok.join _ _ hs.span ht.sited.span))
  refine .expect (hnext.trans ht) fun _ => ?_
  have hend := ht.sited.advance hok
  refine closed_tracks (fun id place => .grouped id place inner) hok hs ((hnext.crosses hinner.toCrosses).trans hend)
    (fun _ _ => rfl) (by simp [Node.names]) ?_
  simpa [Node.parts] using hinner.toLies.wider hnext hend

theorem returning_tracks (hok : Places ok) (hn : nested.Traces ok) (marks : List Punct) (hs : Sited ok s)
    (hreturn : s.terminal = .keyword .return) :
    Tracks ok s s (nested.returning s.span marks) fun e t => Stands ok s t (.expr e) := by
  have hnext : Crosses ok s s.advance := hs.cross hok (by simp [hreturn])
  unfold returning
  refine .advance (.read (.ite (fun _ => ?_) fun _ => ?_))
  · exact closed_tracks (fun id place => .ret id place none) hok hs hnext (fun _ _ => rfl) (by simp [Node.names])
      (by simp [Node.parts])
  · rw [bind_map_left]
    refine .call hnext.toAdvances (operand_lies hn _ _) fun value t ht hvalue => ?_
    refine closed_tracks (fun id place => .ret id place (some value)) hok hs (hnext.trans ht) (fun _ _ => rfl)
      (by simp [Node.names]) ?_
    simpa [Node.parts] using hvalue.wider hnext.toAdvances (.refl ht.sited)

theorem blockLike_traces (hok : Places ok) (hn : nested.Traces ok) :
    Parse.Traces ok nested.blockLike fun s t e => Stands ok s t (.expr e) := by
  intro s hs
  have hnext := hs.advance hok
  unfold blockLike
  refine .read (.read ?_)
  split
  · refine .call (.refl hs) hn.block fun body t ht hbody => ?_
    refine closed_tracks (fun id place => .block id place body) hok hs hbody.toCrosses (fun _ _ => rfl)
      (by simp [Node.names]) ?_
    simpa [Node.parts] using hbody.toLies
  · refine .call (.refl hs) hn.cond fun branches t ht hbranches => ?_
    exact closed_tracks (fun id place => .cond id place branches) hok hs hbranches.1 (fun _ _ => rfl)
      (by simp [Node.names]) fun _ _ => hbranches.2
  · refine .advance (.call hnext hn.block fun body t ht hbody => ?_)
    refine closed_tracks (fun id place => .loop id place body) hok hs (hnext.crosses hbody.toCrosses) (fun _ _ => rfl)
      (by simp [Node.names]) ?_
    simpa [Node.parts] using hbody.toLies.wider hnext (.refl ht.sited)
  · refine .advance (.call hnext (hn.operand _ _) fun cond t ht hcond => ?_)
    refine .call (hnext.trans ht) hn.block fun body u hu hbody => ?_
    refine closed_tracks (fun id place => .while id place cond body) hok hs ((hnext.crosses hcond.toCrosses).trans hu)
      (fun _ _ => rfl) (by simp [Node.names]) ?_
    simpa [Node.parts] using
      ⟨hcond.toLies.wider hnext hu, hbody.toLies.wider (hnext.trans ht) (.refl hu.sited)⟩
  · exact .failAt (.refl hs)

theorem primary_traces (hok : Places ok) (hn : nested.Traces ok) (marks : List Punct) :
    Parse.Traces ok (nested.primary marks) fun s t e => Stands ok s t (.expr e) := by
  intro s hs
  unfold primary
  refine .read (.read (.ite (fun _ => .failAt (.refl hs)) fun _ => .ite (fun _ => ?_) fun _ => ?_))
  · exact blockLike_traces hok hn s hs
  split
  · rename_i value hvalue
    exact .advance (leaf_tracks (fun id place => .literal id place value) hok hs (by simp [hvalue]) (fun _ _ => rfl)
      (by simp [Node.names]) fun _ _ => rfl)
  · rename_i text hname
    have hend : s.terminal ≠ .endOfInput := by simp [hname]
    have hnext : Crosses ok s s.advance := hs.cross hok hend
    have hnamed : Named ok s s.advance ⟨text, s.span⟩ := ⟨hs.span, hnext.first⟩
    refine .advance (.read (.ite (fun _ => call_tracks hok hn hs hnext hnamed) fun _ => ?_))
    exact leaf_tracks (fun id place => .path id place ⟨text, s.span⟩) hok hs hend (fun _ _ => rfl)
      (by simpa [Node.names] using hnamed) fun _ _ => rfl
  · exact group_tracks hok hn hs
  · exact returning_tracks hok hn marks hs ‹_›
  · exact .unsupported (.refl hs) hs.span
  · exact .unsupported (.refl hs) hs.span
  · exact .unsupported (.refl hs) hs.span
  · exact .unsupported (.refl hs) hs.span
  · exact .failAt (.refl hs)

theorem unary_traces (hok : Places ok) (hn : nested.Traces ok) (marks : List Punct) :
    Parse.Traces ok (nested.unary marks) fun s t e => Stands ok s t (.expr e) := by
  intro s hs
  unfold unary
  refine .read ?_
  split
  · exact primary_traces hok hn marks s hs
  · have hnext := hs.advance hok
    refine .read (.advance (.call hnext (hn.operand _ _) fun operand t ht hoperand => .fresh (.pure ?_ ?_)))
    · exact (hnext.trans ht).fresh
    · have hid : Advances ok t { t with nextId := t.nextId + 1 } := (Advances.refl ht.sited).fresh
      have hall := (hnext.crosses hoperand.toCrosses).trans hid
      have hbetween := hall.first.join (hoperand.between.wider hnext hid)
      refine ⟨hall, .of_parts (hok.join _ _ hs.span hoperand.ok_span) hbetween rfl rfl ?_⟩
      simpa [Node.parts] using ⟨Span.within_join_right .., hoperand.sits⟩

theorem binary_traces (hok : Places ok) (hn : nested.Traces ok) (marks : List Punct) (power : Nat) :
    Parse.Traces ok (nested.binary marks power) fun s t e => Stands ok s t (.expr e) := by
  intro s hs
  unfold binary
  refine .call (.refl hs) (unary_traces hok hn marks) fun lhs t _ hlhs => .read ?_
  exact operators_tracks hok hn marks power _ hs hlhs

theorem conditions_traces (hok : Places ok) (hn : nested.Traces ok) :
    Parse.Traces ok nested.conditions fun s t c => Crosses ok s t ∧ ∀ m ∈ c.parts, Lies ok s t m := by
  intro s hs
  have hnext := hs.advance hok
  unfold conditions
  refine .advance (.call hnext (hn.operand _ _) fun cond t ht hcond => ?_)
  refine .call (hnext.trans ht) hn.block fun yes u hu hyes => ?_
  have hall : Crosses ok s u := (hnext.crosses hcond.toCrosses).trans hu
  -- up to any state behind the first block
  have hlies {v : State} (hv : Advances ok u v) :
      Lies ok s v (.expr cond) ∧ Lies ok s v (.block yes) :=
    ⟨hcond.toLies.wider hnext (hu.trans hv), hyes.toLies.wider (hnext.trans ht) hv⟩
  refine .acceptKeyword (fun _ => .read (.ite (fun _ => ?_) fun _ => ?_)) (.pure hall.toAdvances ⟨hall, ?_⟩)
  · have helse := hu.sited.advance hok
    refine .call (hall.toAdvances.trans helse) hn.cond fun no v hv hno => .pure ?_ ⟨hall.trans (helse.trans hv), ?_⟩
    · exact (hall.trans (helse.trans hv)).toAdvances
    · have hparts := hlies (helse.trans hv)
      simpa [Cond.parts] using ⟨hparts.1, hparts.2, fun m hm =>
        (hno.2 m hm).wider (hall.toAdvances.trans helse) (.refl hv.sited)⟩
  · have helse := hu.sited.advance hok
    refine .call (hall.toAdvances.trans helse) hn.block fun no v hv hno => .pure ?_ ⟨hall.trans (helse.trans hv), ?_⟩
    · exact (hall.trans (helse.trans hv)).toAdvances
    · have hparts := hlies (helse.trans hv)
      simpa [Cond.parts] using ⟨hparts.1, hparts.2, hno.toLies.wider (hall.toAdvances.trans helse) (.refl hv.sited)⟩
  · simpa [Cond.parts] using hlies (.refl hu.sited)

/-! ## Items, statements and blocks -/

theorem function_traces (hok : Places ok) (hn : nested.Traces ok) :
    Parse.Traces ok nested.function fun s t i => Stands ok s t (.item i) := by
  intro s hs
  unfold function
  refine .read (.call (.refl hs) (header_traces hok _) fun h t ht hh => ?_)
  refine .call ht hn.block fun body u hu hbody => .read ?_
  have hall : Crosses ok s u := hh.1.trans hu
  refine .pure hall.toAdvances ⟨hall, hall.node hok hs rfl (fun name hname => ?_) (by simp [Node.declared]) ?_⟩
  · exact (hh.2 name hname).wider (.refl hs) hu
  · simpa [Node.parts] using hbody.toLies.wider ht (.refl hu.sited)

end Nested

theorem declarations_traces (hok : Places ok) (bound : Nat) :
    Traces ok (declarations bound) fun s t fs => ∀ f ∈ fs, f.Sits ok ∧ Between s t f.span := by
  induction bound with
  | zero => exact fun s hs => .exhausted (.refl hs)
  | succ bound ih =>
    intro s hs
    unfold declarations
    refine .read ?_
    split
    · exact .pure (.refl hs) (by simp)
    · exact .pure (.refl hs) (by simp)
    · refine .read (.attempt (.refl hs) (declaration_traces hok) fun found t ht hfound => ?_)
      cases found with
      | some f =>
        have hf := hfound f rfl
        refine .call ht ih fun fs u hu hfs => .pure (ht.trans hu) (List.forall_mem_cons.mpr ⟨?_, fun g hg => ?_⟩)
        · exact ⟨hf.1, hf.2.wider (.refl hs) hu⟩
        · exact ⟨(hfs g hg).1, (hfs g hg).2.wider ht (.refl hu.sited)⟩
      | none =>
        refine .recoverStatement hok ht fun u hu => .tail hu ih fun fs v hv hfs f hf => ?_
        exact ⟨(hfs f hf).1, (hfs f hf).2.wider hu (.refl hv.sited)⟩
    · exact .failAt (.refl hs)

theorem foreign_traces (hok : Places ok) : Traces ok foreign fun s t i => Stands ok s t (.item i) := by
  intro s hs
  have hrest (abi : String) (t : State) (ht : Advances ok s t) : Tracks ok s t
      (do
        expect .lbrace
        let functions ← declarations ((← remaining) + 1)
        expect .rbrace
        return Item.foreign (s.span.join (← lastSpan)) abi functions)
      (fun i u => Stands ok s u (.item i)) := by
    refine .expect ht fun hopen => .read ?_
    have hnext : Crosses ok s t.advance := ht.pass hok (by simp [hopen])
    refine .call hnext.toAdvances (declarations_traces hok _) fun functions u hu hfunctions => ?_
    refine .expect (hnext.toAdvances.trans hu) fun _ => .read ?_
    have hend := hu.sited.advance hok
    have hall : Crosses ok s u.advance := (hnext.trans hu).trans hend
    refine .pure hall.toAdvances ⟨hall, hall.node hok hs rfl (by simp [Node.names]) (fun f hf => ?_) ?_⟩
    · exact ⟨(hfunctions f hf).1, (hfunctions f hf).2.wider hnext.toAdvances hend⟩
    · simp [Node.parts]
  have hnext := hs.advance hok
  unfold foreign
  refine .read (.advance (.read ?_))
  split
  · exact .advance (hrest _ _ (hnext.advance hok))
  · exact hrest "C" _ hnext

namespace Nested

theorem item?_traces (hok : Places ok) (hn : nested.Traces ok) :
    Parse.Traces ok nested.item? fun s t found => ∀ i, found = some i → Stands ok s t (.item i) := by
  intro s hs
  unfold item?
  refine .read ?_
  split
  · exact .map (.tail (.refl hs) (function_traces hok hn) fun i t _ hi j hj => Option.some.inj hj ▸ hi)
  · exact .map (.tail (.refl hs) (foreign_traces hok) fun i t _ hi j hj => Option.some.inj hj ▸ hi)
  · exact .read (.unsupported (.refl hs) hs.span)
  · exact .ite (fun _ => .read (.unsupported (.refl hs) hs.span)) fun _ => .pure (.refl hs) (by simp)
  · exact .pure (.refl hs) (by simp)

theorem binding_traces (hok : Places ok) (hn : nested.Traces ok) :
    Parse.Traces ok nested.binding fun s t st => Stands ok s t (.stmt st) := by
  intro s hs
  have hrest (id : NodeId) (name : Ident) (type : Option Ty) (t : State) (ht : Advances ok s t)
      (hname : Named ok s t name) : Tracks ok s t
      (do
        expect .eq
        let init ← nested.expr [.semi]
        expect .semi
        return Stmt.bind id (s.span.join (← lastSpan)) name type init)
      (fun st u => Stands ok s u (.stmt st)) := by
    refine .expect ht fun heq => ?_
    have hnext : Crosses ok t t.advance := ht.sited.cross hok (by simp [heq])
    refine .call (ht.trans hnext.toAdvances) (operand_lies hn _ _) fun init u hu hinit => ?_
    refine .expect ((ht.trans hnext.toAdvances).trans hu) fun _ => .read ?_
    have hend := hu.sited.advance hok
    have hall : Crosses ok s u.advance := ht.crosses ((hnext.trans hu).trans hend)
    refine .pure hall.toAdvances ⟨hall, hall.node hok hs rfl ?_ (by simp [Node.declared]) ?_⟩
    · simpa [Node.names] using hname.wider (.refl hs) ((hnext.trans hu).trans hend).toAdvances
    · simpa [Node.parts] using hinit.wider (ht.trans hnext.toAdvances) hend
  have declared : Parse.Traces ok (some <$> type) fun _ _ _ => True := fun t ht =>
    .map (.tail (.refl ht) (type_traces hok) fun _ _ _ _ => trivial)
  have hnamed (id : NodeId) (t : State) (ht : Advances ok s t) : Tracks ok s t
      (do
        let name ← expectName
        let type ← if ← accept .colon then some <$> type else pure none
        expect .eq
        let init ← nested.expr [.semi]
        expect .semi
        return Stmt.bind id (s.span.join (← lastSpan)) name type init)
      (fun st u => Stands ok s u (.stmt st)) := by
    refine .call ht (expectName_traces hok) fun name u hu hname => .accept (fun _ => ?_) ?_
    · have hcolon := hu.sited.advance hok
      refine .call ((ht.trans hu).trans hcolon) declared fun type v hv _ => ?_
      exact hrest id name type v (((ht.trans hu).trans hcolon).trans hv) (hname.2.wider ht (hcolon.trans hv))
    · exact hrest id name none u (ht.trans hu) (hname.2.wider ht (.refl hu.sited))
  have hnext : Advances ok s (State.advance { s with nextId := s.nextId + 1 }) := (Advances.refl hs).fresh.advance hok
  unfold binding
  exact .read (.fresh (.advance (.acceptKeyword (fun _ => hnamed _ _ (hnext.advance hok)) (hnamed _ _ hnext))))

theorem exprStatement_traces (hok : Places ok) (hn : nested.Traces ok) :
    Parse.Traces ok nested.exprStatement fun s t st => Stands ok s t (.stmt st) := by
  intro s hs
  have hrest (e : Expr) (t : State) (h : Stands ok s t (.expr e)) : Tracks ok s t
      (do
        let semi ← accept .semi
        if !semi && !e.endsInBlock && !(← isAt .rbrace) then failAt (.unexpected .statementEnd)
        else return .expr (s.span.join (← lastSpan)) e semi)
      (fun st u => Stands ok s u (.stmt st)) := by
    have hdone (semi : Bool) (u : State) (hu : Advances ok t u) : Tracks ok s u
        (do
          if !semi && !e.endsInBlock && !(← isAt .rbrace) then failAt (.unexpected .statementEnd)
          else return .expr (s.span.join (← lastSpan)) e semi)
        (fun st v => Stands ok s v (.stmt st)) := by
      have hall : Crosses ok s u := h.toCrosses.trans hu
      refine .read (.ite (fun _ => .failAt hall.toAdvances) fun _ => .read (.pure hall.toAdvances ⟨hall, ?_⟩))
      refine hall.node hok hs rfl (by simp [Node.names]) (by simp [Node.declared]) ?_
      simpa [Node.parts] using h.toLies.wider (.refl hs) hu
    exact .accept (fun _ => hdone true _ (h.sited.advance hok)) (hdone false t (.refl h.sited))
  unfold exprStatement
  refine .read (.read (.ite (fun _ => ?_) fun _ => ?_))
  · exact .call (.refl hs) (blockLike_traces hok hn) fun e t _ he => hrest e t he
  · exact .call (.refl hs) (hn.operand _ _) fun e t _ he => hrest e t he

theorem statement_traces (hok : Places ok) (hn : nested.Traces ok) :
    Parse.Traces ok nested.statement fun s t st => Stands ok s t (.stmt st) := by
  intro s hs
  unfold statement
  exact .read (.ite (fun _ => binding_traces hok hn s hs) fun _ => exprStatement_traces hok hn s hs)

end Nested

namespace Nested

theorem entries_traces (hok : Places ok) (hn : nested.Traces ok) (bound : Nat) :
    Parse.Traces ok (nested.entries bound) fun s t es => ∀ e ∈ es, Lies ok s t e.node := by
  induction bound with
  | zero => exact fun s hs => .exhausted (.refl hs)
  | succ bound ih =>
    intro s hs
    have hagain {t : State} (ht : Advances ok s t) :
        Tracks ok s t (nested.entries bound) fun es u => ∀ e ∈ es, Lies ok s u e.node :=
      .tail ht ih fun es u hu hes e he => (hes e he).wider ht (.refl hu.sited)
    -- behind an entry
    have hmore {t : State} (entry : Entry) (ht : Advances ok s t) (hentry : Lies ok s t entry.node) :
        Tracks ok s t (do return entry :: (← nested.entries bound)) fun es u => ∀ e ∈ es, Lies ok s u e.node := by
      refine .call ht ih fun es u hu hes => .pure (ht.trans hu) (List.forall_mem_cons.mpr ⟨?_, fun e he => ?_⟩)
      · exact hentry.wider (.refl hs) hu
      · exact (hes e he).wider ht (.refl hu.sited)
    unfold entries
    refine .read ?_
    split
    · exact .pure (.refl hs) (by simp)
    · exact .pure (.refl hs) (by simp)
    · exact .advance (hagain (hs.advance hok))
    · refine .read (.attempt (.refl hs) (item?_traces hok hn) fun found t ht hfound => ?_)
      rcases found with _ | _ | i
      · exact .recoverStatement hok ht fun u hu => hagain hu
      · refine .attempt ht (statement_traces hok hn) fun found u hu hfound => ?_
        cases found with
        | none => exact .recoverStatement hok (ht.trans hu) fun v hv => hagain hv
        | some st => exact hmore (.stmt st) (ht.trans hu) ((hfound st rfl).toLies.wider ht (.refl hu.sited))
      · exact hmore (.item i) ht (hfound _ rfl i rfl).toLies

theorem braced_traces (hok : Places ok) (hn : nested.Traces ok) :
    Parse.Traces ok nested.braced fun s t b => Stands ok s t (.block b) := by
  intro s hs
  unfold braced
  refine .read (.fresh (.expect (Advances.refl hs).fresh fun hopen => .read ?_))
  have hnext : Crosses ok s (State.advance { s with nextId := s.nextId + 1 }) :=
    (Advances.refl hs).fresh.pass hok (hopen ▸ Terminal.noConfusion)
  refine .call hnext.toAdvances (entries_traces hok hn _) fun es t ht hes => .get ?_
  refine .expect (hnext.toAdvances.trans ht) fun _ => .read ?_
  have hend := ht.sited.advance hok
  have hall : Crosses ok s t.advance := (hnext.trans ht).trans hend
  refine .pure hall.toAdvances ⟨hall, hall.node hok hs rfl (by simp [Node.names]) (by simp [Node.declared]) ?_⟩
  intro m hm
  obtain ⟨e, he, hm⟩ := part_of_entries hm
  have hentry := (hes e he).wider hnext.toAdvances hend
  rcases hm with rfl | hm
  · exact hentry
  · exact hentry.part hm

end Nested

theorem level_traces (hok : Places ok) (bound : Nat) : (level bound).Traces ok := by
  induction bound with
  | zero =>
    exact {
      block := fun s hs => .exhausted (.refl hs)
      operand := fun _ _ s hs => .exhausted (.refl hs)
      cond := fun s hs => .exhausted (.refl hs) }
  | succ bound ih =>
    exact {
      block := Nested.braced_traces hok ih
      operand := Nested.binary_traces hok ih
      cond := Nested.conditions_traces hok ih }

/-! ## Whole texts -/

theorem items_traces (hok : Places ok) (hn : nested.Traces ok) (bound : Nat) :
    Traces ok (items nested bound) fun s t is => ∀ i ∈ is, Lies ok s t (.item i) := by
  induction bound with
  | zero => exact fun s hs => .exhausted (.refl hs)
  | succ bound ih =>
    intro s hs
    have hagain {t : State} {before : Nat} (ht : Advances ok s t) : Tracks ok s t
        (do
          recoverItem before
          items nested bound)
        (fun is u => ∀ i ∈ is, Lies ok s u (.item i)) :=
      .recoverItem hok ht fun u hu => .tail hu ih fun is v hv his i hi => (his i hi).wider hu (.refl hv.sited)
    unfold items
    refine .read (.ite (fun _ => .pure (.refl hs) (by simp)) fun _ => .read ?_)
    refine .attempt (.refl hs) (Nested.item?_traces hok hn) fun found t ht hfound => ?_
    rcases found with _ | _ | i
    · exact hagain ht
    · exact .unexpected (hagain (ht.report ht.sited.span))
    · refine .call ht ih fun is u hu his => .pure (ht.trans hu) (List.forall_mem_cons.mpr ⟨?_, fun j hj => ?_⟩)
      · exact (hfound _ rfl i rfl).toLies.wider (.refl hs) hu
      · exact (his j hj).wider ht (.refl hu.sited)

theorem program_traces (hok : Places ok) : Traces ok program fun _ _ p =>
    ok p.span ∧ ∀ i ∈ p.items, i.span.Within p.span ∧ AllSit ok i.nodes := by
  intro s hs
  unfold program
  refine .read (.read (.call (.refl hs) (items_traces hok (level_traces hok _) _) fun is t ht his => .read ?_))
  refine .pure ht ⟨hok.join _ _ hs.span ht.sited.span, fun i hi => ⟨⟨?_, ?_⟩, (his i hi).sits⟩⟩
  · exact Nat.le_trans (Nat.min_le_left ..) (his i hi).between.start
  · -- the current token ends no earlier than the one passed last
    have hstop := Nat.le_trans (his i hi).between.stop (ht.sited.last_noLater hok).stop
    exact Nat.le_trans hstop (Nat.le_max_right ..)

theorem strayItems_traces {is : List Item} (his : ∀ i ∈ is, ok i.span) :
    Traces ok (is.forM fun i => report .strayItem i.span) fun _ _ _ => True := by
  induction is with
  | nil => exact fun s hs => .pure (.refl hs) trivial
  | cons i is ih =>
    rw [List.forall_mem_cons] at his
    exact fun s hs => .report (.tail ((Advances.refl hs).report his.1) (ih his.2) fun _ _ _ _ => trivial)

theorem statements_traces (hok : Places ok) (hn : nested.Traces ok) (bound : Nat) :
    Traces ok (statements nested bound) fun _ _ ss => AllSit ok (stmtNodes ss) := by
  induction bound with
  | zero => exact fun s hs => .exhausted (.refl hs)
  | succ bound ih =>
    intro s hs
    unfold statements
    refine .read (.call (.refl hs) (Nested.entries_traces hok hn _) fun es t ht hes => ?_)
    have hitems : ∀ i ∈ es.filterMap Entry.item?, ok i.span := fun i hi =>
      (hes _ (item_mem_entries hi)).ok_span
    have hstmts : AllSit ok (stmtNodes (es.filterMap Entry.stmt?)) := by
      rw [stmtNodes_eq, allSit_flatMap]
      exact fun st hst => (hes _ (stmt_mem_entries hst)).sits
    refine .call ht (strayItems_traces hitems) fun _ u hu _ => .read (.ite (fun _ => ?_) fun _ => ?_)
    · exact .pure (ht.trans hu) hstmts
    · have hnext : Advances ok s (State.advance
          { u with problems := ⟨.unexpected .statement u.terminal, u.span⟩ :: u.problems }) :=
        ((ht.trans hu).report hu.sited.span).advance hok
      refine .unexpected (.advance (.call hnext ih fun ss v hv hss => .pure (hnext.trans hv) ?_))
      simpa using ⟨hstmts, hss⟩

theorem statementList_traces (hok : Places ok) : Traces ok statementList fun _ _ ss => AllSit ok (stmtNodes ss) :=
  fun s hs => .read (statements_traces hok (level_traces hok _) _ s hs)

theorem expression_traces (hok : Places ok) : Traces ok expression fun _ _ e => AllSit ok e.nodes := by
  intro s hs
  unfold expression
  refine .read (.call (.refl hs) ((level_traces hok _).operand _ _) fun e t ht he => .read ?_)
  exact .ite (fun _ => .pure ht he.sits) fun _ => .failAt ht

/-- What a run over tokens reports, gives, and does not support. -/
theorem Traces.run {α : Type} {p : Parser α} {good : α → Prop} (h : Traces ok p fun _ _ a => good a)
    {tokens : List Token} (hs : Sited ok { rest := tokens }) :
    (∀ q ∈ (run p tokens).problems, ok q.span) ∧ (∀ a, (run p tokens).result = .ok a → good a) ∧
      ∀ construct place, (run p tokens).result = .error (.unsupported construct place) → ok place := by
  have hrun := h _ hs
  unfold Tracks Ends at hrun
  unfold Parse.run
  split
  · rename_i a s hp
    rw [hp] at hrun
    refine ⟨fun q hq => hrun.1.sited.problems q (List.mem_reverse.mp hq), ?_, by simp⟩
    rintro b ⟨⟩
    exact hrun.2
  · rename_i e s hp
    rw [hp] at hrun
    refine ⟨fun q hq => hrun.1.sited.problems q (List.mem_reverse.mp hq), by simp, ?_⟩
    rintro construct place ⟨⟩
    exact hrun.2 construct place rfl

end Ferrite.Parse
