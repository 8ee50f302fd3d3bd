import Ferrite.Proofs.Parse.Inside
import Ferrite.Proofs.Parse.Sound
import Ferrite.Proofs.Parse.Whole

/-!
The grammar of operators by the powers of neighbours alone. A tree keeps to it if each operand that
is itself an operator without parentheses is held tightly enough from both sides; these trees are the
ones that are parsed, each from its own tokens.
-/

namespace Ferrite

/-- The mark that stands for the operator. -/
def UnaryOp.punct : UnaryOp → Punct
  | neg => .minus
  | not => .not

theorem UnaryOp.ofTerminal?_eq_some_iff (t : Terminal) (op : UnaryOp) :
    ofTerminal? t = some op ↔ t = .punct op.punct := by
  cases t with
  | punct p => cases p <;> cases op <;> simp [ofTerminal?, UnaryOp.punct]
  | _ => simp [ofTerminal?]

namespace BinaryOp

theorem three_le_leftPower (op : BinaryOp) : 3 ≤ op.leftPower := by cases op <;> decide

theorem leftPower_lt_unary (op : BinaryOp) (unary : UnaryOp) : op.leftPower < unary.power := by
  cases op <;> simp [leftPower, UnaryOp.power]

theorem rightPower_eq (op : BinaryOp) :
    op.rightPower = op.leftPower + 1 ∨ op.leftPower = 3 ∧ op.rightPower = 2 := by
  cases op <;> decide

/-- What holds its right operand holds the operand of that one too. -/
theorem lt_rightPower {op outer inner : BinaryOp} (houter : op.leftPower < outer.rightPower)
    (hinner : outer.rightPower ≤ inner.leftPower) : op.leftPower < inner.rightPower := by
  have hop := op.three_le_leftPower
  rcases inner.rightPower_eq with hright | ⟨hleft, -⟩
  · omega
  · -- an assignment on the right belongs to an assignment, and nothing before that one does
    rcases outer.rightPower_eq with hright | ⟨-, hright⟩
    · have := outer.three_le_leftPower
      omega
    · omega

end BinaryOp

namespace Expr

/-- The operator of two operands that is outside all parentheses and applied last. -/
def topOp? : Expr → Option BinaryOp
  | .binary _ _ op _ _ => some op
  | _ => none

/-- Trees of operators, calls and parentheses in which each operator holds its operands against the
operators that they are made of. -/
inductive WellBracketed : Expr → Prop
  | literal {id : NodeId} {span : Span} {value : Literal} : WellBracketed (.literal id span value)
  | path {id : NodeId} {span : Span} {name : Ident} : WellBracketed (.path id span name)
  | grouped {id : NodeId} {span : Span} {inner : Expr} (h : WellBracketed inner) :
      WellBracketed (.grouped id span inner)
  | call {id : NodeId} {span : Span} {callee : Ident} {args : List Expr}
      (h : ∀ a ∈ args, WellBracketed a) : WellBracketed (.call id span callee args)
  | unary {id : NodeId} {span : Span} {op : UnaryOp} {operand : Expr} (h : WellBracketed operand)
      (htop : operand.topOp? = none) : WellBracketed (.unary id span op operand)
  | binary {id : NodeId} {span : Span} {op : BinaryOp} {lhs rhs : Expr} (hlhs : WellBracketed lhs)
      (hrhs : WellBracketed rhs) (hleft : ∀ inner ∈ lhs.topOp?, op.leftPower < inner.rightPower)
      (hright : ∀ inner ∈ rhs.topOp?, op.rightPower ≤ inner.leftPower) :
      WellBracketed (.binary id span op lhs rhs)

mutual
/-- The words of an expression of operators, calls and parentheses, in their order. -/
def terminals : Expr → List Terminal
  | .literal _ _ value => [.literal value]
  | .path _ _ name => [.name name.text]
  | .grouped _ _ inner => .punct .lparen :: (inner.terminals ++ [.punct .rparen])
  | .unary _ _ op operand => .punct op.punct :: operand.terminals
  | .binary _ _ op lhs rhs => lhs.terminals ++ .punct op.punct :: rhs.terminals
  | .call _ _ callee args => .name callee.text :: .punct .lparen :: (argTerminals args ++ [.punct .rparen])
  | _ => []

def argTerminals : List Expr → List Terminal
  | [] => []
  | [e] => e.terminals
  | e :: f :: es => e.terminals ++ .punct .comma :: argTerminals (f :: es)
end

/-- An operator holds its left operand against what stands at the right end of that one. -/
theorem WellBracketed.closedBefore {e : Expr} (h : e.WellBracketed) {op : BinaryOp}
    (hop : ∀ inner ∈ e.topOp?, op.leftPower < inner.rightPower) : e.ClosedBefore op := by
  induction h with
  | literal | path | grouped | call => trivial
  | unary _ htop ih => exact ih (by simp [htop])
  | binary _ _ _ hright _ ihr =>
    have hlt := hop _ rfl
    exact ⟨hlt, ihr fun inner hinner => BinaryOp.lt_rightPower hlt (hright inner hinner)⟩

theorem atLeast_iff {e : Expr} {power : Nat} : e.AtLeast power ↔ ∀ op ∈ e.topOp?, power ≤ op.leftPower := by
  cases e <;> simp [AtLeast, topOp?]

theorem lt_of_closedBefore {e : Expr} {op : BinaryOp} (h : e.ClosedBefore op) :
    ∀ inner ∈ e.topOp?, op.leftPower < inner.rightPower := by
  cases e with
  | binary => simpa [topOp?] using h.1
  | _ => simp [topOp?]

end Expr

/-- Words of the grammar of operators: literals, names, operators, among them the two that are read but
not supported, parentheses and commas. -/
def Terminal.inOperatorGrammar : Terminal → Bool
  | .literal _ | .name _ => true
  | .punct p => [.lparen, .rparen, .comma, .andAnd, .orOr].contains p ||
      (UnaryOp.ofTerminal? (.punct p)).isSome || (BinaryOp.ofPunct? p).isSome
  | _ => false

namespace Parse

/-! ## Trees to tokens -/

theorem args_spelled {args : List Expr}
    (h : ∀ a ∈ args, ∀ ts : List Token, a.terminals = ts.map Token.terminal → Spells False (.expr a) ts)
    {ts : List Token} (hts : Expr.argTerminals args = ts.map Token.terminal) : Spells False (.args args) ts := by
  match args, h with
  | [], _ =>
    rw [List.map_eq_nil_iff.mp hts.symm]
    exact .argsNil
  | [e], h => exact .argsLast (h e List.mem_cons_self ts hts)
  | e :: f :: es, h =>
    obtain ⟨us, rest, rfl, hus, hrest⟩ := List.map_eq_append_iff.mp hts.symm
    obtain ⟨c, vs, rfl, hc, hvs⟩ := List.map_eq_cons_iff.mp hrest
    exact .argsCons (h e List.mem_cons_self us hus.symm) hc
      (args_spelled (fun a ha => h a (List.mem_cons_of_mem e ha)) hvs.symm)

/-- A tree that keeps to the powers is spelled by its own words. -/
theorem wellBracketed_spelled {e : Expr} (h : e.WellBracketed) {ts : List Token}
    (hts : e.terminals = ts.map Token.terminal) : Spells False (.expr e) ts := by
  induction h generalizing ts with
  | literal =>
    obtain ⟨t, rfl, ht⟩ := List.map_eq_singleton_iff.mp hts.symm
    exact .literal ht False.elim
  | path =>
    obtain ⟨t, rfl, ht⟩ := List.map_eq_singleton_iff.mp hts.symm
    exact .path ht False.elim
  | grouped _ ih =>
    obtain ⟨l, rest, rfl, hl, hrest⟩ := List.map_eq_cons_iff.mp hts.symm
    obtain ⟨us, vs, rfl, hus, hvs⟩ := List.map_eq_append_iff.mp hrest
    obtain ⟨r, rfl, hr⟩ := List.map_eq_singleton_iff.mp hvs
    exact .grouped hl (ih hus.symm) hr False.elim
  | call _ ih =>
    obtain ⟨n, rest, rfl, hn, hrest⟩ := List.map_eq_cons_iff.mp hts.symm
    obtain ⟨l, rest, rfl, hl, hrest⟩ := List.map_eq_cons_iff.mp hrest
    obtain ⟨us, vs, rfl, hus, hvs⟩ := List.map_eq_append_iff.mp hrest
    obtain ⟨r, rfl, hr⟩ := List.map_eq_singleton_iff.mp hvs
    exact .call hn hl (args_spelled (fun a ha ts => ih a ha) hus.symm) hr False.elim
  | unary _ htop ih =>
    obtain ⟨t, us, rfl, ht, hus⟩ := List.map_eq_cons_iff.mp hts.symm
    exact .unary ((UnaryOp.ofTerminal?_eq_some_iff _ _).mpr ht) (ih hus.symm)
      (Expr.atLeast_iff.mpr (by simp [htop])) False.elim
  | binary hlhs _ hleft hright ihl ihr =>
    obtain ⟨us, rest, rfl, hus, hrest⟩ := List.map_eq_append_iff.mp hts.symm
    obtain ⟨t, vs, rfl, ht, hvs⟩ := List.map_eq_cons_iff.mp hrest
    exact .binary (ihl hus.symm) ht (ihr hvs.symm) (hlhs.closedBefore hleft) (Expr.atLeast_iff.mpr hright)
      False.elim

/-! ## Tokens to trees -/

/-- No comma stands before a closing parenthesis. -/
def NoLastComma (words : List Terminal) : Prop := ¬[Terminal.punct .comma, .punct .rparen] <:+: words

theorem NoLastComma.piece {words inner : List Terminal} (h : NoLastComma words) (hin : inner <:+: words) :
    NoLastComma inner := fun hno => h (hno.trans hin)

/-- What the tokens say of the phrase that they spell. -/
def Bracketed : Phrase → List Token → Prop
  | .expr e, ts => NoLastComma (ts.map Token.terminal) → e.WellBracketed ∧ e.terminals = ts.map Token.terminal
  | .args es, ts => NoLastComma (ts.map Token.terminal ++ [.punct .rparen]) →
      (∀ e ∈ es, e.WellBracketed) ∧ Expr.argTerminals es = ts.map Token.terminal
  | _, _ => True

theorem Spells.bracketed {located : Prop} {phrase : Phrase} {ts : List Token} (h : Spells located phrase ts)
    (hts : ∀ t ∈ ts, t.terminal.inOperatorGrammar = true) : Bracketed phrase ts := by
  have hstart : ∀ {t : Token} {us : List Token} {w : Terminal}, (∀ u ∈ t :: us, u.terminal.inOperatorGrammar = true) →
      t.terminal = w → w.inOperatorGrammar = false → False := by
    intro t us w hall hw hno
    have ht := hall t List.mem_cons_self
    rw [hw, hno] at ht
    cases ht
  induction h with
  | literal h => exact fun _ => ⟨.literal, by simp [Expr.terminals, h]⟩
  | path h => exact fun _ => ⟨.path, by simp [Expr.terminals, h]⟩
  | @grouped l r _ _ _ ts hl _ hr _ ih =>
    intro hno
    simp only [List.map_cons, List.map_append, List.map_nil, hl, hr] at hno ⊢
    obtain ⟨he, hwords⟩ := ih (fun t ht => hts t (by simp [ht]))
      (hno.piece (List.infix_append' [Terminal.punct .lparen] _ [.punct .rparen]))
    exact ⟨.grouped he, by rw [Expr.terminals, hwords]⟩
  | unary ht _ he _ ih =>
    intro hno
    rw [UnaryOp.ofTerminal?_eq_some_iff] at ht
    simp only [List.map_cons, ht] at hno ⊢
    obtain ⟨hoperand, hwords⟩ := ih (fun t ht => hts t (List.mem_cons_of_mem _ ht))
      (hno.piece (List.suffix_cons _ _).isInfix)
    refine ⟨.unary hoperand ?_, by rw [Expr.terminals, hwords]⟩
    refine Option.eq_none_iff_forall_ne_some.mpr fun inner hinner => ?_
    exact absurd (Expr.atLeast_iff.mp he inner hinner) (Nat.not_le.mpr (inner.leftPower_lt_unary _))
  | @binary t _ _ _ _ _ ts us _ ht _ hclosed hpower _ ihl ihr =>
    intro hno
    simp only [List.map_append, List.map_cons, ht] at hno ⊢
    obtain ⟨hlhs, hleft⟩ := ihl (fun t ht => hts t (by simp [ht])) (hno.piece (List.prefix_append _ _).isInfix)
    obtain ⟨hrhs, hright⟩ := ihr (fun t ht => hts t (by simp [ht]))
      (hno.piece ((List.suffix_cons _ _).trans (List.suffix_append _ _)).isInfix)
    exact ⟨.binary hlhs hrhs (Expr.lt_of_closedBefore hclosed) (Expr.atLeast_iff.mp hpower),
      by rw [Expr.terminals, hleft, hright]⟩
  | @call n l r _ _ _ _ ts hn hl _ hr _ ih =>
    intro hno
    simp only [List.map_cons, List.map_append, List.map_nil, hn, hl, hr] at hno ⊢
    obtain ⟨hargs, hwords⟩ := ih (fun t ht => hts t (by simp [ht]))
      (hno.piece ((List.suffix_cons _ _).trans (List.suffix_cons _ _)).isInfix)
    exact ⟨.call hargs, by rw [Expr.terminals, hwords]⟩
  | argsNil => exact fun _ => ⟨by simp, rfl⟩
  | argsLast _ ih =>
    intro hno
    obtain ⟨he, hwords⟩ := ih hts (hno.piece (List.prefix_append _ _).isInfix)
    exact ⟨by simpa using he, hwords⟩
  | @argsCons e es c ts us _ hc hs ih ihs =>
    intro hno
    simp only [List.map_append, List.map_cons, hc, List.append_assoc, List.cons_append] at hno ⊢
    obtain ⟨he, hwords⟩ := ih (fun t ht => hts t (by simp [ht])) (hno.piece (List.prefix_append _ _).isInfix)
    obtain ⟨hes, hrest⟩ := ihs (fun t ht => hts t (by simp [ht]))
      (hno.piece ((List.suffix_cons _ _).trans (List.suffix_append _ _)).isInfix)
    refine ⟨List.forall_mem_cons.mpr ⟨he, hes⟩, ?_⟩
    cases es with
    | nil =>
      -- a comma that nothing follows
      rw [← hrest] at hno
      exact absurd (List.suffix_append _ _).isInfix hno
    | cons f es => rw [Expr.argTerminals, hwords, hrest]
  | retNone ht | retSome ht | loop ht | «while» ht => exact (hstart hts ht rfl).elim
  | block h =>
    cases h with
    | braced hl => exact (hstart hts hl rfl).elim
  | cond h =>
    cases h with
    | only ht | orElse ht | orIf ht => exact (hstart hts ht rfl).elim
  | _ => trivial

/-! ## Both -/

/-- The tokens before the end of input spell the expression that is parsed without a problem. -/
theorem expression_spelled {ts : List Token} {t : Token} {e : Expr} (ht : t.terminal = .endOfInput)
    (hts : ∀ u ∈ ts, u.terminal ≠ .endOfInput) (h : run expression (ts ++ [t]) = ⟨.ok e, []⟩) :
    Spells True (.expr e) ts := by
  have hreads : Reads expression fun s e s' =>
      ∃ us, Passes us s s' ∧ Spells True (.expr e) us ∧ s'.terminal = .endOfInput := by
    refine remaining_reads.andThen fun n => ((level_sound _).operand _ 0 (by simp [Closing])).andThen fun e => ?_
    refine isAtEnd_reads.andThen fun ended => ?_
    split
    · rename_i hended
      refine (Reads.pure e).mono ?_
      rintro _ _ s' ⟨rfl, rfl⟩ _ ⟨hend, rfl⟩ s ⟨us, hus, he, -⟩ _ ⟨-, rfl⟩
      exact ⟨us, hus, he, hend.mp hended⟩
    · exact (failAt_reads _).never
  unfold run at h
  split at h
  · rename_i e' s hrun
    injection h with hresult hproblems
    cases hresult
    obtain ⟨-, hsilent⟩ := (hreads { rest := ts ++ [t] }).ok hrun
    obtain ⟨us, hpass, he, hend⟩ := hsilent (List.reverse_eq_nil_iff.mp hproblems)
    have hsame : ts = us := by
      rcases List.append_eq_append_iff.mp hpass.rest with ⟨vs, rfl, hvs⟩ | ⟨vs, rfl, hvs⟩
      · rcases List.singleton_eq_append_iff.mp hvs with ⟨rfl, -⟩ | ⟨rfl, -⟩
        · rw [List.append_nil]
        · exact absurd (he.usual t (by simp)) (by rw [ht]; decide)
      · cases vs with
        | nil => rw [List.append_nil]
        | cons v vs =>
          rw [State.terminal, hvs] at hend
          exact absurd hend (hts v (by simp))
    exact hsame ▸ he
  · cases h

/-- The expressions that are parsed by themselves are the trees that keep to the powers of their
operators, each of them from its own words. -/
theorem expression_wellBracketed {t : Token} (ht : t.terminal = .endOfInput) (ts : List Token) :
    (∀ e : Expr, e.WellBracketed → e.terminals = ts.map Token.terminal →
      ∃ e', run expression (ts ++ [t]) = ⟨.ok e', []⟩ ∧ e'.relabel .bare = e.relabel .bare) ∧
    ∀ e : Expr, (∀ u ∈ ts, u.terminal.inOperatorGrammar = true) → NoLastComma (ts.map Token.terminal) →
      run expression (ts ++ [t]) = ⟨.ok e, []⟩ → e.WellBracketed ∧ e.terminals = ts.map Token.terminal := by
  constructor
  · intro e he hwords
    exact expression_of_spells (wellBracketed_spelled he hwords) ht
  · intro e hts hno hrun
    have hspells : Spells True (.expr e) ts := expression_spelled ht (fun u hu hend => by
      have hoperand := hts u hu
      rw [hend] at hoperand
      cases hoperand) hrun
    exact hspells.bracketed hts hno

/-- `a = -b * (c + d) = f(x, true)`: the second assignment is the value of the first. -/
theorem expression_wellBracketed_assign :
    let words : List Terminal := [.name "a", .punct .eq, .punct .minus, .name "b", .punct .star, .punct .lparen,
      .name "c", .punct .plus, .name "d", .punct .rparen, .punct .eq, .name "f", .punct .lparen, .name "x",
      .punct .comma, .literal (.bool true), .punct .rparen]
    let ts : List Token := words.map (⟨·, default⟩)
    ∃ e e' : Expr, e.WellBracketed ∧ e.terminals = words ∧
      run expression (ts ++ [⟨.endOfInput, default⟩]) = ⟨.ok e', []⟩ ∧ e'.relabel .bare = e.relabel .bare ∧
      e'.WellBracketed ∧ e'.terminals = words := by
  intro words ts
  have hwords : words = ts.map Token.terminal := rfl
  let path (text : String) : Expr := .path 0 default ⟨text, default⟩
  let product : Expr := .binary 0 default .mul (.unary 0 default .neg (path "b"))
    (.grouped 0 default (.binary 0 default .add (path "c") (path "d")))
  let e : Expr := .binary 0 default .assign (path "a")
    (.binary 0 default .assign product
      (.call 0 default ⟨"f", default⟩ [path "x", .literal 0 default (.bool true)]))
  have he : e.WellBracketed := by
    refine .binary .path (.binary (.binary (.unary .path rfl) (.grouped (.binary .path .path ?_ ?_)) ?_ ?_)
      (.call ?_) ?_ ?_) ?_ ?_
    case refine_5 =>
      simp only [List.forall_mem_cons]
      exact ⟨.path, .literal, by simp⟩
    all_goals simp [Expr.topOp?, path, product, BinaryOp.leftPower, BinaryOp.rightPower]
  obtain ⟨hcomplete, hsound⟩ := expression_wellBracketed (t := ⟨.endOfInput, default⟩) rfl ts
  obtain ⟨e', hrun, hsame⟩ := hcomplete e he rfl
  obtain ⟨he', hwords'⟩ := hsound e' (by decide) (by rw [NoLastComma]; decide) hrun
  exact ⟨e, e', he, rfl, hrun, hsame, he', hwords'⟩

end Parse
end Ferrite
