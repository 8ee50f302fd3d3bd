import Ferrite.Proofs.Check.Reported

/-!
Branches that always return. Where one of the two branches of an `if` always returns, the `if` is to have the
type of the other one. That a branch returns is seen from its type or from a `return` that is its last statement.
It is not seen of a chain of conditions that has the type of such a `return`.
-/

namespace Ferrite

/-- What is behind an `else`. -/
inductive Branch
  | block (body : Block)
  | chain (links : Cond)

namespace Branch

/-- Where types that are not alike are reported. -/
def span : Branch → Span
  | .block body => body.span
  | .chain links => links.cond.span.join links.yes.span

def endsInReturn : Branch → Bool
  | .block body => body.endsInReturn
  | .chain _ => false

/-- The chain that a branch is, or that the block ends with. -/
def chain? : Branch → Option Cond
  | .block body =>
      match body.tail with
      | some (.cond _ _ links) => some links
      | _ => none
  | .chain links => some links

end Branch

/-- A condition with two branches. -/
structure Fork where
  test : Expr
  yes : Block
  no : Branch

def Cond.fork? : Cond → Option Fork
  | .only .. => none
  | .orElse test yes no => some ⟨test, yes, .block no⟩
  | .orIf test yes no => some ⟨test, yes, .chain no⟩

namespace Check

def branch : Branch → Checker Ty
  | .block body => block body
  | .chain links => cond links

/-- The state before the tail of a block. -/
def atTail (b : Block) (s : State) : State :=
  after (stmts b.stmts) (after (items b.items) (atBlock b.items s))

mutual
/-- Whether a block always returns: it has the type `!`, it ends in a `return`, or its tail is a chain that always
returns. -/
def blockReturns : Block → State → Bool
  | .mk id span is ss tail, s =>
      value (block (.mk id span is ss tail)) s = .never || (Block.mk id span is ss tail).endsInReturn ||
        match tail with
        | some (.cond _ _ links) => condReturns links (atTail (.mk id span is ss tail) s)
        | _ => false

/-- Whether a chain always returns: it has an `else`, and all its branches always return. -/
def condReturns : Cond → State → Bool
  | .only .., _ => false
  | .orElse test yes no, s =>
      blockReturns yes (pastTest test s) &&
        blockReturns no (after (block yes) (pastTest test s))
  | .orIf test yes no, s =>
      blockReturns yes (pastTest test s) &&
        condReturns no (after (block yes) (pastTest test s))
end

/-- A branch, and the state in which it is checked. -/
structure Entered where
  branch : Branch
  state : State

namespace Entered

def type (e : Entered) : Ty := value (Check.branch e.branch) e.state

/-- The state behind the branch. -/
def left (e : Entered) : State := after (Check.branch e.branch) e.state

def returns : Entered → Bool
  | ⟨.block body, s⟩ => blockReturns body s
  | ⟨.chain links, s⟩ => condReturns links s

/-- Whether the branch is seen to return, by its type or by the `return` that it ends in. -/
def plain (e : Entered) : Bool := e.type = .never || e.branch.endsInReturn

end Entered

def yesBranch (f : Fork) (s : State) : Entered := ⟨.block f.yes, pastTest f.test s⟩

def noBranch (f : Fork) (s : State) : Entered := ⟨f.no, (yesBranch f s).left⟩

/-- The blocks that a branch may end with. -/
inductive LastBlock : Entered → Block → State → Prop
  | self (b : Block) (s : State) : LastBlock ⟨.block b, s⟩ b s
  | tail {b last : Block} {id : NodeId} {span : Span} {links : Cond} {s t : State} :
      b.tail = some (.cond id span links) → LastBlock ⟨.chain links, atTail b s⟩ last t →
      LastBlock ⟨.block b, s⟩ last t
  | yes {links : Cond} {f : Fork} {last : Block} {s t : State} :
      links.fork? = some f → LastBlock (yesBranch f s) last t → LastBlock ⟨.chain links, s⟩ last t
  | no {links : Cond} {f : Fork} {last : Block} {s t : State} :
      links.fork? = some f → LastBlock (noBranch f s) last t → LastBlock ⟨.chain links, s⟩ last t

variable {links : Cond} {f : Fork} {s : State}

theorem condReturns_iff (h : links.fork? = some f) :
    condReturns links s = true ↔ (yesBranch f s).returns = true ∧ (noBranch f s).returns = true := by
  cases links with
  | only test yes => cases h
  | orElse test yes no | orIf test yes no =>
    cases h
    rw [condReturns, Bool.and_eq_true]
    rfl

theorem cond_fork (h : links.fork? = some f) :
    cond links = (do
      truth f.test.span (← expr f.test)
      let yesType ← block f.yes
      let noType ← branch f.no
      branches f.yes.endsInReturn yesType f.no.endsInReturn f.no.span noType) := by
  cases links with
  | only test yes => cases h
  | orElse test yes no | orIf test yes no =>
    cases h
    rw [cond]
    rfl

theorem value_cond (h : links.fork? = some f) :
    value (cond links) s =
      if (yesBranch f s).plain then (noBranch f s).type else (yesBranch f s).type := by
  rw [cond_fork h]
  exact value_branches _ _ _ _ _

theorem after_branches (yesReturns : Bool) (yes : Ty) (noReturns : Bool) (span : Span) (no : Ty) :
    after (branches yesReturns yes noReturns span no) s =
      if yes = .never || yesReturns || (no = .never || noReturns) then s
      else after (reportIf (!no.fits yes) (.branches yes no) span) s := by
  unfold branches
  split
  · rename_i hyes
    rw [hyes]
    rfl
  · rename_i hyes
    rw [Bool.eq_false_iff.mpr hyes, Bool.false_or]
    split <;> rfl

theorem after_cond (h : links.fork? = some f) :
    after (cond links) s =
      if (yesBranch f s).plain || (noBranch f s).plain then (noBranch f s).left
      else after (reportIf (!(noBranch f s).type.fits (yesBranch f s).type)
        (.branches (yesBranch f s).type (noBranch f s).type) f.no.span)
        (noBranch f s).left := by
  rw [cond_fork h]
  exact after_branches _ _ _ _ _

/-- A block with a tail has its type. -/
theorem value_block_cond {b : Block} {id : NodeId} {span : Span} (h : b.tail = some (.cond id span links)) :
    value (block b) s = value (cond links) (atTail b s) := by
  obtain ⟨_, _, is, ss, tail⟩ := b
  cases h
  rw [block, expr]
  rfl

/-- A block that always returns is seen to, or has such a chain as its tail. -/
theorem blockReturns_cases {b : Block} (h : blockReturns b s = true) :
    value (block b) s = .never ∨ b.endsInReturn = true ∨
      ∃ id span links, b.tail = some (.cond id span links) ∧
        condReturns links (atTail b s) = true := by
  obtain ⟨id, span, is, ss, tail⟩ := b
  rw [blockReturns.eq_def, Bool.or_eq_true, Bool.or_eq_true, decide_eq_true_eq, or_assoc] at h
  refine h.imp_right (Or.imp_right fun h => ?_)
  split at h
  · exact ⟨_, _, _, rfl, h⟩
  · cases h

/-- The type of a branch that always returns comes from the end of one of its blocks. -/
def Returned (e : Entered) : Prop :=
  e.type = .never ∨ ∃ last t, LastBlock e last t ∧ last.endsInReturn = true ∧ value (block last) t = e.type

theorem Returned.chain {links : Cond} {f : Fork} {s : State} (h : links.fork? = some f)
    (hyes : Returned (yesBranch f s)) (hno : Returned (noBranch f s)) :
    Returned ⟨.chain links, s⟩ := by
  have htype : Entered.type ⟨.chain links, s⟩ = value (cond links) s := rfl
  rw [Returned, htype, value_cond h]
  split
  · exact hno.imp_right fun ⟨last, t, hlast, hreturn, htype⟩ => ⟨last, t, .no h hlast, hreturn, htype⟩
  · exact hyes.imp_right fun ⟨last, t, hlast, hreturn, htype⟩ => ⟨last, t, .yes h hlast, hreturn, htype⟩

mutual
theorem block_returned : ∀ (b : Block) (s : State), blockReturns b s = true → Returned ⟨.block b, s⟩
  | .mk id span is ss tail, s, h => by
    rcases blockReturns_cases h with hnever | hreturn | ⟨id', span', links, htail, hlinks⟩
    · exact .inl hnever
    · exact .inr ⟨_, s, .self _ s, hreturn, rfl⟩
    · have htype : value (block _) s = value (cond links) _ := value_block_cond htail
      cases htail
      have hchain := cond_returned links _ hlinks
      rw [Returned, Entered.type, branch, htype]
      exact hchain.imp_right fun ⟨last, t, hlast, hends, hsame⟩ => ⟨last, t, .tail rfl hlast, hends, hsame⟩

theorem cond_returned : ∀ (links : Cond) (s : State), condReturns links s = true → Returned ⟨.chain links, s⟩
  | .only test yes, s, h => by
    rw [condReturns] at h
    cases h
  | .orElse test yes no, s, h => by
    obtain ⟨hyes, hno⟩ := (condReturns_iff rfl).mp h
    exact .chain rfl (block_returned yes _ hyes) (block_returned no _ hno)
  | .orIf test yes no, s, h => by
    obtain ⟨hyes, hno⟩ := (condReturns_iff rfl).mp h
    exact .chain rfl (block_returned yes _ hyes) (cond_returned no _ hno)
end

theorem plain_of_never {e : Entered} (h : e.type = .never) : e.plain = true := by
  rw [Entered.plain, decide_eq_true h, Bool.true_or]

/-- A chain has the type `!` just if its first branch is seen to return, and what is behind its `else` has that
type. -/
theorem value_cond_never_iff (h : links.fork? = some f) :
    value (cond links) s = .never ↔
      (yesBranch f s).plain = true ∧ (noBranch f s).type = .never := by
  rw [value_cond h]
  split
  case isTrue hplain => exact (and_iff_right hplain).symm
  case isFalse hplain =>
    exact iff_of_false (fun hnever => hplain (plain_of_never hnever)) fun hboth => hplain hboth.1

theorem blockReturns_of_plain {b : Block} (h : Entered.plain ⟨.block b, s⟩ = true) :
    blockReturns b s = true := by
  obtain ⟨id, span, is, ss, tail⟩ := b
  rw [blockReturns.eq_def, Bool.or_eq_true]
  exact .inl h

theorem condReturns_of_never : ∀ (links : Cond) (s : State),
    value (cond links) s = .never → condReturns links s = true
  | .only test yes, s, h => by
    rw [cond] at h
    cases h
  | .orElse test yes no, s, h => by
    obtain ⟨hyes, hno⟩ := (value_cond_never_iff rfl).mp h
    exact (condReturns_iff rfl).mpr ⟨blockReturns_of_plain hyes, blockReturns_of_plain (plain_of_never hno)⟩
  | .orIf test yes no, s, h => by
    obtain ⟨hyes, hno⟩ := (value_cond_never_iff rfl).mp h
    exact (condReturns_iff rfl).mpr ⟨blockReturns_of_plain hyes, condReturns_of_never no _ hno⟩

/-- Only what always returns is seen to return. -/
theorem returns_of_plain {e : Entered} (h : e.plain = true) : e.returns = true := by
  obtain ⟨b | links, s⟩ := e
  · exact blockReturns_of_plain h
  · rw [Entered.plain, Branch.endsInReturn, Bool.or_false, decide_eq_true_eq] at h
    exact condReturns_of_never links s h

/-- What always returns without being seen to is a chain, or has one as its tail. -/
theorem exists_chain {e : Entered} (h : e.returns = true) (hplain : ¬ e.plain = true) :
    ∃ links, e.branch.chain? = some links := by
  obtain ⟨b | links, s⟩ := e
  · rw [Entered.plain, Bool.or_eq_true, decide_eq_true_eq, not_or] at hplain
    rcases blockReturns_cases h with hnever | hreturn | ⟨_, _, links, htail, -⟩
    · exact absurd hnever hplain.1
    · exact absurd hreturn hplain.2
    · exact ⟨links, by rw [Branch.chain?, htail]⟩
  · exact ⟨links, rfl⟩

theorem returned_of_returns (e : Entered) (h : e.returns = true) : Returned e := by
  obtain ⟨b | links, s⟩ := e
  · exact block_returned b s h
  · exact cond_returned links s h

/-- Where exactly one branch always returns and is seen to, the types of the two are not compared, and the `if`
has the type of the other one. A chain that returns without being seen to has the type of a `return` at the end of
one of its blocks, and that type is taken for the one of its value. -/
theorem cond_of_returns {links : Cond} {f : Fork} {s : State} {one other : Entered}
    (hfork : links.fork? = some f)
    (hbranches : one = yesBranch f s ∧ other = noBranch f s ∨
      one = noBranch f s ∧ other = yesBranch f s)
    (hone : one.returns = true) (hother : other.returns = false) :
    if one.plain then
      value (cond links) s = other.type ∧ after (cond links) s = (noBranch f s).left
    else
      (∃ links, one.branch.chain? = some links) ∧
        (∃ last t, LastBlock one last t ∧ last.endsInReturn = true ∧
          value (block last) t = one.type) ∧
        value (cond links) s = (yesBranch f s).type ∧
        after (cond links) s =
          after (reportIf (!(noBranch f s).type.fits (yesBranch f s).type)
            (.branches (yesBranch f s).type (noBranch f s).type) f.no.span)
            (noBranch f s).left := by
  have hhidden : other.plain = false :=
    Bool.eq_false_iff.mpr fun h => absurd (returns_of_plain h) (Bool.eq_false_iff.mp hother)
  rw [value_cond hfork, after_cond hfork]
  split
  case isTrue hplain =>
    rcases hbranches with ⟨rfl, rfl⟩ | ⟨rfl, rfl⟩
    · rw [hplain]
      exact ⟨rfl, rfl⟩
    · rw [hplain, hhidden]
      exact ⟨rfl, rfl⟩
  case isFalse hplain =>
    have hlast := (returned_of_returns one hone).resolve_left fun h => hplain (plain_of_never h)
    refine ⟨exists_chain hone hplain, hlast, ?_⟩
    rcases hbranches with ⟨rfl, rfl⟩ | ⟨rfl, rfl⟩
    · rw [Bool.eq_false_iff.mpr hplain, hhidden]
      exact ⟨rfl, rfl⟩
    · rw [Bool.eq_false_iff.mpr hplain, hhidden]
      exact ⟨rfl, rfl⟩

/-- The conditional expressions of a program, each with the state before it. -/
def conditionals (p : Program) : List (Cond × State) :=
  (p.visits pass (start p)).filterMap fun v =>
    match v.node with
    | .expr (.cond _ _ links) => some (links, v.state)
    | _ => none

/-- A program with a chain of which the last branch is a `return`, with the given text behind it. -/
def chainTokens (last : String) : List Token :=
  (Lexer.read 0 ("fn f(c: bool) \x7b let x = if c \x7b 5 \x7d else if c \x7b return; \x7d else \x7b return" ++
    last ++ " \x7d; \x7d")).tokens

/-- A chain that ends in a `return` without `;` has the type `!`. -/
theorem cond_of_returns_never : ∃ p,
    Parse.run Parse.program (chainTokens "") = ⟨.ok p, []⟩ ∧
    ∃ links s, (links, s) ∈ conditionals p ∧ ∃ f, links.fork? = some f ∧
      (noBranch f s).returns = true ∧ (yesBranch f s).returns = false ∧
      value (cond links) s = .int .i32 ∧ after (cond links) s = (noBranch f s).left := by
  have hvalues : (Parse.run Parse.program (chainTokens "")).result.toOption.map
        (fun p => (conditionals p).filterMap fun (links, s) => links.fork?.map fun f =>
          ((noBranch f s).returns, (noBranch f s).plain, (yesBranch f s).returns,
            (yesBranch f s).type)) =
      some [(true, true, false, .int .i32)] := by
    decide +kernel
  have hproblems : (Parse.run Parse.program (chainTokens "")).problems = [] := by
    decide +kernel
  obtain ⟨p, hrun, hvalues⟩ := Parse.Outcome.exists_ok hvalues
  rw [hproblems] at hrun
  obtain ⟨⟨links, s⟩, hmem, hview⟩ := List.mem_filterMap.mp (hvalues ▸ List.mem_cons_self)
  obtain ⟨f, hfork, hview⟩ := Option.map_eq_some_iff.mp hview
  simp only [Prod.mk.injEq] at hview
  obtain ⟨hone, hplain, hother, htype⟩ := hview
  have hcond := cond_of_returns hfork (.inr ⟨rfl, rfl⟩) hone hother
  rw [if_pos hplain, htype] at hcond
  exact ⟨p, hrun, links, s, hmem, f, hfork, hone, hother, hcond⟩

/-- It is not so that the types are never compared where exactly one branch always returns: a chain of which all
branches end in a `return` is taken to have the type of what it returns. -/
theorem chain_of_returns_compared : ∃ p,
    Parse.run Parse.program (chainTokens ";") = ⟨.ok p, []⟩ ∧
    (run p).2.map Located.value = [.branches (.int .i32) .unit] ∧
    ∃ links s, (links, s) ∈ conditionals p ∧ ∃ f, links.fork? = some f ∧
      (noBranch f s).returns = true ∧ (yesBranch f s).returns = false ∧
      (noBranch f s).left.problems.isEmpty = true ∧
      (after (cond links) s).problems.map Located.value = [.branches (.int .i32) .unit] := by
  have hvalues : (Parse.run Parse.program (chainTokens ";")).result.toOption.map
        (fun p => (conditionals p).filterMap fun (links, s) => links.fork?.map fun f =>
          ((noBranch f s).returns, (yesBranch f s).returns,
            (noBranch f s).left.problems.isEmpty,
            (after (cond links) s).problems.map Located.value)) =
      some [(true, false, true, [.branches (.int .i32) .unit])] := by
    decide +kernel
  have hreported : (Parse.run Parse.program (chainTokens ";")).result.toOption.map
      (fun p => (run p).2.map Located.value) = some [.branches (.int .i32) .unit] := by
    decide +kernel
  have hproblems : (Parse.run Parse.program (chainTokens ";")).problems = [] := by
    decide +kernel
  obtain ⟨p, hrun, hvalues⟩ := Parse.Outcome.exists_ok hvalues
  rw [hproblems] at hrun
  rw [hrun] at hreported
  obtain ⟨⟨links, s⟩, hmem, hview⟩ := List.mem_filterMap.mp (hvalues ▸ List.mem_cons_self)
  obtain ⟨f, hfork, hview⟩ := Option.map_eq_some_iff.mp hview
  simp only [Prod.mk.injEq] at hview
  exact ⟨p, hrun, Option.some.inj hreported, links, s, hmem, f, hfork, hview⟩

end Check
end Ferrite
