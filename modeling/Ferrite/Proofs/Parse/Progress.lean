import Ferrite.Proofs.Parse.Prolong
import Ferrite.Proofs.Parse.Steps

/-!
Parsing comes to an end, whatever the tokens are. Each loop of the grammar passes a token in every turn but its
last one, so no bound on repetition or nesting is met, and greater ones change nothing.
-/

namespace Ferrite.Parse

variable {α β : Type} {here : Terminal → Prop}

/-! ## Lists, types and headers -/

def commaTurn (element : Parser α) (comma : Bool) : Parser (Turn Bool (List α × Bool)) := do
  if (← isAt .rparen) || (← isAtEnd) then return .done ([], comma)
  let x ← element
  if ← accept .comma then return .again true fun (xs, comma) => (x :: xs, comma)
  else return .done ([x], false)

theorem commaList_loops {element : Parser α} (he : Walks anywhere (fun _ => 0) element) :
    Loops (commaList element) (commaTurn element) where
  turns bound comma := by
    rw [commaList, commaTurn]
    simp only [bind_assoc]
    refine bind_congr fun close => bind_congr fun ended => ?_
    split
    · rfl
    · simp only [bind_assoc]
      refine bind_congr fun x => bind_congr fun found => ?_
      cases found <;> simp [Turn.follow]
  walks comma := by
    refine .read fun close => .read fun ended => .ite (.pure rfl) (he.bind fun x => ?_)
    refine (accept_walks _).bind fun found => ?_
    cases found with
    | false => exact .pure rfl
    | true => exact .pure rfl

theorem commaList_walks {element : Parser α} (he : Walks anywhere (fun _ => 0) element) (bound : Nat) (comma : Bool) :
    Walks here (fun _ => 0) (commaList element bound comma) :=
  ((commaList_loops he).forwards (fun _ => .throw) comma).anywhere

theorem parenthesized_walks {element : Parser α} (he : Walks anywhere (fun _ => 0) element) :
    Walks here (fun _ => 1) (parenthesized element) :=
  (expect_walks _).bind fun _ => .read fun _ => (commaList_walks he _ _).bind fun _ =>
    (expect_walks _).zero.bind fun _ => .pure rfl

theorem resultOf_walks {type : Parser Ty} (ht : Walks anywhere (fun _ => 0) type) :
    Walks here (fun _ => 0) (resultOf type) :=
  (accept_walks _).zero.bind fun _ => .ite ht (.pure rfl)

theorem typeWithin_walks (bound : Nat) : Walks here (fun _ => 1) (typeWithin bound) := by
  induction bound generalizing here with
  | zero => exact .throw
  | succ bound ih =>
    unfold typeWithin
    refine .read fun start => .dispatch fun t _ => ?_
    split
    · refine (known_walks Terminal.noConfusion).bind fun _ => ?_
      split
      · exact .pure rfl
      · exact (report_walks _ _).bind fun _ => .pure rfl
    · exact (known_walks Terminal.noConfusion).bind fun _ => .pure rfl
    · exact (parenthesized_walks ih.zero).bind fun _ => .pure rfl
    · exact advance_walks.bind fun _ => (parenthesized_walks ih.zero).bind fun _ =>
        (resultOf_walks ih.zero).bind fun _ => .pure rfl
    · exact .throw
    · exact .throw
    · exact failAt_walks _

theorem type_walks : Walks here (fun _ => 1) type := .read fun _ => typeWithin_walks _

theorem param_walks : Walks here (fun _ => 1) param :=
  (acceptKeyword_walks _).bind fun _ => expectName_walks.bind fun _ => (expect_walks _).zero.bind fun _ =>
    type_walks.zero.bind fun _ => .pure rfl

theorem header_walks (start : Span) : Walks here (fun _ => 1) (header start) :=
  freshId_walks.bind fun _ => advance_walks.bind fun _ => expectName_walks.bind fun _ =>
    (parenthesized_walks param_walks.zero).zero.bind fun _ => (resultOf_walks type_walks.zero).bind fun _ =>
      .read fun _ => .pure rfl

theorem declaration_walks : Walks here (fun _ => 1) declaration :=
  .read fun start => (header_walks start).bind fun _ => (expect_walks _).zero.bind fun _ => .read fun _ => .pure rfl

/-! ## Foreign functions -/

def declarationsTurn (_ : Unit) : Parser (Turn Unit (List Header)) := do
  match ← terminal with
  | .punct .rbrace | .endOfInput => return .done []
  | .keyword .fn => do
      let before ← remaining
      match ← attempt declaration with
      | some h => return .again () (h :: ·)
      | none => do
          recoverStatement before
          return .again () id
  | _ => failAt (.unexpected .declaration)

theorem declarations_loops : Loops (fun bound _ => declarations bound) declarationsTurn where
  turns bound _ := by
    rw [declarations, declarationsTurn, bind_assoc]
    refine bind_congr fun t => ?_
    split
    · rfl
    · rfl
    · simp only [bind_assoc]
      refine bind_congr fun before => bind_congr fun found => ?_
      cases found <;> simp [Turn.follow]
    · simp_all [failAt_bind]
  walks _ := by
    refine .dispatch fun t _ => ?_
    split
    · exact .pure rfl
    · exact .pure rfl
    · intro s hs
      have hwalks : Walks anywhere (fun _ => 1) declaration := declaration_walks
      show Ends (attempt declaration >>= _) s _ _
      rw [Ends.bind_iff]
      refine (hwalks.attempt s trivial).mono (fun found t _ ht => ?_) fun _ _ _ ht => ht
      cases found with
      | some h => exact ht
      | none => exact recoverStatement_resumes.turn (hs ▸ Terminal.noConfusion) ht _ _
    · exact failAt_walks _

theorem declarations_walks (bound : Nat) : Walks here (fun _ => 0) (declarations bound) :=
  (declarations_loops.forwards (fun _ => .throw) ()).anywhere

theorem foreign_walks : Walks here (fun _ => 1) foreign := by
  have hrest : ∀ (start : Span) (abi : String), Walks anywhere (fun _ => 1)
      (do
        expect .lbrace
        let functions ← declarations ((← remaining) + 1)
        expect .rbrace
        return Item.foreign (start.join (← lastSpan)) abi functions) := fun start abi =>
    (expect_walks _).bind fun _ => .read fun _ => (declarations_walks _).bind fun _ =>
      (expect_walks _).zero.bind fun _ => .read fun _ => .pure rfl
  refine .read fun start => advance_walks.bind fun _ => .dispatch fun t _ => ?_
  split
  · exact advance_walks.bind fun _ => hrest start _
  · exact (hrest start _).anywhere

/-! ## Expressions -/

/-- Parsers for what is nested that pass a token where they end well. -/
structure Nested.Walks (nested : Nested) : Prop where
  block : Parse.Walks anywhere (fun _ => 1) nested.block
  cond : Parse.Walks anywhere (fun _ => 1) nested.cond
  operand : ∀ marks power, Parse.Walks anywhere (fun _ => 1) (nested.operand marks power)

namespace Nested

variable {nested : Nested}

/-- A construct that is numbered and ends with the token passed last. -/
theorem closed_walks {make : NodeId → Span → Expr} :
    Parse.Walks here (fun _ => 0) (do let id ← freshId; return make id (← lastSpan)) :=
  freshId_walks.bind fun _ => .read fun _ => .pure rfl

def operatorsTurn (nested : Nested) (marks : List Punct) (power : Nat) (lhs : Expr) :
    Parser (Turn Expr Expr) := do
  let t ← terminal
  if stops marks t then return .done lhs
  match t with
  | .punct .andAnd => failAt fun _ => .unsupportedOperator .andAnd
  | .punct .orOr => failAt fun _ => .unsupportedOperator .orOr
  | .keyword .as => throw (.unsupported .cast (← span))
  | _ =>
      match BinaryOp.ofTerminal? t with
      | none => return .done lhs
      | some op =>
          if op.leftPower < power then return .done lhs
          advance
          let rhs ← nested.operand marks op.rightPower
          return .again (.binary (← freshId) (lhs.span.join rhs.span) op lhs rhs) id

theorem operators_loops (hn : nested.Walks) (marks : List Punct) (power : Nat) :
    Loops (nested.operators marks power) (nested.operatorsTurn marks power) where
  turns bound lhs := by
    rw [operators, operatorsTurn, bind_assoc]
    refine bind_congr fun t => ?_
    split
    · rfl
    · split
      · rfl
      · rfl
      · rfl
      · cases BinaryOp.ofTerminal? t with
        | none => simp [Turn.follow]
        | some op =>
          dsimp only
          split <;> simp [Turn.follow]
  walks lhs := by
    refine .dispatch fun t _ => .ite (.pure rfl) ?_
    split
    · exact failAt_walks _
    · exact failAt_walks _
    · exact .read fun _ => .throw
    · split
      · exact .pure rfl
      · rename_i op hop
        have ht : t ≠ .endOfInput := by
          rintro rfl
          cases hop
        refine .ite (.pure rfl) ((known_walks ht).bind fun _ => (hn.operand _ _).zero.bind fun rhs => ?_)
        exact freshId_walks.bind fun id => .pure rfl

theorem operators_walks (hn : nested.Walks) (marks : List Punct) (power bound : Nat) (lhs : Expr) :
    Parse.Walks here (fun _ => 0) (nested.operators marks power bound lhs) :=
  ((operators_loops hn marks power).forwards (fun _ => .throw) lhs).anywhere

theorem call_walks (hn : nested.Walks) (start : Span) (callee : Ident) :
    Parse.Walks here (fun _ => 1) (nested.call start callee) :=
  (parenthesized_walks (hn.operand _ _).zero).bind fun _ => closed_walks

theorem group_walks (hn : nested.Walks) (start : Span) : Parse.Walks here (fun _ => 1) (nested.group start) := by
  have htuple : ∀ (least : Expr → Nat) (f : Unit → Parser Expr), Parse.Walks anywhere least
      (do let place ← span; throw (.unsupported .tuple (start.join place)) >>= f) := fun _ f =>
    .read fun _ => .throw
  refine advance_walks.bind fun _ => .read fun _ => .ite (htuple _ _) ?_
  refine (hn.operand _ _).bind fun _ => .read fun _ => .ite (htuple _ _) ?_
  exact (expect_walks _).zero.bind fun _ => closed_walks

/-- As many tokens at least as are passed with its keyword. -/
theorem returning_walks {n : Nat} (hn : nested.Walks) (hadvance : Parse.Walks here (fun _ => n) advance) (start : Span)
    (marks : List Punct) : Parse.Walks here (fun _ => n) (nested.returning start marks) := by
  have hrest : ∀ value, Parse.Walks anywhere (fun _ => 0)
      (do let id ← freshId; return Expr.ret id (start.join (← lastSpan)) value) := fun _ => closed_walks
  have hvalue : Parse.Walks anywhere (fun _ => 0) (some <$> nested.expr marks) :=
    (hn.operand _ _).zero.map fun _ => rfl
  refine hadvance.bind fun _ => ?_
  simp only [Nat.sub_self]
  exact .dispatch fun t _ => .ite (hrest none).anywhere (hvalue.anywhere.bind hrest)

theorem blockLike_walks (hn : nested.Walks) : Parse.Walks here (fun _ => 1) nested.blockLike := by
  refine .read fun start => .dispatch fun t _ => ?_
  split
  · exact hn.block.anywhere.bind fun _ => closed_walks
  · exact hn.cond.anywhere.bind fun _ => closed_walks
  · exact advance_walks.bind fun _ => hn.block.bind fun _ => closed_walks
  · exact advance_walks.bind fun _ => (hn.operand _ _).bind fun _ => hn.block.zero.bind fun _ => closed_walks
  · exact failAt_walks _

theorem primary_walks (hn : nested.Walks) (marks : List Punct) :
    Parse.Walks here (fun _ => 1) (nested.primary marks) := by
  refine .read fun start => .dispatch fun t _ => .ite (failAt_walks _) (.ite (blockLike_walks hn) ?_)
  split
  · exact (known_walks Terminal.noConfusion).bind fun _ => freshId_walks.bind fun _ => .pure rfl
  · refine (known_walks Terminal.noConfusion).bind fun _ => .read fun _ => ?_
    exact .ite (call_walks hn start _).zero (freshId_walks.bind fun _ => .pure rfl)
  · exact group_walks hn start
  · exact returning_walks hn (known_walks Terminal.noConfusion) start marks
  · exact .throw
  · exact .throw
  · exact .throw
  · exact .throw
  · exact failAt_walks _

theorem unary_walks (hn : nested.Walks) (marks : List Punct) :
    Parse.Walks here (fun _ => 1) (nested.unary marks) := by
  refine .dispatch fun t _ => ?_
  split
  · exact primary_walks hn marks
  · exact .read fun _ => advance_walks.bind fun _ => (hn.operand _ _).bind fun _ =>
      freshId_walks.bind fun _ => .pure rfl

theorem binary_walks (hn : nested.Walks) (marks : List Punct) (power : Nat) :
    Parse.Walks here (fun _ => 1) (nested.binary marks power) :=
  (unary_walks hn marks).bind fun _ => .read fun _ => operators_walks hn marks power _ _

theorem conditions_walks (hn : nested.Walks) : Parse.Walks here (fun _ => 1) nested.conditions := by
  refine advance_walks.bind fun _ => (hn.operand _ _).bind fun _ => hn.block.zero.bind fun _ => ?_
  refine (acceptKeyword_walks _).bind fun _ => .ite (.dispatch fun t _ => ?_) (.pure rfl)
  exact .ite (hn.cond.zero.anywhere.bind fun _ => .pure rfl) (hn.block.zero.anywhere.bind fun _ => .pure rfl)

/-! ## Items, statements and blocks -/

theorem function_walks (hn : nested.Walks) : Parse.Walks here (fun _ => 1) nested.function :=
  .read fun start => (header_walks start).bind fun _ => hn.block.zero.bind fun _ => .read fun _ => .pure rfl

/-- Where no item starts, no token is passed. -/
theorem item?_walks (hn : nested.Walks) :
    Parse.Walks here (fun found => if found.isSome then 1 else 0) nested.item? := by
  refine .dispatch fun t _ => ?_
  split
  · exact (function_walks hn).map fun _ => rfl
  · exact foreign_walks.map fun _ => rfl
  · exact .read fun _ => .throw
  · exact .ite (.read fun _ => .throw) (.pure rfl)
  · exact .pure rfl

theorem binding_walks (hn : nested.Walks) : Parse.Walks here (fun _ => 1) nested.binding := by
  have hrest : ∀ start id name declared, Parse.Walks anywhere (fun _ => 0)
      (do
        expect .eq
        let init ← nested.expr [.semi]
        expect .semi
        return Stmt.bind id (Span.join start (← lastSpan)) name declared init) := fun _ _ _ _ =>
    (expect_walks _).zero.bind fun _ => (hn.operand _ _).zero.bind fun _ => (expect_walks _).zero.bind fun _ =>
      .read fun _ => .pure rfl
  refine .read fun start => freshId_walks.bind fun id => advance_walks.bind fun _ => ?_
  refine (acceptKeyword_walks _).bind fun _ => expectName_walks.bind fun name => ?_
  have htype : Parse.Walks anywhere (fun _ => 0) (some <$> type) := type_walks.zero.map fun _ => rfl
  exact (accept_walks _).zero.bind fun _ => .ite (htype.bind fun declared => hrest start id name declared)
    (hrest start id name none)

theorem exprStatement_walks (hn : nested.Walks) : Parse.Walks here (fun _ => 1) nested.exprStatement := by
  have hrest : ∀ start e, Parse.Walks anywhere (fun _ => 0)
      (do
        let semi ← accept .semi
        if !semi && !Expr.endsInBlock e && !(← isAt .rbrace) then failAt (.unexpected .statementEnd)
        else return Stmt.expr (Span.join start (← lastSpan)) e semi) := fun _ _ =>
    (accept_walks _).zero.bind fun _ => .read fun _ => .ite (failAt_walks _) (.read fun _ => .pure rfl)
  refine .read fun start => .dispatch fun t _ => .ite ?_ ?_
  · exact (blockLike_walks hn).bind fun e => hrest start e
  · exact (hn.operand _ _).anywhere.bind fun e => hrest start e

theorem statement_walks (hn : nested.Walks) : Parse.Walks here (fun _ => 1) nested.statement :=
  .dispatch fun _ _ => .ite (binding_walks hn) (exprStatement_walks hn)

def entriesTurn (nested : Nested) (_ : Unit) : Parser (Turn Unit (List Entry)) := do
  let t ← terminal
  if t = .punct .rbrace || t = .endOfInput then return .done []
  else if t = .punct .semi then
    advance
    return .again () id
  else
    let before ← remaining
    match ← attempt nested.item? with
    | some (some i) => return .again () (.item i :: ·)
    | none => do
        recoverStatement before
        return .again () id
    | some none =>
        match ← attempt nested.statement with
        | some s => return .again () (.stmt s :: ·)
        | none => do
            recoverStatement before
            return .again () id

theorem entriesTurn_walks (hn : nested.Walks) (x : Unit) :
    Parse.Walks anywhere Turn.passed (nested.entriesTurn x) := by
  have hitem : Parse.Walks anywhere (fun found => if found.isSome then 1 else 0) nested.item? := item?_walks hn
  have hstatement : Parse.Walks anywhere (fun _ => 1) nested.statement := statement_walks hn
  refine .dispatch fun t _ => ?_
  split
  · exact .pure rfl
  · rename_i hstop
    rw [Bool.or_eq_true, decide_eq_true_eq, decide_eq_true_eq, not_or] at hstop
    refine .ite ((known_walks hstop.2).bind fun _ => .pure rfl) fun s hs => ?_
    have hs : s.terminal ≠ .endOfInput := hs ▸ hstop.2
    show Ends (attempt nested.item? >>= _) s _ _
    rw [Ends.bind_iff]
    refine (hitem.attempt s trivial).mono (fun found t _ ht => ?_) fun _ _ _ ht => ht
    rcases found with _ | _ | i
    · exact recoverStatement_resumes.turn hs ht _ _
    · rw [Ends.bind_iff]
      refine (hstatement.attempt t trivial).mono (fun found u _ hu => ?_) fun _ _ _ hu => ht.trans hu
      have hu := Goes.further ht hu
      cases found with
      | some st => exact hu
      | none => exact recoverStatement_resumes.turn hs hu _ _
    · exact ht

theorem entries_loops (hn : nested.Walks) : Loops (fun bound _ => nested.entries bound) nested.entriesTurn where
  turns bound _ := by
    rw [entries, entriesTurn, bind_assoc]
    refine bind_congr fun t => ?_
    split
    · rfl
    · rfl
    · simp [Turn.follow]
    · rename_i hclose hend hsemi
      rw [decide_eq_false hclose, decide_eq_false hend, Bool.or_self, if_neg Bool.false_ne_true, if_neg hsemi]
      simp only [bind_assoc]
      refine bind_congr fun before => bind_congr fun found => ?_
      rcases found with _ | _ | i
      · simp [Turn.follow]
      · simp only [bind_assoc]
        refine bind_congr fun found => ?_
        cases found <;> simp [Turn.follow]
      · simp [Turn.follow]
  walks := entriesTurn_walks hn

theorem entries_walks (hn : nested.Walks) (bound : Nat) : Parse.Walks here (fun _ => 0) (nested.entries bound) :=
  ((entries_loops hn).forwards (fun _ => .throw) ()).anywhere

theorem braced_walks (hn : nested.Walks) : Parse.Walks here (fun _ => 1) nested.braced :=
  .read fun _ => freshId_walks.bind fun _ => (expect_walks _).bind fun _ => .read fun _ =>
    (entries_walks hn _).bind fun _ => .read fun _ => (expect_walks _).zero.bind fun _ => .read fun _ => .pure rfl

end Nested

theorem level_walks (depth : Nat) : (level depth).Walks := by
  induction depth with
  | zero => exact ⟨.throw, .throw, fun _ _ => .throw⟩
  | succ depth ih =>
    exact {
      block := Nested.braced_walks ih
      cond := Nested.conditions_walks ih
      operand := fun marks power => Nested.binary_walks ih marks power }

/-! ## Whole texts -/

def itemsTurn (nested : Nested) (_ : Unit) : Parser (Turn Unit (List Item)) := do
  if ← isAtEnd then return .done []
  let before ← remaining
  match ← attempt nested.item? with
  | some (some i) => return .again () (i :: ·)
  | some none => do
      unexpected .item
      recoverItem before
      return .again () id
  | none => do
      recoverItem before
      return .again () id

theorem itemsTurn_walks {nested : Nested} (hn : nested.Walks) (x : Unit) :
    Walks anywhere Turn.passed (itemsTurn nested x) := by
  have hitem : Walks anywhere (fun found => if found.isSome then 1 else 0) nested.item? := Nested.item?_walks hn
  have hreport : Walks anywhere (fun _ => 0) (unexpected .item) := unexpected_walks _
  unfold itemsTurn
  rw [isAtEnd_bind]
  refine .dispatch fun t _ => ?_
  split
  case isTrue => exact .pure rfl
  case isFalse hend =>
    intro s hs
    have hs : s.terminal ≠ .endOfInput := fun h => hend (decide_eq_true (hs ▸ h))
    show Ends (attempt nested.item? >>= _) s _ _
    rw [Ends.bind_iff]
    refine (hitem.attempt s trivial).mono (fun found t _ ht => ?_) fun _ _ _ ht => ht
    rcases found with _ | _ | i
    · exact recoverItem_resumes.turn hs ht _ _
    · rw [Ends.bind_iff]
      refine (hreport t trivial).mono (fun _ u _ hu => ?_) fun _ _ _ hu => ht.trans hu
      exact recoverItem_resumes.turn hs (ht.trans hu) _ _
    · exact ht

theorem items_loops {nested : Nested} (hn : nested.Walks) :
    Loops (fun bound _ => items nested bound) (itemsTurn nested) where
  turns bound _ := by
    rw [items, itemsTurn, bind_assoc]
    refine bind_congr fun ended => ?_
    cases ended with
    | true => rfl
    | false =>
      simp only [bind_assoc, Bool.false_eq_true, if_false]
      refine bind_congr fun before => bind_congr fun found => ?_
      rcases found with _ | _ | i <;> simp [Turn.follow]
  walks := itemsTurn_walks hn

theorem strayItems_walks (is : List Item) : Walks here (fun _ => 0) (is.forM fun i => report .strayItem i.span) := by
  induction is generalizing here with
  | nil => exact .pure rfl
  | cons i is ih => exact (report_walks _ _).bind fun _ => ih

def statementsTurn (nested : Nested) (_ : Unit) : Parser (Turn Unit (List Stmt)) := do
  let entries ← nested.entries ((← remaining) + 1)
  (entries.filterMap Entry.item?).forM fun i => report .strayItem i.span
  let stmts := entries.filterMap Entry.stmt?
  if ← isAtEnd then return .done stmts
  unexpected .statement
  advance
  return .again () (stmts ++ ·)

theorem statements_loops {nested : Nested} (hn : nested.Walks) :
    Loops (fun bound _ => statements nested bound) (statementsTurn nested) where
  turns bound _ := by
    rw [statements, statementsTurn]
    simp only [bind_assoc]
    refine bind_congr fun n => bind_congr fun es => bind_congr fun _ => bind_congr fun ended => ?_
    cases ended <;> simp [Turn.follow]
  walks _ := by
    refine .read fun n => (Nested.entries_walks hn _).bind fun es => (strayItems_walks _).bind fun _ => ?_
    rw [isAtEnd_bind]
    refine .dispatch fun t _ => ?_
    split
    case isTrue => exact .pure rfl
    case isFalse hend =>
      intro s hs
      have hs : s.terminal ≠ .endOfInput := fun h => hend (decide_eq_true (hs ▸ h))
      have hreport : Goes 0 s { s with problems := ⟨.unexpected .statement s.terminal, s.span⟩ :: s.problems } :=
        .of_eq rfl rfl
      exact hreport.further (.pass hs)

theorem items_walks {nested : Nested} (hn : nested.Walks) (bound : Nat) :
    Walks here (fun _ => 0) (items nested bound) :=
  ((items_loops hn).forwards (fun _ => .throw) ()).anywhere

theorem statements_walks {nested : Nested} (hn : nested.Walks) (bound : Nat) :
    Walks here (fun _ => 0) (statements nested bound) :=
  ((statements_loops hn).forwards (fun _ => .throw) ()).anywhere

/-- No production goes backwards, or behind the end of input. -/
theorem Production.walks {p : Parser α} (h : Production p) : Walks anywhere (fun _ => 0) p := by
  have hn := level_walks
  cases h with
  | expect p => exact (expect_walks p).zero
  | expectName => exact expectName_walks.zero
  | typeWithin bound => exact (typeWithin_walks bound).zero
  | type => exact type_walks.zero
  | param => exact param_walks.zero
  | header start => exact (header_walks start).zero
  | declaration => exact declaration_walks.zero
  | declarations bound => exact declarations_walks bound
  | «foreign» => exact foreign_walks.zero
  | call depth start callee => exact (Nested.call_walks (hn depth) start callee).zero
  | group depth start => exact (Nested.group_walks (hn depth) start).zero
  | returning depth start marks => exact Nested.returning_walks (hn depth) advance_walks start marks
  | blockLike depth => exact (Nested.blockLike_walks (hn depth)).zero
  | primary depth marks => exact (Nested.primary_walks (hn depth) marks).zero
  | unary depth marks => exact (Nested.unary_walks (hn depth) marks).zero
  | binary depth marks power => exact (Nested.binary_walks (hn depth) marks power).zero
  | expr depth marks => exact ((hn depth).operand marks 0).zero
  | conditions depth => exact (Nested.conditions_walks (hn depth)).zero
  | function depth => exact (Nested.function_walks (hn depth)).zero
  | item? depth => exact (Nested.item?_walks (hn depth)).zero
  | binding depth => exact (Nested.binding_walks (hn depth)).zero
  | exprStatement depth => exact (Nested.exprStatement_walks (hn depth)).zero
  | statement depth => exact (Nested.statement_walks (hn depth)).zero
  | entries depth bound => exact Nested.entries_walks (hn depth) bound
  | braced depth => exact (Nested.braced_walks (hn depth)).zero
  | items depth bound => exact items_walks (hn depth) bound
  | program => exact .read fun _ => .read fun n => (items_walks (hn _) _).bind fun _ => .read fun _ => .pure rfl
  | statements depth bound => exact statements_walks (hn depth) bound
  | statementList => exact .read fun n => statements_walks (hn _) _
  | expression =>
    exact .read fun n => ((hn _).operand [] 0).zero.bind fun _ => .read fun _ => .ite (.pure rfl) (failAt_walks _)

/-! ## Where parsing ends -/

theorem ends_of_forall {p : Parser α} {s : State} {good : α → State → Prop} (hgood : ∀ a t, good a t) :
    Ends p s good fun _ _ => True := by
  unfold Ends
  cases p s with
  | ok a t => exact hgood a t
  | error e t => trivial

/-- The loop goes on behind a step. -/
theorem ends_again {p : Parser β} {s : State} {good : State → Prop} {σ : Type} {x : σ} {finish : α → α} :
    Ends (do let _ ← p; return .again x finish) s (fun r t => ∀ a, r = Turn.done a → good t) fun _ _ => True := by
  rw [Ends.bind_iff]
  exact ends_of_forall fun _ _ _ h => nomatch h

/-- The items end at the end of input only. -/
theorem itemsTurn_ends (nested : Nested) (x : Unit) (s : State) :
    Ends (itemsTurn nested x) s (fun r t => ∀ is, r = .done is → t.terminal = .endOfInput) fun _ _ => True := by
  unfold itemsTurn
  rw [isAtEnd_bind, Ends.bind_iff]
  show Ends (if _ then _ else _ : Parser _) s _ _
  split
  case isTrue hend => exact fun _ _ => of_decide_eq_true hend
  case isFalse =>
    show Ends (attempt nested.item? >>= _) s _ _
    rw [Ends.bind_iff]
    refine ends_of_forall fun found t => ?_
    rcases found with _ | _ | i
    · exact ends_again
    · rw [Ends.bind_iff]
      exact ends_of_forall fun _ _ => ends_again
    · exact fun _ h => nomatch h

theorem statementsTurn_ends (nested : Nested) (x : Unit) (s : State) :
    Ends (statementsTurn nested x) s (fun r t => ∀ ss, r = .done ss → t.terminal = .endOfInput)
      fun _ _ => True := by
  unfold statementsTurn
  rw [Ends.bind_iff]
  refine ends_of_forall fun n t => ?_
  rw [Ends.bind_iff]
  refine ends_of_forall fun es u => ?_
  rw [Ends.bind_iff]
  refine ends_of_forall fun _ v => ?_
  rw [isAtEnd_bind, Ends.bind_iff]
  show Ends (if _ then _ else _ : Parser _) v _ _
  split
  case isTrue hend => exact fun _ _ => of_decide_eq_true hend
  case isFalse =>
    rw [Ends.bind_iff]
    exact ends_of_forall fun _ _ => ends_again

theorem ends_span {f : Span → Parser α} {s : State} {good : α → State → Prop} {bad : Abort → State → Prop}
    (h : Ends (f s.span) s good bad) : Ends (span >>= f) s good bad := h

theorem ends_remaining {f : Nat → Parser α} {s : State} {good : α → State → Prop} {bad : Abort → State → Prop}
    (h : Ends (f s.rest.length) s good bad) : Ends (remaining >>= f) s good bad := h

/-- Parsed as far as the text goes. -/
theorem program_ends (s : State) : Ends program s (fun _ t => t.terminal = .endOfInput) fun _ _ => True := by
  refine ends_span (ends_remaining ?_)
  rw [Ends.bind_iff]
  exact ((items_loops (level_walks _)).ends (itemsTurn_ends _) () (Nat.lt_succ_self _)).mono
    (fun _ _ _ ht => ht.2) fun _ _ _ _ => trivial

theorem statementList_ends (s : State) :
    Ends statementList s (fun _ t => t.terminal = .endOfInput) fun _ _ => True := by
  refine ends_remaining ?_
  exact ((statements_loops (level_walks _)).ends (statementsTurn_ends _) () (Nat.lt_succ_self _)).mono
    (fun _ _ _ ht => ht.2) fun _ _ _ _ => trivial

/-! ## Bounds -/

theorem Meets.ne_exhausted {start : List Token} {least : Nat} {same : α → α → Prop}
    {r : EStateM.Result Abort State α} (h : Meets start least same r r) (t : State) : r ≠ .error .exhausted t := by
  rintro rfl
  exact h.1.1 rfl

theorem strayItems_prolongs (c : Seam) (is : List Item) :
    Prolongs c (is.forM fun i => report .strayItem i.span) (is.forM fun i => report .strayItem i.span) := by
  induction is with
  | nil => exact .pure ()
  | cons i is ih => exact .bind (report_prolongs _ _) fun _ => ih

theorem statements_prolongs {c : Seam} {nested nested' : Nested} (hn : nested.Prolongs c nested') {n m : Nat}
    (hle : n ≤ m) : Prolongs c (statements nested n) (statements nested' m) := by
  have hc := c.le
  induction n generalizing m with
  | zero => exact .exhausted
  | succ n ih =>
    obtain ⟨m, rfl⟩ := Nat.exists_eq_succ_of_ne_zero (Nat.ne_zero_of_lt hle)
    unfold statements
    refine .remaining fun k l hkl => .bind (Nested.entries_prolongs hn (by omega)) fun es => ?_
    refine .bind (strayItems_prolongs c _) fun _ => .bind isAtEnd_prolongs fun _ => .ite (.pure _) ?_
    refine .bind (unexpected_prolongs _) fun _ => .bind advance_prolongs fun _ => ?_
    exact .bind (ih (Nat.le_of_succ_le_succ hle)) fun _ => .pure _

theorem program_agree {size : Nat} : Agree here size 0 (fun _ _ => True) program program :=
  still_span.bind fun _ _ _ => remaining_agree fun n _ =>
    (items_agree (grammar_agree (Nat.le_refl n) (Nat.le_refl n)) (Nat.lt_succ_self n) (Nat.lt_succ_self n)).bind
      fun _ _ _ _ => still_span.bind fun _ _ _ => .pure trivial

/-- Which bounds are great enough for the tokens that are left. -/
structure Suffices (s : State) (depth bound : Nat) : Prop where
  depth : 2 * s.rest.length + 2 ≤ depth
  bound : s.rest.length < bound

/-- Whatever bounds are great enough, the same comes of the items, and of the statements and the expression. -/
theorem Suffices.eq {s : State} {depth bound : Nat} (h : Suffices s depth bound) :
    items (level depth) bound s = items (grammar s.rest.length) (s.rest.length + 1) s ∧
      statements (level depth) bound s = statements (grammar s.rest.length) (s.rest.length + 1) s ∧
      (level depth).expr [] s = (grammar s.rest.length).expr [] s := by
  have hgrammar := grammar_agree (Nat.le_refl s.rest.length) (Nat.le_refl s.rest.length)
  have hless := Nat.lt_succ_self s.rest.length
  have hdepth : (grammar s.rest.length).Prolongs .none (level depth) := level_prolongs _ h.depth
  have hsame {α β : Type} {least : Nat} {same : α → β → Prop} {p : Parser α} {q : Parser β}
      (h : Agree anywhere s.rest.length least same p q) : Meets s.rest least same (p s) (q s) :=
    h s s (.refl s) trivial (Nat.le_refl _)
  exact ⟨(items_prolongs _ hdepth h.bound).eq (hsame (items_agree hgrammar hless hless)).ne_exhausted,
    (statements_prolongs hdepth h.bound).eq (hsame (statements_agree hgrammar hless hless)).ne_exhausted,
    (hdepth.operand [] 0).eq (hsame (hgrammar.operand _ hless [] 0)).ne_exhausted⟩

/-- The loops of the grammar, and those of the recoveries, with what is done in each turn. -/
inductive Loop (depth : Nat) : {σ α : Type} → (Nat → σ → Parser α) → (σ → Parser (Turn σ α)) → Prop
  | items : Loop depth (fun bound _ => items (level depth) bound) (itemsTurn (level depth))
  | statements : Loop depth (fun bound _ => statements (level depth) bound) (statementsTurn (level depth))
  | declarations : Loop depth (fun bound _ => declarations bound) declarationsTurn
  | entries : Loop depth (fun bound _ => (level depth).entries bound) (level depth).entriesTurn
  | operators (marks : List Punct) (power : Nat) :
      Loop depth ((level depth).operators marks power) ((level depth).operatorsTurn marks power)
  | params : Loop depth (commaList param) (commaTurn param)
  | types (bound : Nat) : Loop depth (commaList (typeWithin bound)) (commaTurn (typeWithin bound))
  | arguments : Loop depth (commaList ((level depth).expr [.comma, .rparen]))
      (commaTurn ((level depth).expr [.comma, .rparen]))
  | statementSkip : Loop depth (fun _ => skipping skipStatement) statementSkip
  | itemSkip : Loop depth (fun _ => skipping skipItem) itemSkip

theorem Loop.loops {depth : Nat} {σ : Type} {loop : Nat → σ → Parser α} {turn : σ → Parser (Turn σ α)}
    (h : Loop depth loop turn) : Loops loop turn := by
  have hn := level_walks depth
  cases h with
  | items => exact items_loops hn
  | statements => exact statements_loops hn
  | declarations => exact declarations_loops
  | entries => exact Nested.entries_loops hn
  | operators marks power => exact Nested.operators_loops hn marks power
  | params => exact commaList_loops param_walks.zero
  | types bound => exact commaList_loops (typeWithin_walks bound).zero
  | arguments => exact commaList_loops (hn.operand _ _).zero
  | statementSkip => exact statementSkip_loops
  | itemSkip => exact itemSkip_loops

/-- Whatever the tokens are, parsing comes to an end. No bound is met and greater ones change nothing, since each
turn of a loop passes a token unless it is the last one. What ends well has passed a token, a whole text is gone
through up to the end of input, and nothing goes backwards or behind that end. -/
theorem parsing_progresses :
    (∀ s t, program s ≠ .error .exhausted t ∧ statementList s ≠ .error .exhausted t ∧
      expression s ≠ .error .exhausted t) ∧
    (∀ s depth bound, Suffices s depth bound →
      items (level depth) bound s = items (grammar s.rest.length) (s.rest.length + 1) s ∧
        statements (level depth) bound s = statements (grammar s.rest.length) (s.rest.length + 1) s ∧
        (level depth).expr [] s = (grammar s.rest.length).expr [] s) ∧
    (∀ (depth : Nat) (σ α : Type) (loop : Nat → σ → Parser α) (turn : σ → Parser (Turn σ α)),
      Loop depth loop turn → Loops loop turn ∧
        ∀ s x n m, s.rest.length < n → s.rest.length < m → loop n x s = loop m x s) ∧
    (∀ depth, Walks anywhere (fun found => if found.isSome then 1 else 0) (level depth).item? ∧
      Walks anywhere (fun _ => 1) (level depth).statement ∧ Walks anywhere (fun _ => 1) (level depth).block ∧
      Walks anywhere (fun _ => 1) (typeWithin depth) ∧
      ∀ marks, Walks anywhere (fun _ => 1) ((level depth).expr marks)) ∧
    (∀ (α : Type) (p : Parser α), Production p → Walks anywhere (fun _ => 0) p) ∧
    ∀ s, Ends program s (fun _ t => t.terminal = .endOfInput) (fun _ _ => True) ∧
      Ends statementList s (fun _ t => t.terminal = .endOfInput) fun _ _ => True := by
  refine ⟨fun s t => ⟨?_, ?_, ?_⟩, fun _ _ _ h => h.eq, fun _ _ _ _ _ h => ⟨h.loops, ?_⟩, fun depth => ?_,
    fun _ _ h => h.walks, fun s => ⟨program_ends s, statementList_ends s⟩⟩
  · exact Agree.ne_exhausted (fun _ => program_agree) s t
  · exact Agree.ne_exhausted (fun _ => statementList_agree) s t
  · exact Agree.ne_exhausted (fun _ => expression_agree) s t
  · exact fun _ _ _ _ hn hm => h.loops.bound_free hn hm
  · have hn := level_walks depth
    exact ⟨Nested.item?_walks hn, Nested.statement_walks hn, hn.block, typeWithin_walks depth,
      fun marks => hn.operand marks 0⟩

/-- A text that goes on behind an end of input, with a mistake in it that is looked for behind all braces. -/
theorem parsing_progresses_malformed :
    let s : State := { rest := (Lexer.read 0 "fn f( \x7b a + \x7d \x7d").tokens ++ (Lexer.read 0 "fn g").tokens }
    Suffices s 30 14 ∧ items (level 30) 14 s = items (grammar s.rest.length) (s.rest.length + 1) s ∧
      Loop 30 (fun _ => skipping skipItem) itemSkip ∧ Loops (fun _ => skipping skipItem) itemSkip ∧
      Production program ∧ Walks anywhere (fun _ => 0) program := by
  intro s
  obtain ⟨-, hbounds, hloops, -, hwalks, -⟩ := parsing_progresses
  have hs : Suffices s 30 14 := ⟨by decide +kernel, by decide +kernel⟩
  exact ⟨hs, (hbounds s 30 14 hs).1, .itemSkip, (hloops 30 Nat Unit _ _ .itemSkip).1, .program,
    hwalks _ program .program⟩

end Ferrite.Parse
