import Ferrite.Proofs.Decimal.Layout
import Ferrite.Proofs.Lexer.Slice

/-!
What integers denote: the number that their digits spell in their base, cut to the bits of the type
behind them. Numbers of more than 64 bits are refused.
-/

namespace Ferrite.Lexer

/-! ## Digits -/

/-- The character is this digit. Letters count on from nine, in either case. -/
def IsDigit (base : Nat) (c : Char) (d : Nat) : Prop :=
  d < base ∧ (c = Nat.digitChar d ∨ c = (Nat.digitChar d).toUpper)

/-- Apart from underscores the characters are these digits. -/
inductive SpellsDigits (base : Nat) : List Char → List Nat → Prop
  | nil : SpellsDigits base [] []
  | underscore {cs : List Char} {ds : List Nat} (h : SpellsDigits base cs ds) :
      SpellsDigits base ('_' :: cs) ds
  | digit {c : Char} {d : Nat} {cs : List Char} {ds : List Nat} (hc : IsDigit base c d)
      (h : SpellsDigits base cs ds) : SpellsDigits base (c :: cs) (d :: ds)

theorem digit?_of_isDigit {base : Nat} {c : Char} {d : Nat} (hbase : base ≤ 16) (h : IsDigit base c d) :
    digit? base c = some d := by
  have hall : ∀ d : Fin 16, digit? 16 (Nat.digitChar d) = some d.val ∧
      digit? 16 (Nat.digitChar d).toUpper = some d.val := by decide
  have hd : digit? 16 c = some d := by
    obtain ⟨hlower, hupper⟩ := hall ⟨d, Nat.lt_of_lt_of_le h.1 hbase⟩
    rcases h.2 with rfl | rfl
    · exact hlower
    · exact hupper
  obtain ⟨hvalue, -⟩ := Option.filter_eq_some_iff.mp hd
  exact Option.filter_eq_some_iff.mpr ⟨hvalue, decide_eq_true h.1⟩

theorem isDigit_of_base_ten {c : Char} {d : Nat} (h : IsDigit 10 c d) : c.isDigit = true := by
  have hall : ∀ d : Fin 10, (Nat.digitChar d).isDigit = true ∧ (Nat.digitChar d).toUpper.isDigit = true := by
    decide
  obtain ⟨hlower, hupper⟩ := hall ⟨d, h.1⟩
  rcases h.2 with rfl | rfl
  · exact hlower
  · exact hupper

theorem isDigit_digitValue {c : Char} (h : c.isDigit = true) : IsDigit 10 c (Decimal.digitValue c) := by
  obtain ⟨hlow, -⟩ := Char.isDigit_iff_toNat.mp h
  refine ⟨Decimal.digitValue_lt h, .inl (Char.toNat_inj.mp ?_)⟩
  rw [Nat.toNat_digitChar_of_lt_ten (Decimal.digitValue_lt h)]
  exact (Nat.add_sub_of_le hlow).symm

namespace SpellsDigits

variable {base : Nat} {run : List Char} {ds : List Nat}

theorem filterMap_digit? (h : SpellsDigits base run ds) (hbase : base ≤ 16) :
    run.filterMap (digit? base) = ds := by
  induction h with
  | nil => rfl
  | underscore _ ih => exact ih
  | digit hc _ ih => rw [List.filterMap_cons_some (digit?_of_isDigit hbase hc), ih]

theorem isRun (h : SpellsDigits base run ds) (hbase : base ≤ 16) : ∀ c ∈ run, isRun base c = true := by
  induction h with
  | nil => simp
  | underscore _ ih => exact List.forall_mem_cons.mpr ⟨by simp [Lexer.isRun], ih⟩
  | digit hc _ ih => exact List.forall_mem_cons.mpr ⟨by simp [Lexer.isRun, digit?_of_isDigit hbase hc], ih⟩

theorem of_decimal (h : ∀ c ∈ run, c.isDigit = true) : SpellsDigits 10 run (run.map Decimal.digitValue) := by
  induction run with
  | nil => exact .nil
  | cons c run ih =>
    rw [List.forall_mem_cons] at h
    exact .digit (isDigit_digitValue h.1) (ih h.2)

end SpellsDigits

/-- The number with these digits, the highest one first. -/
def numberOf (base : Nat) (ds : List Nat) : Nat := Nat.ofDigits base ds.reverse

theorem numberOf_concat (base : Nat) (ds : List Nat) (d : Nat) :
    numberOf base (ds ++ [d]) = numberOf base ds * base + d := by
  rw [numberOf, List.reverse_concat, Nat.ofDigits_cons, numberOf, Nat.mul_comm, Nat.add_comm]

theorem numberOf_decimal (run : List Char) :
    numberOf 10 (run.map Decimal.digitValue) = Decimal.natOfDigits run := by
  induction run using List.reverseRecOn with
  | nil => rfl
  | append_singleton run c ih =>
    rw [List.map_append, List.map_singleton, numberOf_concat, ih]
    simp [Decimal.natOfDigits, Nat.mul_comm]

theorem digits_add (base : Nat) (t : Tally) (d : Nat) : (t.add base d).digits = t.digits + 1 := by
  unfold Tally.add
  dsimp only
  split <;> rfl

theorem overflow_add {base : Nat} {t : Tally} {d : Nat}
    (h : t.overflow = true ∨ UInt64.size ≤ t.value * base + d) : (t.add base d).overflow = true := by
  unfold Tally.add
  dsimp only
  split
  · exact h.resolve_right (Nat.not_le.mpr ‹_›)
  · rfl

/-- The digits are counted up to their number, as long as that has room in 64 bits. A fault on the way
is kept. -/
theorem foldl_tally {base : Nat} (hbase : 0 < base) (ds : List Nat) :
    (ds.foldl (Tally.add base) {}).digits = ds.length ∧
      (numberOf base ds < UInt64.size → ds.foldl (Tally.add base) {} = ⟨numberOf base ds, ds.length, false⟩) ∧
      (UInt64.size ≤ numberOf base ds → (ds.foldl (Tally.add base) {}).overflow = true) := by
  induction ds using List.reverseRecOn with
  | nil => exact ⟨rfl, fun _ => rfl, fun h => absurd h (by simp [numberOf])⟩
  | append_singleton ds d ih =>
    obtain ⟨hcount, hfits, hover⟩ := ih
    rw [List.foldl_append, List.foldl_cons, List.foldl_nil, numberOf_concat, List.length_append,
      List.length_singleton]
    have hmul : numberOf base ds ≤ numberOf base ds * base := Nat.le_mul_of_pos_right _ hbase
    refine ⟨by rw [digits_add, hcount], fun hlt => ?_, fun hle => overflow_add ?_⟩
    · rw [hfits (by omega), Tally.add]
      exact if_pos hlt
    · by_cases hbefore : UInt64.size ≤ numberOf base ds
      · exact .inl (hover hbefore)
      · rw [hfits (Nat.not_le.mp hbefore)]
        exact .inr hle

/-! ## Integers -/

/-- An integer as it is written. Without a base in front it starts with a digit, and without a type
behind it its type is the default one. -/
structure IntegerText where
  base : Nat
  head : List Char
  run : List Char
  digits : List Nat
  suffix : List Char
  type : IntTy
  isBase : (base, head) ∈ [(10, []), (2, ['0', 'b']), (8, ['0', 'o']), (16, ['0', 'x'])]
  spells : SpellsDigits base run digits
  hasDigit : digits ≠ []
  starts : base = 10 → run.head? ≠ some '_'
  isSuffix : suffix = [] ∧ type = .i32 ∨ suffix = type.name.toList

namespace IntegerText

def spelling (w : IntegerText) : List Char := w.head ++ w.run

def text (w : IntegerText) : List Char := w.spelling ++ w.suffix

def value (w : IntegerText) : Nat := numberOf w.base w.digits

theorem base_bounds (w : IntegerText) : 0 < w.base ∧ w.base ≤ 16 := by
  have hmem := w.isBase
  simp only [List.mem_cons, List.not_mem_nil, or_false, Prod.mk.injEq] at hmem
  omega

theorem spelled (w : IntegerText) : IntegerSpelled w.base w.head w.run w.suffix where
  isHead := by
    obtain ⟨base, head, run, ds, suffix, type, hbase, hspells, hds, hstarts, -⟩ := w
    refine (List.mem_cons.mp hbase).imp (fun hten => ?_) id
    cases hten
    refine ⟨rfl, rfl, ?_⟩
    cases hspells with
    | nil => exact absurd rfl hds
    | underscore => exact absurd rfl (hstarts rfl)
    | digit hc _ => exact ⟨_, rfl, isDigit_of_base_ten hc⟩
  isRun := w.spells.isRun w.base_bounds.2
  isSuffix := w.isSuffix.imp And.left fun h => ⟨_, h⟩

theorem starts_digit (w : IntegerText) : ∃ c ∈ w.text.head?, c.isDigit = true := by
  rcases w.spelled.isHead with ⟨-, hhead, c, hc, hdigit⟩ | hmem
  · refine ⟨c, ?_, hdigit⟩
    obtain ⟨r, hr⟩ := List.head?_eq_some_iff.mp hc
    simp [text, spelling, hhead, hr]
  · refine ⟨'0', ?_, rfl⟩
    simp only [List.mem_cons, List.not_mem_nil, or_false, Prod.mk.injEq] at hmem
    rcases hmem with ⟨-, hhead⟩ | ⟨-, hhead⟩ | ⟨-, hhead⟩ <;> simp [text, spelling, hhead]

theorem suffixType_eq (w : IntegerText) : suffixType w.suffix = (w.type, none) := by
  rcases w.isSuffix with ⟨hsuffix, htype⟩ | hsuffix
  · rw [hsuffix, htype]
    rfl
  · rw [hsuffix]
    cases w.type <;> rfl

/-- The problem with the number, if there is one: it has no room in 64 bits, or none in its type. -/
def faults (w : IntegerText) : List Fault :=
  if UInt64.size ≤ w.value then [⟨.tooLarge, 0, Text.width w.spelling⟩]
  else if w.type.greatest < w.value then [⟨.outOfRange w.type, 0, Text.width w.text⟩]
  else []

theorem faults_large {w : IntegerText} (h : UInt64.size ≤ w.value) :
    w.faults = [⟨.tooLarge, 0, Text.width w.spelling⟩] := by
  unfold faults
  exact if_pos h

theorem faults_small {w : IntegerText} (h : w.value < UInt64.size) :
    w.faults = if w.type.greatest < w.value then [⟨.outOfRange w.type, 0, Text.width w.text⟩] else [] := by
  unfold faults
  exact if_neg (Nat.not_le.mpr h)

/-- The whole text is one literal, and its value that of the digits where 64 bits hold it. -/
theorem integer_eq (w : IntegerText) :
    ∃ value, integer w.base w.spelling w.run w.suffix = .whole w.text (.literal value) w.faults ∧
      (w.value < UInt64.size → value = .ofNat w.type w.value) := by
  have htally : tally w.base w.run = w.digits.foldl (Tally.add w.base) {} := by
    rw [tally, w.spells.filterMap_digit? w.base_bounds.2]
  obtain ⟨hcount, hfits, hover⟩ := foldl_tally w.base_bounds.1 w.digits
  have hdigits : w.digits.length ≠ 0 := by simpa using w.hasDigit
  refine ⟨.ofNat w.type (tally w.base w.run).value, ?_, fun hlt => by rw [htally, hfits hlt]; rfl⟩
  rcases Nat.lt_or_ge w.value UInt64.size with hsmall | hlarge
  · rw [faults_small hsmall]
    simp [integer, w.suffixType_eq, htally, hfits hsmall, hdigits, text, value]
  · rw [faults_large hlarge]
    simp [integer, w.suffixType_eq, htally, hcount, hdigits, hover hlarge, text]

/-- The text is read as the literal wherever something stands behind it that does not prolong it. -/
theorem number_eq (w : IntegerText) {r : List Char} (hr : Quiet r) :
    number (w.text ++ r) = ⟨integer w.base w.spelling w.run w.suffix, r⟩ := by
  have hnumber := number_integer w.spelled hr
  simpa only [text, spelling, List.append_assoc] using hnumber

theorem lexemes_eq (w : IntegerText) : lexemes w.text = [integer w.base w.spelling w.run w.suffix] := by
  obtain ⟨c, hc, hdigit⟩ := w.starts_digit
  obtain ⟨r, hr⟩ := List.head?_eq_some_iff.mp hc
  have hnumber := w.number_eq (r := []) (by simp [Quiet])
  rw [List.append_nil, hr] at hnumber
  rw [hr, lexemes, scan_number hdigit, hnumber, lexemes]

end IntegerText

/-! ## Integers as they are shown -/

theorem toNat_le_greatest_iff {t : IntTy} {bits : BitVec t.width} :
    bits.toNat ≤ t.greatest ↔ 0 ≤ Literal.intValue t bits := by
  have hlt := bits.isLt
  unfold Literal.intValue
  split
  · rename_i hsigned
    rw [BitVec.toInt_pos_iff, IntTy.greatest, if_pos hsigned]
    cases t <;> first | contradiction | (simp only [IntTy.width, Nat.pow_eq] at hlt ⊢; omega)
  · rename_i hsigned
    rw [IntTy.greatest, if_neg hsigned]
    exact iff_of_true (Nat.le_sub_one_of_lt hlt) (Int.natCast_nonneg _)

/-- The type behind an integer, which goes without saying where it is the default one. -/
def suffixOf (t : IntTy) : List Char := if t = .i32 then [] else t.name.toList

theorem display_int {t : IntTy} {bits : BitVec t.width} (h : 0 ≤ Literal.intValue t bits) :
    (Literal.int t bits).display.toList = Nat.toDigits 10 bits.toNat ++ suffixOf t := by
  have hvalue : Literal.intValue t bits = bits.toNat := by
    unfold Literal.intValue at h ⊢
    split
    · rename_i hsigned
      rw [if_pos hsigned] at h
      exact BitVec.toInt_eq_toNat_of_lt (BitVec.toInt_pos_iff.mp h)
    · rfl
  have htext : (toString (Literal.intValue t bits)).toList = Nat.toDigits 10 bits.toNat := by
    rw [hvalue, Decimal.toString_ofNat]
  cases t <;> simp only [Literal.display, String.toList_append, htext] <;> simp [suffixOf]

/-- How an integer that is not negative is shown. -/
def IntegerText.shown (t : IntTy) (bits : BitVec t.width) : IntegerText where
  base := 10
  head := []
  run := Nat.toDigits 10 bits.toNat
  digits := (Nat.toDigits 10 bits.toNat).map Decimal.digitValue
  suffix := suffixOf t
  type := t
  isBase := List.mem_cons_self
  spells := .of_decimal Decimal.isDigit_of_mem_toDigits
  hasDigit := by simp [Nat.toDigits_ne_nil]
  starts _ h := by
    have hdigit := Decimal.isDigit_of_mem_toDigits _ (List.mem_of_mem_head? h)
    revert hdigit
    decide
  isSuffix := by
    unfold suffixOf
    split
    · exact .inl ⟨rfl, ‹_›⟩
    · exact .inr rfl

theorem IntegerText.value_shown (t : IntTy) (bits : BitVec t.width) : (shown t bits).value = bits.toNat := by
  change numberOf 10 ((Nat.toDigits 10 bits.toNat).map Decimal.digitValue) = bits.toNat
  rw [numberOf_decimal, Decimal.natOfDigits_toDigits]

/-- An integer that is not negative is shown as a text that denotes it. -/
theorem IntegerText.integer_shown {t : IntTy} {bits : BitVec t.width} (h : 0 ≤ Literal.intValue t bits) :
    integer 10 (shown t bits).spelling (shown t bits).run (shown t bits).suffix =
      .whole (shown t bits).text (.literal (.int t bits)) := by
  have hvalue := value_shown t bits
  have hle := toNat_le_greatest_iff.mpr h
  have hlt : bits.toNat < UInt64.size := Nat.lt_of_le_of_lt hle (by cases t <;> decide)
  obtain ⟨value, hinteger, hnumber⟩ := (shown t bits).integer_eq
  have hfaults : (shown t bits).faults = [] := by
    rw [faults_small (hvalue ▸ hlt), hvalue]
    exact if_neg (Nat.not_lt.mpr hle)
  have hliteral : value = .int t bits := by
    rw [hnumber (hvalue ▸ hlt), hvalue]
    change Literal.ofNat t bits.toNat = _
    rw [Literal.ofNat, BitVec.ofNat_toNat, BitVec.setWidth_eq]
  rw [hfaults, hliteral] at hinteger
  exact hinteger

/-! ## Whole texts -/

/-- A text of one lexeme. -/
theorem read_one {cs : List Char} {terminal : Terminal} {faults : List Fault}
    (h : lexemes cs = [.whole cs terminal faults]) (file : FileId) :
    read file (String.ofList cs) =
      { tokens := [⟨terminal, ⟨file, 0, Text.width cs⟩⟩,
          ⟨.endOfInput, ⟨file, Text.width cs, Text.width cs⟩⟩]
        problems := faults.map (·.place file 0) } := by
  simp [read, String.toList_ofList, h, tokensAt, problemsAt, Lexeme.whole, Lexeme.width]

end Ferrite.Lexer
