import Mathlib.Data.List.TakeWhile
import Ferrite.Lexer.Lossless

/-!
How numbers are spelled. What stands behind a number does not matter, as long as it does not prolong
it.
-/

namespace Ferrite.Lexer

/-- Nothing comes next that would prolong a name or a number. -/
def Quiet (r : List Char) : Prop := ∀ d ∈ r.head?, isNamePart d = false ∧ d ≠ '.'

theorem quiet_cons {d : Char} {r : List Char} : Quiet (d :: r) ↔ isNamePart d = false ∧ d ≠ '.' := by
  simp [Quiet]

/-- The characters end where the next one does not satisfy the condition. -/
theorem takeWhile_append_stop {p : Char → Bool} {a b : List Char} (ha : ∀ c ∈ a, p c = true)
    (hb : ∀ d ∈ b.head?, p d = false) : (a ++ b).takeWhile p = a ∧ (a ++ b).dropWhile p = b := by
  rw [List.takeWhile_append_of_pos ha, List.dropWhile_append_of_pos ha]
  cases b with
  | nil => simp
  | cons d b =>
    have hd := hb d rfl
    simp [hd]

theorem isNamePart_of_isRun {base : Nat} {c : Char} (h : isRun base c = true) : isNamePart c = true := by
  rw [isRun, Bool.or_eq_true] at h
  rcases h with h | h
  · unfold digit? at h
    change (c.isUpper || c.isLower || decide (c = '_') || c.isDigit) = true
    simp only [Bool.or_eq_true]
    split at h
    · exact .inr ‹_›
    split at h
    · exact .inl (.inl (.inr ‹_›))
    split at h
    · exact .inl (.inl (.inl ‹_›))
    · cases h
  · simp only [decide_eq_true_eq] at h
    subst h
    rfl

theorem Quiet.not_name {r : List Char} (h : Quiet r) : ∀ d ∈ r.head?, isNamePart d = false :=
  fun d hd => (h d hd).1

/-- Neither a point nor an exponent comes next. -/
theorem starts_nothing {cs : List Char} (h : ∀ d ∈ cs.head?, d ∉ ['.', 'e', 'E']) :
    startsPlaces cs = false ∧ startsExponent cs = false ∧ startsFraction cs = false := by
  cases cs with
  | nil => exact ⟨rfl, rfl, rfl⟩
  | cons d cs =>
    have hd := h d rfl
    simp only [List.mem_cons, List.not_mem_nil, or_false, not_or] at hd
    refine ⟨by simp [startsPlaces, hd], by simp [startsExponent, hd], ?_⟩
    unfold startsFraction
    split
    · rename_i heq
      exact absurd (List.cons.inj heq).1 hd.1
    · rfl

/-! ## Integers -/

/-- The parts of an integer. Only with a base in front it may start with something else than a digit. -/
structure IntegerSpelled (base : Nat) (head run suffix : List Char) : Prop where
  isHead : base = 10 ∧ head = [] ∧ (∃ c ∈ run.head?, c.isDigit = true) ∨
    (base, head) ∈ [(2, ['0', 'b']), (8, ['0', 'o']), (16, ['0', 'x'])]
  isRun : ∀ c ∈ run, isRun base c = true
  isSuffix : suffix = [] ∨ ∃ t : IntTy, suffix = t.name.toList

theorem IntegerSpelled.base {base : Nat} {head run suffix : List Char} (h : IntegerSpelled base head run suffix) :
    base = 10 ∨ base = 2 ∨ base = 8 ∨ base = 16 := by
  rcases h.isHead with ⟨rfl, -⟩ | hmem
  · exact .inl rfl
  · simp only [List.mem_cons, List.not_mem_nil, or_false, Prod.mk.injEq] at hmem
    rcases hmem with ⟨rfl, -⟩ | ⟨rfl, -⟩ | ⟨rfl, -⟩ <;> simp

/-- Without a letter behind the first digit there is no base in front. -/
theorem splitBase_plain {cs : List Char} (h : ∀ d ∈ cs.tail.head?, d ∉ ['b', 'o', 'x']) :
    splitBase cs = (10, [], cs) := by
  unfold splitBase
  split
  · exact absurd (by simp) (h 'b' rfl)
  · exact absurd (by simp) (h 'o' rfl)
  · exact absurd (by simp) (h 'x' rfl)
  · rfl

theorem splitBase_run {run r : List Char} (hrun : ∀ c ∈ run, isRun 10 c = true) (hne : run ≠ [])
    (hr : ∀ d ∈ r.head?, d ∉ ['b', 'o', 'x']) : splitBase (run ++ r) = (10, [], run ++ r) := by
  refine splitBase_plain ?_
  obtain ⟨c, run, rfl⟩ := List.exists_cons_of_ne_nil hne
  cases run with
  | nil => exact hr
  | cons d run =>
    rintro _ ⟨rfl⟩ hmem
    have hd := hrun d (by simp)
    simp only [List.mem_cons, List.not_mem_nil, or_false] at hmem
    rcases hmem with rfl | rfl | rfl <;> revert hd <;> decide

/-- Behind the digits of an integer comes the name of a type, or something quiet. -/
theorem suffix_head {suffix r : List Char} (h : suffix = [] ∨ ∃ t : IntTy, suffix = t.name.toList)
    (hr : Quiet r) :
    ∀ d ∈ (suffix ++ r).head?, d ∈ ['i', 'u'] ∨ isNamePart d = false ∧ d ≠ '.' := by
  rcases h with rfl | ⟨t, rfl⟩
  · exact fun d hd => .inr (hr d hd)
  · intro d hd
    left
    cases t <;> (obtain rfl : _ = d := Option.some.inj hd; decide)

theorem name_isNamePart (t : IntTy) : ∀ c ∈ t.name.toList, isNamePart c = true :=
  List.all_eq_true.mp (by cases t <;> rfl)

/-- An integer ends behind its suffix. -/
theorem number_integer {base : Nat} {head run suffix r : List Char}
    (h : IntegerSpelled base head run suffix) (hr : Quiet r) :
    number (head ++ (run ++ (suffix ++ r))) = ⟨integer base (head ++ run) run suffix, r⟩ := by
  have hnext := suffix_head h.isSuffix hr
  have hbase : splitBase (head ++ (run ++ (suffix ++ r))) = (base, head, run ++ (suffix ++ r)) := by
    rcases h.isHead with ⟨rfl, rfl, c, hc, -⟩ | hmem
    · change splitBase (run ++ (suffix ++ r)) = (10, [], run ++ (suffix ++ r))
      refine splitBase_run h.isRun (by rintro rfl; cases hc) fun d hd hmem => ?_
      simp only [List.mem_cons, List.not_mem_nil, or_false] at hmem
      rcases hnext d hd with hin | ⟨hname, -⟩
      · rcases hmem with rfl | rfl | rfl <;> revert hin <;> decide
      · rcases hmem with rfl | rfl | rfl <;> revert hname <;> decide
    · simp only [List.mem_cons, List.not_mem_nil, or_false, Prod.mk.injEq] at hmem
      rcases hmem with ⟨rfl, rfl⟩ | ⟨rfl, rfl⟩ | ⟨rfl, rfl⟩ <;> rfl
  have hstop : ∀ d ∈ (suffix ++ r).head?, isRun base d = false := by
    intro d hd
    rcases hnext d hd with hin | ⟨hname, -⟩
    · simp only [List.mem_cons, List.not_mem_nil, or_false] at hin
      rcases h.base with rfl | rfl | rfl | rfl <;> rcases hin with rfl | rfl <;> rfl
    · rw [Bool.eq_false_iff]
      intro hrun
      exact Bool.noConfusion ((isNamePart_of_isRun hrun).symm.trans hname)
  obtain ⟨htake, hdrop⟩ := takeWhile_append_stop h.isRun hstop
  have hdot : ∀ d ∈ (suffix ++ r).head?, d ∉ ['.', 'e', 'E'] := by
    intro d hd hmem
    simp only [List.mem_cons, List.not_mem_nil, or_false] at hmem
    rcases hnext d hd with hin | ⟨hname, hpoint⟩
    · rcases hmem with rfl | rfl | rfl <;> revert hin <;> decide
    · rcases hmem with rfl | rfl | rfl
      · exact hpoint rfl
      · revert hname; decide
      · revert hname; decide
  obtain ⟨hplaces, hexponent, hfraction⟩ := starts_nothing hdot
  have hname : ∀ c ∈ suffix, isNamePart c = true := by
    rcases h.isSuffix with rfl | ⟨t, rfl⟩
    · simp
    · exact name_isNamePart t
  obtain ⟨hsuffix, hrest⟩ := takeWhile_append_stop hname hr.not_name
  simp only [number, hbase, htake, hdrop, hplaces, hexponent, hfraction, hsuffix, hrest, Bool.or_self,
    Bool.and_false, Bool.false_eq_true, if_false]

/-! ## Decimal numbers -/

/-- The decimal number of these parts. -/
def decimal (whole places power suffix : List Char) : Lexeme :=
  let spelled := whole ++ places ++ power
  let text := spelled ++ suffix
  let name := String.ofList suffix
  let type := if name = FloatTy.f32.name then FloatTy.f32 else .f64
  let suffixFaults :=
    if suffix = [] || name = type.name then []
    else [⟨.floatSuffix name, Text.width spelled, Text.width text⟩]
  let (value, problems) := floatValue type spelled
  .whole text (.literal value) (suffixFaults ++ problems.map fun p => ⟨p, 0, Text.width text⟩)

theorem float_eq_decimal (whole rest : List Char) :
    float whole rest =
      ⟨decimal whole (splitPlaces rest).1 (splitExponent (splitPlaces rest).2).1
        ((splitExponent (splitPlaces rest).2).2.takeWhile isNamePart),
        (splitExponent (splitPlaces rest).2).2.dropWhile isNamePart⟩ := rfl

theorem numeralText_eq_self {cs : List Char} (h : ∀ c ∈ cs, c ≠ '_' ∧ c ≠ 'E') : numeralText cs = cs := by
  have hfilter : cs.filter (· ≠ '_') = cs := List.filter_eq_self.mpr fun c hc => decide_eq_true (h c hc).1
  rw [numeralText, hfilter, List.map_congr_left fun c hc => if_neg (h c hc).2, List.map_id']

/-- What follows the digits makes a number a decimal one. -/
theorem number_decimal {cs : List Char} (hbase : splitBase cs = (10, [], cs))
    (h : startsPlaces (cs.dropWhile (isRun 10)) = true ∨ startsExponent (cs.dropWhile (isRun 10)) = true) :
    number cs = float (cs.takeWhile (isRun 10)) (cs.dropWhile (isRun 10)) := by
  simp only [number, hbase, Bool.or_eq_true_iff.mpr h, decide_true, Bool.and_self, if_true, rescan]

/-- The parts of a decimal number. Of its places and its power it has one at least. -/
structure FloatSpelled (whole places power suffix : List Char) : Prop where
  startsDigit : ∃ c ∈ whole.head?, c.isDigit = true
  isWhole : ∀ c ∈ whole, isRun 10 c = true
  isPlaces : places = [] ∨ startsPlaces (places ++ (power ++ suffix)) = true ∧
    ∃ run, places = '.' :: run ∧ ∀ c ∈ run, isRun 10 c = true
  isPower : power = [] ∨ startsExponent power = true ∧
    ∃ c d run, power = c :: d :: run ∧ ∀ c ∈ run, isRun 10 c = true
  some : places ≠ [] ∨ power ≠ []
  isSuffix : suffix = [] ∨ ∃ t : FloatTy, suffix = t.name.toList

theorem startsPlaces_append {a r : List Char} (h : startsPlaces a = true) (hr : Quiet r) :
    startsPlaces (a ++ r) = true := by
  match a, h with
  | [c], h =>
    obtain rfl : c = '.' := by simpa [startsPlaces] using h
    cases r with
    | nil => rfl
    | cons d r =>
      obtain ⟨hname, hdot⟩ := quiet_cons.mp hr
      have hstart : isNameStart d = false := by
        rw [isNamePart, Bool.or_eq_false_iff] at hname
        exact hname.1
      simp [startsPlaces, hdot, hstart]
  | _ :: _ :: _, h => exact h

theorem startsExponent_append {a r : List Char} (h : startsExponent a = true) :
    startsExponent (a ++ r) = true := by
  match a, h with
  | [c], h => simp [startsExponent, startsPower] at h
  | [c, d], h =>
    have hpower : startsPower [d] = true := (Bool.and_eq_true_iff.mp h).2
    have hdigit : d.isDigit = true := by simpa [startsPower] using hpower
    simp only [startsExponent, startsPower, hdigit, Bool.true_or, Bool.and_true, List.cons_append,
      List.nil_append] at h ⊢
    exact h
  | _ :: _ :: _ :: _, h => exact h

theorem splitPlaces_none {cs : List Char} (h : startsPlaces cs = false) : splitPlaces cs = ([], cs) := by
  cases cs with
  | nil => rfl
  | cons c cs => simp [splitPlaces, h]

theorem splitPlaces_run {run r : List Char} (h : startsPlaces ('.' :: (run ++ r)) = true)
    (hrun : ∀ c ∈ run, isRun 10 c = true) (hr : ∀ d ∈ r.head?, isRun 10 d = false) :
    splitPlaces ('.' :: (run ++ r)) = ('.' :: run, r) := by
  obtain ⟨htake, hdrop⟩ := takeWhile_append_stop hrun hr
  simp only [splitPlaces, h, if_true, htake, hdrop]

theorem splitExponent_none {cs : List Char} (h : startsExponent cs = false) : splitExponent cs = ([], cs) := by
  match cs, h with
  | [], _ => rfl
  | [_], _ => rfl
  | _ :: _ :: _, h => simp [splitExponent, h]

theorem splitExponent_run {c d : Char} {run r : List Char} (h : startsExponent (c :: d :: run) = true)
    (hrun : ∀ c ∈ run, isRun 10 c = true) (hr : ∀ d ∈ r.head?, isRun 10 d = false) :
    splitExponent (c :: d :: (run ++ r)) = (c :: d :: run, r) := by
  obtain ⟨htake, hdrop⟩ := takeWhile_append_stop hrun hr
  have hstart : startsExponent (c :: d :: (run ++ r)) = true := startsExponent_append h
  simp only [splitExponent, hstart, if_true, htake, hdrop]

namespace FloatSpelled

variable {whole places power suffix r : List Char}

theorem suffix_head (h : FloatSpelled whole places power suffix) (hr : Quiet r) :
    ∀ d ∈ (suffix ++ r).head?, d = 'f' ∨ isNamePart d = false ∧ d ≠ '.' := by
  rcases h.isSuffix with rfl | ⟨t, rfl⟩
  · exact fun d hd => .inr (hr d hd)
  · intro d hd
    left
    cases t <;> exact (Option.some.inj hd).symm

theorem suffix_not_run (h : FloatSpelled whole places power suffix) (hr : Quiet r) :
    ∀ d ∈ (suffix ++ r).head?, isRun 10 d = false := by
  intro d hd
  rcases h.suffix_head hr d hd with rfl | ⟨hname, -⟩
  · rfl
  · rw [Bool.eq_false_iff]
    intro hrun
    exact Bool.noConfusion ((isNamePart_of_isRun hrun).symm.trans hname)

theorem startsExponent_suffix (h : FloatSpelled whole places power suffix) (hr : Quiet r) :
    startsExponent (suffix ++ r) = false := by
  refine (starts_nothing fun d hd hmem => ?_).2.1
  simp only [List.mem_cons, List.not_mem_nil, or_false] at hmem
  rcases h.suffix_head hr d hd with rfl | ⟨hname, hdot⟩
  · revert hmem; decide
  · rcases hmem with rfl | rfl | rfl
    · exact hdot rfl
    · revert hname; decide
    · revert hname; decide

/-- An exponent starts with its letter. -/
theorem head_of_startsExponent {c : Char} {cs : List Char} (h : startsExponent (c :: cs) = true) :
    c = 'e' ∨ c = 'E' := by
  have hletter := (Bool.and_eq_true_iff.mp h).1
  simpa using hletter

theorem splitExponent_eq (h : FloatSpelled whole places power suffix) (hr : Quiet r) :
    splitExponent (power ++ (suffix ++ r)) = (power, suffix ++ r) := by
  rcases h.isPower with rfl | ⟨hstart, c, d, run, rfl, hrun⟩
  · exact splitExponent_none (h.startsExponent_suffix hr)
  · exact splitExponent_run hstart hrun (h.suffix_not_run hr)

theorem power_not_run (h : FloatSpelled whole places power suffix) (hr : Quiet r) :
    ∀ d ∈ (power ++ (suffix ++ r)).head?, isRun 10 d = false := by
  rcases h.isPower with rfl | ⟨hstart, c, d, run, rfl, hrun⟩
  · exact h.suffix_not_run hr
  · rintro _ ⟨rfl⟩
    rcases head_of_startsExponent hstart with rfl | rfl <;> rfl

/-- Where the digits end, a point or an exponent comes next. -/
theorem starts (h : FloatSpelled whole places power suffix) (hr : Quiet r) :
    (places ≠ [] → startsPlaces (places ++ (power ++ (suffix ++ r))) = true) ∧
      (places = [] → startsPlaces (power ++ (suffix ++ r)) = false ∧
        startsExponent (power ++ (suffix ++ r)) = true) := by
  refine ⟨fun hne => ?_, ?_⟩
  · obtain ⟨hstart, -⟩ := h.isPlaces.resolve_left hne
    have happend := startsPlaces_append hstart hr
    simpa only [List.append_assoc] using happend
  · intro hnil
    obtain ⟨hstart, c, d, run, rfl, -⟩ := h.isPower.resolve_left (h.some.resolve_left (not_not.mpr hnil))
    refine ⟨?_, startsExponent_append hstart⟩
    rcases head_of_startsExponent hstart with rfl | rfl <;> rfl

theorem splitPlaces_eq (h : FloatSpelled whole places power suffix) (hr : Quiet r) :
    splitPlaces (places ++ (power ++ (suffix ++ r))) = (places, power ++ (suffix ++ r)) := by
  have hstarts := h.starts hr
  rcases h.isPlaces with rfl | ⟨-, run, rfl, hrun⟩
  · exact splitPlaces_none (hstarts.2 rfl).1
  · exact splitPlaces_run (hstarts.1 (List.cons_ne_nil _ _)) hrun (h.power_not_run hr)

theorem float_eq (h : FloatSpelled whole places power suffix) (hr : Quiet r) :
    float whole (places ++ (power ++ (suffix ++ r))) = ⟨decimal whole places power suffix, r⟩ := by
  have hname : ∀ c ∈ suffix, isNamePart c = true := by
    rcases h.isSuffix with rfl | ⟨t, rfl⟩
    · simp
    · exact List.all_eq_true.mp (by cases t <;> rfl)
  obtain ⟨htake, hdrop⟩ := takeWhile_append_stop hname hr.not_name
  rw [float_eq_decimal, h.splitPlaces_eq hr, h.splitExponent_eq hr, htake, hdrop]

end FloatSpelled

/-- A decimal number ends behind its suffix. -/
theorem number_float {whole places power suffix r : List Char} (h : FloatSpelled whole places power suffix)
    (hr : Quiet r) : number (whole ++ (places ++ (power ++ (suffix ++ r)))) =
      ⟨decimal whole places power suffix, r⟩ := by
  have hmark : ∀ d ∈ (places ++ (power ++ (suffix ++ r))).head?, d ∈ ['.', 'e', 'E'] := by
    rcases h.isPlaces with rfl | ⟨-, run, rfl, -⟩
    · obtain ⟨hstart, c, d, run, rfl, -⟩ := h.isPower.resolve_left (h.some.resolve_left (not_not.mpr rfl))
      rintro _ ⟨rfl⟩
      rcases FloatSpelled.head_of_startsExponent hstart with rfl | rfl <;> simp
    · rintro _ ⟨rfl⟩
      simp
  have hne : whole ≠ [] := by
    rintro rfl
    obtain ⟨c, hc, -⟩ := h.startsDigit
    cases hc
  have hbase := splitBase_run h.isWhole hne (r := places ++ (power ++ (suffix ++ r))) fun d hd hmem => by
    have hin := hmark d hd
    simp only [List.mem_cons, List.not_mem_nil, or_false] at hin hmem
    rcases hmem with rfl | rfl | rfl <;> revert hin <;> decide
  obtain ⟨htake, hdrop⟩ := takeWhile_append_stop h.isWhole fun d hd => by
    have hin := hmark d hd
    simp only [List.mem_cons, List.not_mem_nil, or_false] at hin
    rcases hin with rfl | rfl | rfl <;> rfl
  have hstarts : startsPlaces (places ++ (power ++ (suffix ++ r))) = true ∨
      startsExponent (places ++ (power ++ (suffix ++ r))) = true := by
    by_cases hnil : places = []
    · subst hnil
      exact .inr ((h.starts hr).2 rfl).2
    · exact .inl ((h.starts hr).1 hnil)
  rw [number_decimal hbase (by rwa [hdrop]), htake, hdrop, h.float_eq hr]

/-! ## Numbers without errors -/

/-- Nothing is wrong with the lexeme but perhaps that a number is too great for its type. -/
def Lexeme.Accepted (l : Lexeme) : Prop := ∀ f ∈ l.faults, f.problem.code = .literalOutOfRange

theorem splitBase_inv (cs : List Char) : splitBase cs = (10, [], cs) ∨
    ∃ base head body, (base, head) ∈ [(2, ['0', 'b']), (8, ['0', 'o']), (16, ['0', 'x'])] ∧
      splitBase cs = (base, head, body) ∧ cs = head ++ body := by
  unfold splitBase
  split
  · exact .inr ⟨2, _, _, by simp, rfl, rfl⟩
  · exact .inr ⟨8, _, _, by simp, rfl, rfl⟩
  · exact .inr ⟨16, _, _, by simp, rfl, rfl⟩
  · exact .inl rfl

/-- An integer without errors has the name of a type behind it, or nothing. -/
theorem suffix_of_accepted {base : Nat} {spelled run suffix : List Char}
    (h : (integer base spelled run suffix).Accepted) : suffix = [] ∨ ∃ t : IntTy, suffix = t.name.toList := by
  by_contra hno
  rw [not_or] at hno
  have hunknown : suffixType suffix = (.i32, some (String.ofList suffix)) := by
    unfold suffixType
    rw [if_neg hno.1]
    cases hname : IntTy.ofName? (String.ofList suffix) with
    | none => rfl
    | some t =>
      have hfound : t.name = String.ofList suffix := by simpa using List.find?_some hname
      exact absurd ⟨t, by rw [hfound, String.toList_ofList]⟩ hno.2
  have hfault := h ⟨.integerSuffix (String.ofList suffix), Text.width spelled,
    Text.width spelled + Text.width suffix⟩ (by simp [integer, hunknown, Lexeme.whole])
  cases hfault

theorem floatSuffix_of_accepted {whole places power suffix : List Char}
    (h : (decimal whole places power suffix).Accepted) :
    suffix = [] ∨ ∃ t : FloatTy, suffix = t.name.toList := by
  by_contra hno
  rw [not_or, not_exists] at hno
  have hname : ∀ t : FloatTy, String.ofList suffix ≠ t.name := fun t ht => hno.2 t (by rw [← ht, String.toList_ofList])
  have hfault := h ⟨.floatSuffix (String.ofList suffix), Text.width (whole ++ places ++ power),
    Text.width (whole ++ places ++ power ++ suffix)⟩ (by simp [decimal, Lexeme.whole, hno.1, hname])
  cases hfault

theorem startsPlaces_of_append {a r : List Char} (ha : a ≠ []) (h : startsPlaces (a ++ r) = true) :
    startsPlaces a = true := by
  match a, h with
  | [c], h => simpa [startsPlaces] using (Bool.and_eq_true_iff.mp h).1
  | _ :: _ :: _, h => exact h

theorem startsExponent_takeWhile {c d : Char} {r : List Char} (h : startsExponent (c :: d :: r) = true) :
    startsExponent (c :: d :: r.takeWhile (isRun 10)) = true := by
  cases r with
  | nil => exact h
  | cons e r =>
    by_cases he : e.isDigit = true
    · rw [List.takeWhile_cons_of_pos (isRun_of_isDigit e he)]
      exact h
    · obtain ⟨hletter, hpower⟩ := Bool.and_eq_true_iff.mp h
      have hdigit : d.isDigit = true := by simpa [startsPower, he] using hpower
      exact Bool.and_eq_true_iff.mpr ⟨hletter, by simp [startsPower, hdigit]⟩

theorem splitPlaces_inv (cs : List Char) : startsPlaces cs = false ∧ (splitPlaces cs).1 = [] ∨
    startsPlaces cs = true ∧ ∃ run, (splitPlaces cs).1 = '.' :: run ∧ ∀ c ∈ run, isRun 10 c = true := by
  cases cs with
  | nil => exact .inl ⟨rfl, rfl⟩
  | cons c cs =>
    cases hstart : startsPlaces (c :: cs) with
    | false => exact .inl ⟨rfl, by rw [splitPlaces_none hstart]⟩
    | true =>
      have hdot : c = '.' := by simpa using (Bool.and_eq_true_iff.mp hstart).1
      subst hdot
      refine .inr ⟨rfl, cs.takeWhile (isRun 10), by simp [splitPlaces, hstart], fun d hd => ?_⟩
      exact List.mem_takeWhile_imp hd

theorem splitExponent_inv (cs : List Char) : startsExponent cs = false ∧ (splitExponent cs).1 = [] ∨
    startsExponent (splitExponent cs).1 = true ∧
      ∃ c d run, (splitExponent cs).1 = c :: d :: run ∧ ∀ c ∈ run, isRun 10 c = true := by
  cases hstart : startsExponent cs with
  | false => exact .inl ⟨rfl, by rw [splitExponent_none hstart]⟩
  | true =>
    match cs, hstart with
    | [_], hstart => simp [startsExponent, startsPower] at hstart
    | c :: d :: r, hstart =>
      have hsplit : (splitExponent (c :: d :: r)).1 = c :: d :: r.takeWhile (isRun 10) := by
        simp [splitExponent, hstart]
      rw [hsplit]
      exact .inr ⟨startsExponent_takeWhile hstart, c, d, _, rfl, fun e he => List.mem_takeWhile_imp he⟩

theorem float_spelled {whole rest : List Char} (hwhole : ∀ c ∈ whole, isRun 10 c = true)
    (hdigit : ∃ c ∈ whole.head?, c.isDigit = true) (hstarts : startsPlaces rest = true ∨ startsExponent rest = true)
    (h : (float whole rest).lexeme.Accepted) :
    ∃ places power suffix, FloatSpelled whole places power suffix ∧
      (float whole rest).lexeme = decimal whole places power suffix := by
  rw [float_eq_decimal] at h ⊢
  refine ⟨_, _, _, ?_, rfl⟩
  have happend : (splitPlaces rest).1 ++ ((splitExponent (splitPlaces rest).2).1 ++
      (splitExponent (splitPlaces rest).2).2.takeWhile isNamePart) ++
        (splitExponent (splitPlaces rest).2).2.dropWhile isNamePart = rest := by
    rw [List.append_assoc, List.append_assoc, List.takeWhile_append_dropWhile, splitExponent_append,
      splitPlaces_append]
  refine ⟨hdigit, hwhole, ?_, ?_, ?_, floatSuffix_of_accepted h⟩
  · rcases splitPlaces_inv rest with ⟨-, hnil⟩ | ⟨hstart, run, hrun, hall⟩
    · exact .inl hnil
    · refine .inr ⟨startsPlaces_of_append ?_ (happend ▸ hstart), run, hrun, hall⟩
      rw [hrun]
      exact List.cons_ne_nil _ _
  · exact (splitExponent_inv _).imp (·.2) fun h => h
  · rcases splitPlaces_inv rest with ⟨hno, hnil⟩ | ⟨hstart, run, hrun, hall⟩
    · right
      have hsplit := splitPlaces_none hno
      have hexp := hstarts.resolve_left (Bool.eq_false_iff.mp hno)
      rcases splitExponent_inv (splitPlaces rest).2 with ⟨hfalse, -⟩ | ⟨-, c, d, run, hrun, -⟩
      · rw [hsplit] at hfalse
        exact absurd hexp (Bool.eq_false_iff.mp hfalse)
      · rw [hrun]
        exact List.cons_ne_nil _ _
    · left
      rw [hrun]
      exact List.cons_ne_nil _ _

/-- A number without errors is spelled in one of the two ways. -/
theorem number_spelled {cs : List Char} (hdigit : ∃ c ∈ cs.head?, c.isDigit = true)
    (h : (number cs).lexeme.Accepted) :
    (∃ base head run suffix, IntegerSpelled base head run suffix ∧
      (number cs).lexeme = integer base (head ++ run) run suffix) ∨
    ∃ whole places power suffix, FloatSpelled whole places power suffix ∧
      (number cs).lexeme = decimal whole places power suffix := by
  rcases splitBase_inv cs with hbase | ⟨base, head, body, hmem, hbase, rfl⟩
  · have hrun : ∃ c ∈ (cs.takeWhile (isRun 10)).head?, c.isDigit = true := by
      obtain ⟨c, hc, hdigit⟩ := hdigit
      obtain ⟨r, rfl⟩ := List.head?_eq_some_iff.mp hc
      exact ⟨c, by rw [List.takeWhile_cons_of_pos (isRun_of_isDigit c hdigit)]; rfl, hdigit⟩
    by_cases hstarts : startsPlaces (cs.dropWhile (isRun 10)) = true ∨
        startsExponent (cs.dropWhile (isRun 10)) = true
    · rw [number_decimal hbase hstarts] at h ⊢
      exact .inr ⟨_, float_spelled (fun c hc => List.mem_takeWhile_imp hc) hrun hstarts h⟩
    · have hnumber : number cs = ⟨integer 10 ([] ++ cs.takeWhile (isRun 10)) (cs.takeWhile (isRun 10))
          ((cs.dropWhile (isRun 10)).takeWhile isNamePart), (cs.dropWhile (isRun 10)).dropWhile isNamePart⟩ := by
        have hnone : (startsPlaces (cs.dropWhile (isRun 10)) || startsExponent (cs.dropWhile (isRun 10))) = false := by
          rw [Bool.eq_false_iff]
          exact fun hor => hstarts (Bool.or_eq_true_iff.mp hor)
        simp [number, hbase, hnone]
      rw [hnumber] at h ⊢
      exact .inl ⟨_, _, _, _, ⟨.inl ⟨rfl, rfl, hrun⟩, fun c hc => List.mem_takeWhile_imp hc,
        suffix_of_accepted h⟩, rfl⟩
  · have hten : base ≠ 10 := by
      rintro rfl
      simp at hmem
    by_cases hfraction : startsFraction (body.dropWhile (isRun base)) = true
    · exfalso
      have hnumber : number (head ++ body) = integerWithFraction base (head ++ body.takeWhile (isRun base))
          (body.takeWhile (isRun base)) (body.dropWhile (isRun base)) := by
        simp [number, hbase, hten, hfraction]
      rw [hnumber] at h
      cases h _ List.mem_cons_self
    · have hnumber : number (head ++ body) = ⟨integer base (head ++ body.takeWhile (isRun base))
          (body.takeWhile (isRun base)) ((body.dropWhile (isRun base)).takeWhile isNamePart),
            (body.dropWhile (isRun base)).dropWhile isNamePart⟩ := by
        simp [number, hbase, hten, hfraction]
      rw [hnumber] at h ⊢
      exact .inl ⟨_, _, _, _, ⟨.inr hmem, fun c hc => List.mem_takeWhile_imp hc, suffix_of_accepted h⟩, rfl⟩

/-- A number without errors is read the same where something else that is quiet stands behind it. -/
theorem number_before {cs r : List Char} (hdigit : ∃ c ∈ cs.head?, c.isDigit = true)
    (h : (number cs).lexeme.Accepted) (hr : Quiet r) :
    number ((number cs).lexeme.text ++ r) = ⟨(number cs).lexeme, r⟩ := by
  rcases number_spelled hdigit h with ⟨base, head, run, suffix, hspelled, hnumber⟩ |
    ⟨whole, places, power, suffix, hspelled, hnumber⟩
  · rw [hnumber, integer_text, List.append_assoc, List.append_assoc]
    exact number_integer hspelled hr
  · have htext : (decimal whole places power suffix).text = whole ++ places ++ power ++ suffix := rfl
    rw [hnumber, htext, List.append_assoc, List.append_assoc, List.append_assoc]
    exact number_float hspelled hr

end Ferrite.Lexer
