import Ferrite.Proofs.Lexer.Slice

/-!
A token is read from its own text as it was read in the whole text, be it right or wrong. Only a
number whose fraction is refused has a text that goes on behind its token.
-/

namespace Ferrite.Lexer

/-! ## Pieces of numbers -/

section

variable {cs x : List Char}

/-- What is left may be cut off anywhere. -/
theorem takeWhile_piece {p : Char → Bool} (h : x <+: cs.dropWhile p) :
    (cs.takeWhile p ++ x).takeWhile p = cs.takeWhile p ∧ (cs.takeWhile p ++ x).dropWhile p = x := by
  refine takeWhile_append_stop (fun c hc => List.mem_takeWhile_imp hc) fun d hd => ?_
  obtain ⟨x, rfl⟩ := List.head?_eq_some_iff.mp hd
  obtain ⟨y, hy⟩ := h
  exact head_dropWhile cs d (by rw [← hy]; rfl)

theorem splitPlaces_piece (hstart : startsPlaces cs = true) (h : x <+: (splitPlaces cs).2) :
    splitPlaces ((splitPlaces cs).1 ++ x) = ((splitPlaces cs).1, x) := by
  obtain ⟨y, hy⟩ := h
  have happend := splitPlaces_append cs
  rcases splitPlaces_inv cs with ⟨hno, -⟩ | ⟨-, run, hrun, hall⟩
  · rw [hstart] at hno
    cases hno
  have hcs : cs = '.' :: (run ++ x) ++ y := by rw [← happend, hrun, ← hy]; simp
  have hpiece : startsPlaces ('.' :: (run ++ x)) = true :=
    startsPlaces_of_append (List.cons_ne_nil _ _) (hcs ▸ hstart)
  rw [hrun]
  refine splitPlaces_run hpiece hall fun d hd => ?_
  -- the digits end where they ended before
  obtain ⟨c, cs, rfl⟩ := List.exists_cons_of_ne_nil (show cs ≠ [] by rintro rfl; cases hstart)
  simp only [splitPlaces, hstart, if_true] at hy
  obtain ⟨x, rfl⟩ := List.head?_eq_some_iff.mp hd
  exact head_dropWhile cs d (by rw [← hy]; rfl)

theorem startsExponent_piece (h : x <+: cs) (hno : startsExponent cs = false) : startsExponent x = false := by
  obtain ⟨y, rfl⟩ := h
  rw [Bool.eq_false_iff]
  intro hx
  rw [startsExponent_append hx] at hno
  cases hno

theorem splitExponent_piece (h : x <+: (splitExponent cs).2) :
    splitExponent ((splitExponent cs).1 ++ x) = ((splitExponent cs).1, x) := by
  cases hstart : startsExponent cs with
  | false =>
    rw [splitExponent_none hstart] at h ⊢
    exact splitExponent_none (startsExponent_piece h hstart)
  | true =>
    match cs with
    | [c] => simp [startsExponent, startsPower] at hstart
    | c :: d :: cs =>
      simp only [splitExponent, hstart, if_true] at h ⊢
      obtain ⟨y, hy⟩ := h
      refine splitExponent_run (startsExponent_takeWhile hstart) (fun c hc => List.mem_takeWhile_imp hc)
        fun d hd => ?_
      obtain ⟨x, rfl⟩ := List.head?_eq_some_iff.mp hd
      exact head_dropWhile cs d (by rw [← hy]; rfl)

theorem splitBase_piece (hbase : splitBase cs = (10, [], cs)) (h : x <+: cs) : splitBase x = (10, [], x) := by
  obtain ⟨y, rfl⟩ := h
  rcases splitBase_inv x with hx | ⟨base, head, body, hmem, -, rfl⟩
  · exact hx
  · simp only [List.mem_cons, List.not_mem_nil, or_false, Prod.mk.injEq] at hmem
    rcases hmem with ⟨rfl, rfl⟩ | ⟨rfl, rfl⟩ | ⟨rfl, rfl⟩ <;> simp [splitBase] at hbase

end

/-! ## Numbers -/

/-- Read alone, the text of a decimal number is that number. -/
theorem float_alone (whole : List Char) {rest : List Char}
    (h : startsPlaces rest = true ∨ startsExponent rest = true) :
    ∃ text, (float whole rest).lexeme.text = whole ++ text ∧ text <+: rest ∧
      (startsPlaces text = true ∨ startsExponent text = true) ∧
      float whole text = ⟨(float whole rest).lexeme, []⟩ := by
  set places := (splitPlaces rest).1 with hplaces
  set rest₁ := (splitPlaces rest).2 with hrest₁
  set power := (splitExponent rest₁).1 with hpower
  set rest₂ := (splitExponent rest₁).2 with hrest₂
  set suffix := rest₂.takeWhile isNamePart with hsuffix
  have hpre₂ : suffix <+: rest₂ := List.takeWhile_prefix _
  have hpre₁ : power ++ suffix <+: rest₁ := by
    rw [← splitExponent_append rest₁]
    exact (List.prefix_append_right_inj _).mpr hpre₂
  have hpre : places ++ (power ++ suffix) <+: rest := by
    rw [← splitPlaces_append rest]
    exact (List.prefix_append_right_inj _).mpr hpre₁
  have hexponent : splitExponent (power ++ suffix) = (power, suffix) := splitExponent_piece hpre₂
  have hname : suffix.takeWhile isNamePart = suffix ∧ suffix.dropWhile isNamePart = [] := by
    have hpiece := takeWhile_piece (List.nil_prefix : [] <+: rest₂.dropWhile isNamePart)
    rwa [List.append_nil] at hpiece
  have hstarts : splitPlaces (places ++ (power ++ suffix)) = (places, power ++ suffix) ∧
      (startsPlaces (places ++ (power ++ suffix)) = true ∨ startsExponent (places ++ (power ++ suffix)) = true) := by
    rcases splitPlaces_inv rest with ⟨hno, hnil⟩ | ⟨hstart, run, hrun, -⟩
    · -- without a point the exponent comes first
      rw [splitPlaces_none hno] at hplaces hrest₁
      simp only at hplaces hrest₁
      rcases splitExponent_inv rest₁ with ⟨hno', -⟩ | ⟨hpow, c, d, run, hcd, -⟩
      · rw [hrest₁] at hno'
        exact absurd (h.resolve_left (by simp [hno])) (by simp [hno'])
      · have hfirst : startsPlaces (power ++ suffix) = false := by
          rw [← hpower] at hcd hpow
          rw [hcd] at hpow ⊢
          rcases FloatSpelled.head_of_startsExponent hpow with rfl | rfl <;> rfl
        rw [hplaces, List.nil_append]
        exact ⟨splitPlaces_none hfirst, .inr (startsExponent_append hpow)⟩
    · refine ⟨splitPlaces_piece hstart hpre₁, .inl ?_⟩
      obtain ⟨y, hy⟩ := hpre
      refine startsPlaces_of_append (r := y) ?_ (by rw [hy]; exact hstart)
      rw [hplaces, hrun]
      exact List.cons_ne_nil _ _
  refine ⟨places ++ (power ++ suffix), ?_, hpre, hstarts.2, ?_⟩
  · rw [float_eq_decimal]
    simp only [decimal, Lexeme.whole, List.append_assoc]
    rfl
  · rw [float_eq_decimal, float_eq_decimal, hstarts.1]
    simp only [hexponent, hname]
    rfl

/-- The lexeme starts with a text that, read by `alone`, is its token and nothing else. -/
def Lexeme.StandsAlone (l : Lexeme) (alone : List Char → Step) : Prop :=
  ∃ pre post m, l.text = pre ++ post ∧ pre ≠ [] ∧ alone pre = ⟨m, []⟩ ∧ m.token? = l.token? ∧ m.Full

theorem Lexeme.standsAlone {l : Lexeme} {alone : List Char → Step} (hne : l.text ≠ [])
    (h : alone l.text = ⟨l, []⟩) (hfull : l.Full) : l.StandsAlone alone :=
  ⟨l.text, [], l, (List.append_nil _).symm, hne, h, rfl, hfull⟩

/-- Digits with a suffix that is no exponent. -/
theorem integer_alone {base : Nat} {head body suffix : List Char}
    (hhead : ∀ x, x <+: body → splitBase (head ++ x) = (base, head, x))
    (hsuffix : suffix <+: (body.dropWhile (isRun base)).takeWhile isNamePart)
    (hno : base = 10 → startsExponent (body.dropWhile (isRun base)) = false) :
    number (head ++ (body.takeWhile (isRun base) ++ suffix)) =
      ⟨integer base (head ++ body.takeWhile (isRun base)) (body.takeWhile (isRun base)) suffix, []⟩ := by
  have hrest : suffix <+: body.dropWhile (isRun base) := hsuffix.trans (List.takeWhile_prefix _)
  have hpiece : body.takeWhile (isRun base) ++ suffix <+: body := by
    have hall := (List.prefix_append_right_inj (body.takeWhile (isRun base))).mpr hrest
    rwa [List.takeWhile_append_dropWhile] at hall
  have hname : ∀ c ∈ suffix, isNamePart c = true := fun c hc => List.mem_takeWhile_imp (hsuffix.subset hc)
  have hdot : startsPlaces suffix = false ∧ startsFraction suffix = false := by
    cases suffix with
    | nil => exact ⟨rfl, rfl⟩
    | cons c suffix =>
      have hc : c ≠ '.' := by
        rintro rfl
        exact absurd (hname '.' List.mem_cons_self) (by decide)
      refine ⟨by simp [startsPlaces, hc], ?_⟩
      unfold startsFraction
      split <;> simp_all
  obtain ⟨hrun, hleft⟩ := takeWhile_piece hrest
  have htake : suffix.takeWhile isNamePart = suffix ∧ suffix.dropWhile isNamePart = [] := by
    have hstop := takeWhile_append_stop (b := []) hname (by simp)
    rwa [List.append_nil] at hstop
  have hexponent : (decide (base = 10) && startsExponent suffix) = false := by
    by_cases hten : base = 10
    · simp [startsExponent_piece hrest (hno hten)]
    · simp [hten]
  simp only [number, hhead _ hpiece, hrun, hleft, hdot, htake, Bool.false_or, hexponent, Bool.and_false,
    Bool.false_eq_true, if_false]

theorem number_float_alone {cs : List Char} (hne : (number cs).lexeme.text ≠ [])
    (hbase : splitBase cs = (10, [], cs))
    (h : startsPlaces (cs.dropWhile (isRun 10)) = true ∨ startsExponent (cs.dropWhile (isRun 10)) = true) :
    (number cs).lexeme.StandsAlone number := by
  have hnumber := number_decimal hbase h
  obtain ⟨text, htext, hpre, hstarts, hfloat⟩ := float_alone (cs.takeWhile (isRun 10)) h
  obtain ⟨hrun, hleft⟩ := takeWhile_piece hpre
  have hpiece : cs.takeWhile (isRun 10) ++ text <+: cs := by
    have hall := (List.prefix_append_right_inj (cs.takeWhile (isRun 10))).mpr hpre
    rwa [List.takeWhile_append_dropWhile] at hall
  have hagain : number (cs.takeWhile (isRun 10) ++ text) = float (cs.takeWhile (isRun 10)) text := by
    rw [number_decimal (splitBase_piece hbase hpiece) (by rwa [hleft]), hrun, hleft]
  rw [hnumber] at hne ⊢
  refine Lexeme.standsAlone hne (by rw [htext, hagain, hfloat]) ?_
  rw [float_eq_decimal]
  exact full_whole _ _ _

section

variable {base : Nat} {head body : List Char}

theorem number_integer_alone (hne : (number (head ++ body)).lexeme.text ≠ [])
    (hhead : ∀ x, x <+: body → splitBase (head ++ x) = (base, head, x))
    (hfloat : base = 10 → startsPlaces (body.dropWhile (isRun base)) = false ∧
      startsExponent (body.dropWhile (isRun base)) = false)
    (hfraction : base ≠ 10 → startsFraction (body.dropWhile (isRun base)) = false) :
    (number (head ++ body)).lexeme.StandsAlone number := by
  have hagain := integer_alone hhead (List.prefix_refl ((body.dropWhile (isRun base)).takeWhile isNamePart))
    fun hten => (hfloat hten).2
  have hnumber : number (head ++ body) = ⟨integer base (head ++ body.takeWhile (isRun base))
      (body.takeWhile (isRun base)) ((body.dropWhile (isRun base)).takeWhile isNamePart),
        (body.dropWhile (isRun base)).dropWhile isNamePart⟩ := by
    by_cases hten : base = 10
    · simp [number, hhead body List.prefix_rfl, hten, hten ▸ hfloat hten]
    · simp [number, hhead body List.prefix_rfl, hten, hfraction hten]
  rw [hnumber] at hne ⊢
  refine Lexeme.standsAlone hne ?_ (full_whole _ _ _)
  rw [integer_text, List.append_assoc]
  exact hagain

theorem number_fraction_alone (hne : head ≠ [])
    (hhead : ∀ x, x <+: body → splitBase (head ++ x) = (base, head, x))
    (hten : base ≠ 10) (hfraction : startsFraction (body.dropWhile (isRun base)) = true) :
    (number (head ++ body)).lexeme.StandsAlone number := by
  have hnumber : number (head ++ body) = integerWithFraction base (head ++ body.takeWhile (isRun base))
      (body.takeWhile (isRun base)) (body.dropWhile (isRun base)) := by
    simp [number, hhead body List.prefix_rfl, hten, hfraction]
  have hagain := @integer_alone base head body [] hhead List.nil_prefix fun h => absurd h hten
  rw [List.append_nil] at hagain
  let rest := body.dropWhile (isRun base)
  rw [hnumber]
  refine ⟨_, rest.take 1 ++ (rest.drop 1).takeWhile isNamePart, _, ?_, List.append_ne_nil_of_left_ne_nil hne _,
    hagain, rfl, full_whole _ _ _⟩
  simp only [integerWithFraction, integer_text, List.append_nil]
  rfl

end

/-- A number is read from its own text, or from that before its refused fraction. -/
theorem number_alone {cs : List Char} (hne : (number cs).lexeme.text ≠ []) :
    (number cs).lexeme.StandsAlone number := by
  rcases splitBase_inv cs with hbase | ⟨base, head, body, hmem, hbase, rfl⟩
  · have hhead : ∀ x, x <+: cs → splitBase ([] ++ x) = (10, [], x) := fun x hx => splitBase_piece hbase hx
    by_cases hstarts : startsPlaces (cs.dropWhile (isRun 10)) = true ∨
        startsExponent (cs.dropWhile (isRun 10)) = true
    · exact number_float_alone hne hbase hstarts
    · rw [not_or, Bool.not_eq_true, Bool.not_eq_true] at hstarts
      exact @number_integer_alone 10 [] cs hne hhead (fun _ => hstarts) fun hten => absurd rfl hten
  · have hknown : base ≠ 10 ∧ head ≠ [] ∧ ∀ x, splitBase (head ++ x) = (base, head, x) := by
      simp only [List.mem_cons, List.not_mem_nil, or_false, Prod.mk.injEq] at hmem
      rcases hmem with ⟨rfl, rfl⟩ | ⟨rfl, rfl⟩ | ⟨rfl, rfl⟩
      · exact ⟨by decide, by simp, fun _ => rfl⟩
      · exact ⟨by decide, by simp, fun _ => rfl⟩
      · exact ⟨by decide, by simp, fun _ => rfl⟩
    obtain ⟨hten, hhead, hsplit⟩ := hknown
    by_cases hfraction : startsFraction (body.dropWhile (isRun base)) = true
    · exact number_fraction_alone hhead (fun x _ => hsplit x) hten hfraction
    · exact number_integer_alone hne (fun x _ => hsplit x) (fun h => absurd h hten)
        fun _ => Bool.eq_false_iff.mpr hfraction

/-! ## All tokens -/

/-- What is no number and yet a token has nothing wrong with it. -/
theorem faults_of_token {c : Char} {cs : List Char} (hdigit : c.isDigit = false)
    (h : (scan c cs).lexeme.token?.isSome = true) : (scan c cs).lexeme.faults = [] := by
  have hsingle : ∀ c cs, (single c cs).lexeme.token?.isSome = true → (single c cs).lexeme.faults = [] := by
    intro c cs h
    unfold single at h ⊢
    split at h
    · rfl
    · cases h
  have hmark : ∀ c cs, (mark c cs).lexeme.token?.isSome = true → (mark c cs).lexeme.faults = [] := by
    intro c cs h
    unfold mark at h ⊢
    split
    · split
      · rfl
      · rename_i hpair
        simp only [hpair] at h
        exact hsingle _ _ h
    · exact hsingle _ _ h
  unfold scan at h ⊢
  split
  · rfl
  split
  · rfl
  rw [if_neg ‹_›, if_neg ‹_›, if_neg (by simp [hdigit])] at h
  rw [if_neg (by simp [hdigit])]
  split
  · rw [if_pos ‹_›] at h
    unfold string at h ⊢
    split at h
    · rfl
    · cases h
  rw [if_neg ‹_›] at h
  split
  · rw [if_pos ‹_›] at h
    split at h
    · rfl
    · unfold comment at h ⊢
      split at h <;> cases h
    · exact hmark _ _ h
  · rw [if_neg ‹_›] at h
    exact hmark _ _ h

/-- A token stands at the start of its lexeme, and is read from its own text alone. -/
theorem scan_alone {c : Char} {cs : List Char} {token : Terminal × Nat}
    (h : (scan c cs).lexeme.token? = some token) : ∃ pre post l, (scan c cs).lexeme.text = c :: (pre ++ post) ∧
      scan c pre = ⟨l, []⟩ ∧ l.token? = some token ∧ token.2 = Text.width (c :: pre) := by
  have hstart : ∃ t, (scan c cs).lexeme.text = c :: t ∧ t ++ (scan c cs).rest = cs := by
    have hall := scan_all c cs
    obtain ⟨d, t, htext⟩ := List.exists_cons_of_ne_nil (scan_text_ne_nil c cs)
    rw [Step.all, htext, List.cons_append] at hall
    obtain ⟨rfl, hcs⟩ := List.cons.inj hall
    exact ⟨t, htext, hcs⟩
  obtain ⟨t, htext, hcs⟩ := hstart
  cases hdigit : c.isDigit with
  | true =>
    rw [scan_number hdigit] at h htext ⊢
    obtain ⟨pre, post, l, hpre, hne, halone, htoken, hfull⟩ :=
      number_alone (number_text_ne_nil c cs hdigit)
    have hl : l.text = pre := by
      have hall := number_all pre
      rw [halone] at hall
      exact (List.append_nil _).symm.trans hall
    obtain ⟨d, pre, rfl⟩ := List.exists_cons_of_ne_nil hne
    obtain rfl : c = d := (List.cons.inj (htext.symm.trans hpre)).1
    rw [h] at htoken
    exact ⟨pre, post, l, hpre, by rw [scan_number hdigit, halone], htoken,
      by rw [hfull token htoken, Lexeme.width, hl]⟩
  | false =>
    have hacc : (scan c cs).lexeme.Accepted := by
      intro f hf
      rw [faults_of_token hdigit (by rw [h]; rfl)] at hf
      cases hf
    have hfull := scan_full hacc token h
    rw [← hcs] at hacc htext
    have hagain : scan c (t ++ []) = ⟨(scan c (t ++ (scan c cs).rest)).lexeme, []⟩ :=
      scan_before hacc htext (.inl rfl) (by simp)
    rw [hcs] at hagain htext
    rw [List.append_nil] at hagain
    exact ⟨t, [], _, by rw [htext, List.append_nil], hagain, h, by rw [hfull, Lexeme.width, htext]⟩

end Ferrite.Lexer
