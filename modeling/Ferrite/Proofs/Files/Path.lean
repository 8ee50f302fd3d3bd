import Mathlib.Data.List.TakeWhile
import Ferrite.Files.Path

/-!
Names at the ends of paths. What stands before the last name of a path can be told from the path, and
another extension stands behind the stem of that name.
-/

namespace Ferrite.Path

/-- What can name a file or a folder in another one. -/
structure IsName (name : Path) : Prop where
  slash : '/' ∉ name
  nonempty : name ≠ []
  ne_here : name ≠ ['.']
  ne_above : name ≠ ['.', '.']

instance (name : Path) : Decidable (IsName name) :=
  decidable_of_iff ('/' ∉ name ∧ name ≠ [] ∧ name ≠ ['.'] ∧ name ≠ ['.', '.'])
    ⟨fun ⟨slash, nonempty, here, above⟩ => ⟨slash, nonempty, here, above⟩,
      fun h => ⟨h.slash, h.nonempty, h.ne_here, h.ne_above⟩⟩

/-- A name may follow right behind the path. -/
def Opens (folder : Path) : Prop := folder = [] ∨ folder.getLast? = some '/'

/-! ## Parts -/

theorem names_of_not_mem {p : Path} (h : '/' ∉ p) : names p = [p] := by
  induction p with
  | nil => rfl
  | cons c cs ih =>
    simp only [List.mem_cons, not_or] at h
    simp [names, ih h.2, Ne.symm h.1]

theorem names_append (a b : Path) : names (a ++ '/' :: b) = names a ++ names b := by
  induction a with
  | nil => simp [names]
  | cons c a ih =>
    simp only [List.cons_append, names, ih]
    split
    · rfl
    · cases h : names a with
      | nil => exact absurd h (names_ne_nil a)
      | cons n ns => rfl

/-- Read from its end, a path that a name may follow has no more to its last part. -/
theorem Opens.reverse {folder : Path} (h : Opens folder) :
    folder.reverse.takeWhile (· ≠ '/') = [] ∧ folder.reverse.dropWhile (· ≠ '/') = folder.reverse := by
  rcases h with rfl | hslash
  · simp
  · obtain ⟨front, rfl⟩ := List.getLast?_eq_some_iff.mp hslash
    simp

theorem exists_split (p : Path) : ∃ folder last, p = folder ++ last ∧ Opens folder ∧ '/' ∉ last := by
  induction p with
  | nil => exact ⟨[], [], rfl, .inl rfl, by simp⟩
  | cons c cs ih =>
    obtain ⟨folder, last, rfl, hopens, hlast⟩ := ih
    rcases hopens with rfl | hslash
    · by_cases hc : c = '/'
      · exact ⟨[c], last, rfl, .inr (by simp [hc]), hlast⟩
      · exact ⟨[], c :: last, rfl, .inl rfl, by simp [hlast, Ne.symm hc]⟩
    · exact ⟨c :: folder, last, rfl, .inr (by simp [List.getLast?_cons, hslash]), hlast⟩

/-- What stands behind the last slash is the last part. -/
theorem names_opens {folder last : Path} (h : Opens folder) (hlast : '/' ∉ last) :
    ∃ front, names folder = front ++ [[]] ∧ names (folder ++ last) = front ++ [last] := by
  rcases h with rfl | hslash
  · exact ⟨[], rfl, names_of_not_mem hlast⟩
  · obtain ⟨front, rfl⟩ := List.getLast?_eq_some_iff.mp hslash
    refine ⟨names front, names_append front [], ?_⟩
    rw [List.append_assoc, List.singleton_append, names_append, names_of_not_mem hlast]

/-- Where the last part starts is seen from the path. -/
theorem opens_inj {a b m n : Path} (ha : Opens a) (hb : Opens b) (hm : '/' ∉ m) (hn : '/' ∉ n)
    (h : a ++ m = b ++ n) : a = b ∧ m = n := by
  obtain ⟨front, -, hfront⟩ := names_opens ha hm
  obtain ⟨back, -, hback⟩ := names_opens hb hn
  rw [h, hback] at hfront
  obtain rfl : m = n := by simpa using (List.append_inj' hfront rfl).2.symm
  exact ⟨List.append_cancel_right h, rfl⟩

/-! ## The last name -/

/-- What may follow the last name of a path: slashes, and dots that stand for the folder itself. -/
inductive Idle : Path → Prop
  | nil : Idle []
  | slash {trail : Path} : Idle trail → Idle ('/' :: trail)
  | here {trail : Path} : Idle trail → Idle ('/' :: '.' :: trail)

namespace Idle

variable {a b : Path}

theorem append (ha : Idle a) (hb : Idle b) : Idle (a ++ b) := by
  induction ha with
  | nil => exact hb
  | slash _ ih => exact .slash ih
  | here _ ih => exact .here ih

theorem take (h : Idle a) (n : Nat) : Idle (a.take n) := by
  induction h generalizing n with
  | nil => simpa using .nil
  | slash _ ih =>
    cases n with
    | zero => exact .nil
    | succ n => exact .slash (ih n)
  | here _ ih =>
    match n with
    | 0 => exact .nil
    | 1 => exact .slash .nil
    | n + 2 => exact .here (ih n)

theorem trimBack_append (h : Idle a) (r : Path) : trimBack (a.reverse ++ r) = trimBack r := by
  induction h generalizing r with
  | nil => rfl
  | slash _ ih =>
    rw [List.reverse_cons, List.append_assoc, ih]
    rfl
  | here _ ih =>
    rw [List.reverse_cons, List.reverse_cons, List.append_assoc, List.append_assoc, ih]
    rfl

end Idle

theorem exists_idle (r : Path) : ∃ trail, Idle trail ∧ r = trail.reverse ++ trimBack r := by
  fun_induction trimBack r with
  | case1 r ih =>
    obtain ⟨trail, hidle, hr⟩ := ih
    exact ⟨trail ++ ['/'], hidle.append (.slash .nil), by simpa using hr⟩
  | case2 r ih =>
    obtain ⟨trail, hidle, hr⟩ := ih
    exact ⟨trail ++ ['/', '.'], hidle.append (.here .nil), by simpa using hr⟩
  | case3 r => exact ⟨[], .nil, rfl⟩

theorem trimBack_part {part : Path} (hslash : '/' ∉ part) (hne : part ≠ []) (hhere : part ≠ ['.']) (r : Path) :
    trimBack (part.reverse ++ r) = part.reverse ++ r := by
  have hreverse : '/' ∉ part.reverse := by simpa using hslash
  cases hback : part.reverse with
  | nil => exact absurd (List.reverse_eq_nil_iff.mp hback) hne
  | cons c cs =>
    have hpart : part = cs.reverse ++ [c] := by simpa using congrArg List.reverse hback
    rw [hback, List.mem_cons, not_or] at hreverse
    cases cs with
    | nil =>
      have hdot : c ≠ '.' := by
        rintro rfl
        exact hhere hpart
      simp [trimBack, hdot, Ne.symm hreverse.1]
    | cons d ds =>
      have hd : d ≠ '/' := by
        rintro rfl
        simp at hreverse
      by_cases hdot : c = '.'
      · simp [trimBack, hdot, hd]
      · simp [trimBack, hdot, Ne.symm hreverse.1]

theorem all_ne {c : Char} {p : Path} (h : c ∉ p) : ∀ d ∈ p.reverse, decide (d ≠ c) = true := by
  intro d hd
  have hne : d ≠ c := by
    rintro rfl
    exact h (by simpa using hd)
  simpa using hne

theorem splitLast_part {folder part trail : Path} (h : Opens folder) (hslash : '/' ∉ part) (hne : part ≠ [])
    (hhere : part ≠ ['.']) (hidle : Idle trail) : splitLast (folder ++ part ++ trail) = (folder, part) := by
  have hstop := h.reverse
  simp only [splitLast, List.reverse_append, hidle.trimBack_append, trimBack_part hslash hne hhere]
  rw [List.takeWhile_append_of_pos (all_ne hslash), List.dropWhile_append_of_pos (all_ne hslash), hstop.1, hstop.2]
  simp

/-- A path is what stands before its last part, that part, and nothing of weight behind it. -/
theorem splitLast_spec (p : Path) : Opens p.splitLast.1 ∧ '/' ∉ p.splitLast.2 ∧
    ∃ trail, Idle trail ∧ p = p.splitLast.1 ++ p.splitLast.2 ++ trail := by
  refine ⟨?_, ?_, ?_⟩
  · simp only [Opens, splitLast, List.reverse_eq_nil_iff, List.getLast?_reverse]
    cases hdrop : (trimBack p.reverse).dropWhile (· ≠ '/') with
    | nil => exact .inl rfl
    | cons c cs =>
      have hstop := List.head?_dropWhile_not (· ≠ '/') (trimBack p.reverse)
      rw [hdrop] at hstop
      exact .inr (by simpa using hstop)
  · intro hmem
    simpa using List.mem_takeWhile_imp (List.mem_reverse.mp hmem)
  · obtain ⟨trail, hidle, hp⟩ := exists_idle p.reverse
    refine ⟨trail, hidle, ?_⟩
    have hwhole : p = (trimBack p.reverse).reverse ++ trail := by simpa using congrArg List.reverse hp
    have hback : (trimBack p.reverse).reverse = p.splitLast.1 ++ p.splitLast.2 := by
      rw [splitLast, ← List.reverse_append, List.takeWhile_append_dropWhile]
    rw [← hback]
    exact hwhole

theorem splitName?_eq_some_iff {p folder name : Path} : p.splitName? = some (folder, name) ↔
    Opens folder ∧ IsName name ∧ ∃ trail, Idle trail ∧ p = folder ++ name ++ trail := by
  constructor
  · intro h
    obtain ⟨hopens, hslash, hwhole⟩ := splitLast_spec p
    simp only [splitName?, Option.ite_none_left_eq_some, Option.some.injEq, Prod.mk.injEq, Bool.or_eq_true,
      decide_eq_true_eq, not_or] at h
    obtain ⟨⟨⟨hne, hhere⟩, habove⟩, rfl, rfl⟩ := h
    exact ⟨hopens, ⟨hslash, hne, hhere, habove⟩, hwhole⟩
  · rintro ⟨hopens, hname, trail, hidle, rfl⟩
    rw [splitName?, splitLast_part hopens hname.slash hname.nonempty hname.ne_here hidle]
    simp [hname.nonempty, hname.ne_here, hname.ne_above]

theorem splitName?_name {folder name : Path} (h : Opens folder) (hname : IsName name) :
    (folder ++ name).splitName? = some (folder, name) :=
  splitName?_eq_some_iff.mpr ⟨h, hname, [], .nil, (List.append_nil _).symm⟩

/-- The last name of a path. -/
def name? (p : Path) : Option Path := p.splitName?.map Prod.snd

theorem name?_eq_some_iff {p name : Path} :
    p.name? = some name ↔ ∃ folder, p.splitName? = some (folder, name) := by
  simp [name?]

/-- Two dots at the end are no name. -/
theorem splitName?_above {folder : Path} (h : Opens folder) : (folder ++ ['.', '.']).splitName? = none := by
  have hlast : splitLast (folder ++ ['.', '.'] ++ []) = (folder, ['.', '.']) :=
    splitLast_part h (by decide) (by decide) (by decide) .nil
  rw [List.append_nil] at hlast
  simp [splitName?, hlast]

/-! ## Stems and extensions -/

/-- A name is a stem alone, or a stem and an extension, in which there is no dot. -/
theorem splitDot_cases (name : Path) : splitDot name = (name, none) ∨
    ∃ stem extension, stem ≠ [] ∧ '.' ∉ extension ∧ name = stem ++ '.' :: extension ∧
      splitDot name = (stem, some extension) := by
  cases h : splitDot name with
  | mk stem own =>
    cases own with
    | none =>
      left
      unfold splitDot at h
      split at h
      · simp at h
      · simpa using h.symm
    | some extension =>
      right
      refine ⟨stem, extension, ?_, ?_, eq_of_splitDot h, rfl⟩
      · rintro rfl
        unfold splitDot at h
        split at h <;> simp at h
      · unfold splitDot at h
        split at h
        · simp only [Prod.mk.injEq, Option.some.injEq] at h
          obtain ⟨-, rfl⟩ := h
          intro hmem
          simpa using List.mem_takeWhile_imp (List.mem_reverse.mp hmem)
        · simp at h

theorem splitDot_of_none {name : Path} (h : (splitDot name).2 = none) : splitDot name = (name, none) := by
  rcases splitDot_cases name with heq | ⟨stem, extension, -, -, -, heq⟩
  · exact heq
  · rw [heq] at h
    cases h

/-- The extension starts behind the last dot, which may be the last character. -/
theorem splitDot_append {stem extension : Path} (h : stem ≠ []) (hdot : '.' ∉ extension) :
    splitDot (stem ++ '.' :: extension) = (stem, some extension) := by
  obtain ⟨c, cs, hback⟩ := List.exists_cons_of_ne_nil (List.reverse_ne_nil_iff.mpr h)
  have hstem : stem = cs.reverse ++ [c] := by simpa using congrArg List.reverse hback
  have hwhole : (stem ++ '.' :: extension).reverse = extension.reverse ++ '.' :: c :: cs := by simp [hstem]
  rw [splitDot, hwhole, List.dropWhile_append_of_pos (all_ne hdot), List.takeWhile_append_of_pos (all_ne hdot)]
  simp [hstem]

/-- The stem of a name is not empty and has no slash. -/
theorem IsName.stem {name : Path} (h : IsName name) : (splitDot name).1 ≠ [] ∧ '/' ∉ (splitDot name).1 := by
  rcases splitDot_cases name with heq | ⟨stem, extension, hstem, -, rfl, heq⟩
  · rw [heq]
    exact ⟨h.nonempty, h.slash⟩
  · have hslash := h.slash
    simp only [List.mem_append, not_or] at hslash
    rw [heq]
    exact ⟨hstem, hslash.1⟩

theorem withExtension_none {p : Path} (h : p.splitName? = none) (extension : Path) :
    p.withExtension extension = p := by
  simp [withExtension, extension?, setExtension, h]

theorem setExtension_eq {p folder name : Path} (h : p.splitName? = some (folder, name)) (extension : Path) :
    p.setExtension extension = folder ++ ((splitDot name).1 ++ '.' :: extension) := by
  simp [setExtension, h]

/-- As many characters as the extension has are cut off at the end of the path, so some of the extension
stays where slashes stand behind it. -/
theorem take_extension (front own trail : Path) :
    (front ++ own ++ trail).take ((front ++ own ++ trail).length - own.length) =
      front ++ own.take trail.length ++ trail.take (trail.length - own.length) := by
  have hlength : (front ++ own ++ trail).length - own.length = front.length + trail.length := by
    simp only [List.length_append]
    omega
  rw [hlength, List.append_assoc, List.take_length_add_append, List.take_append, List.append_assoc]

/-- Another extension stands behind the stem of the last name, whatever follows that name. Only the stem
that is one dot can get lost: with the dot of its own extension it is no name. -/
theorem withExtension_cases {p folder name : Path} (h : p.splitName? = some (folder, name)) (extension : Path) :
    p.withExtension extension = folder ++ ((splitDot name).1 ++ '.' :: extension) ∨
      (splitDot name).1 = ['.'] ∧ p.withExtension extension = folder ++ ['.', '.'] := by
  obtain ⟨hopens, hname, trail, hidle, hp⟩ := splitName?_eq_some_iff.mp h
  rcases splitDot_cases name with heq | ⟨stem, own, hne, hdot, rfl, heq⟩
  · have hnone : p.extension? = none := by simp [extension?, h, heq]
    rw [withExtension, hnone]
    exact .inl (setExtension_eq h extension)
  have hcut : p.withExtension extension =
      (folder ++ (stem ++ '.' :: own.take trail.length) ++ trail.take (trail.length - own.length)).setExtension
        extension := by
    have hown : p.extension? = some own := by simp [extension?, h, heq]
    have hwhole : p = folder ++ (stem ++ ['.']) ++ own ++ trail := by simp [hp]
    have htake := take_extension (folder ++ (stem ++ ['.'])) own trail
    rw [← hwhole] at htake
    simp only [withExtension, hown, htake, List.append_assoc, List.singleton_append]
  rw [hcut, heq]
  by_cases hdots : stem = ['.'] ∧ own.take trail.length = []
  · -- nothing of the extension stays, and there is one, for else the name were two dots
    obtain ⟨rfl, hnil⟩ := hdots
    obtain rfl : trail = [] := by
      rcases List.take_eq_nil_iff.mp hnil with hzero | rfl
      · exact List.length_eq_zero_iff.mp hzero
      · exact absurd rfl hname.ne_above
    refine .inr ⟨rfl, ?_⟩
    simp [setExtension, splitName?_above hopens]
  · have hslash := hname.slash
    simp only [List.mem_append, List.mem_cons, not_or] at hslash
    have hkept : IsName (stem ++ '.' :: own.take trail.length) := by
      refine ⟨?_, by simp, by simp [List.append_eq_cons_iff, hne], ?_⟩
      · simp only [List.mem_append, List.mem_cons, not_or]
        exact ⟨hslash.1, hslash.2.1, fun hmem => hslash.2.2 (List.mem_of_mem_take hmem)⟩
      · intro habove
        obtain ⟨c, cs, rfl⟩ := List.exists_cons_of_ne_nil hne
        obtain ⟨rfl, hrest⟩ := List.cons.inj habove
        cases cs with
        | nil => exact hdots ⟨rfl, (List.cons.inj hrest).2⟩
        | cons d ds => simp at hrest
    rw [setExtension_eq (splitName?_eq_some_iff.mpr ⟨hopens, hkept, _, hidle.take _, rfl⟩),
      splitDot_append hne fun hmem => hdot (List.mem_of_mem_take hmem)]
    exact .inl rfl

/-- Of the stem that is one dot nothing is said. -/
theorem withExtension_name {folder name : Path} (h : Opens folder) (hname : IsName name)
    (hstem : (splitDot name).1 ≠ ['.']) (extension : Path) :
    (folder ++ name).withExtension extension = folder ++ ((splitDot name).1 ++ '.' :: extension) :=
  (withExtension_cases (splitName?_name h hname) extension).resolve_right fun hdot => hstem hdot.1

/-! ## The name at the end -/

/-- What stands before the name at the end of a path, and that name; none where a path ends in a slash or in
dots. -/
def ending? (p : Path) : Option (Path × Path) :=
  let name := (p.reverse.takeWhile (· ≠ '/')).reverse
  if IsName name then some ((p.reverse.dropWhile (· ≠ '/')).reverse, name) else none

theorem ending?_append {folder name : Path} (h : Opens folder) (hname : IsName name) :
    (folder ++ name).ending? = some (folder, name) := by
  have hback := all_ne hname.slash
  have hstop := h.reverse
  rw [ending?, List.reverse_append, List.takeWhile_append_of_pos hback, List.dropWhile_append_of_pos hback,
    hstop.1, hstop.2]
  simp [hname]

theorem ending?_eq_some_iff {p folder name : Path} :
    p.ending? = some (folder, name) ↔ Opens folder ∧ IsName name ∧ p = folder ++ name := by
  constructor
  · intro h
    obtain ⟨front, last, rfl, hopens, hslash⟩ := p.exists_split
    have hback := all_ne hslash
    have hstop := hopens.reverse
    rw [ending?, List.reverse_append, List.takeWhile_append_of_pos hback, List.dropWhile_append_of_pos hback,
      hstop.1, hstop.2] at h
    simp only [List.append_nil, List.reverse_reverse, Option.ite_none_right_eq_some, Option.some.injEq,
      Prod.mk.injEq] at h
    obtain ⟨hname, rfl, rfl⟩ := h
    exact ⟨hopens, hname, rfl⟩
  · rintro ⟨hopens, hname, rfl⟩
    exact ending?_append hopens hname

section

variable {p folder name : Path}

theorem splitName?_of_ending? (h : p.ending? = some (folder, name)) : p.splitName? = some (folder, name) := by
  obtain ⟨hopens, hname, rfl⟩ := ending?_eq_some_iff.mp h
  exact splitName?_name hopens hname

theorem stem?_of_ending? (h : p.ending? = some (folder, name)) : p.stem? = some (splitDot name).1 := by
  rw [stem?, splitName?_of_ending? h, Option.map_some]

/-- The path of something in a folder is the path of the folder, open at its end, and its name. -/
theorem join_eq (folder name : Path) : folder.join name = folder.join [] ++ name := by
  unfold join
  split <;> simp

theorem opens_join (folder : Path) : Opens (folder.join []) := by
  unfold join
  split
  · rename_i h
    exact .inl (by simpa using List.getLast?_eq_none_iff.mp h)
  · rename_i h
    exact .inr (by simpa using h)
  · exact .inr (by simp)

end

end Ferrite.Path
