/-! Paths of files, as they are written: names with slashes between them. -/

namespace Ferrite

abbrev Path := List Char

/-- The names from some folder down to a file or folder in it. -/
abbrev Route := List Path

namespace Path

/-- The parts between the slashes, empty ones included. -/
def names : Path → Route
  | [] => [[]]
  | c :: cs =>
      if c = '/' then [] :: names cs
      else match names cs with
        | [] => [[c]]
        | n :: ns => (c :: n) :: ns

/-- The path of something in a folder. -/
def join (folder name : Path) : Path :=
  match folder.getLast? with
  | none | some '/' => folder ++ name
  | some _ => folder ++ '/' :: name

def joinRoute (folder : Path) (route : Route) : Path := route.foldl join folder

/-- A path from back to front, without the slashes at its end and the dots that stand for the
folder itself. -/
def trimBack : Path → Path
  | '/' :: r => trimBack r
  | '.' :: '/' :: r => trimBack r
  | r => r

/-- What stands before the last part of a path, and that part. -/
def splitLast (p : Path) : Path × Path :=
  let back := trimBack p.reverse
  ((back.dropWhile (· ≠ '/')).reverse, (back.takeWhile (· ≠ '/')).reverse)

/-- What stands before the last name, and that name; none where the last part names nothing. -/
def splitName? (p : Path) : Option (Path × Path) :=
  let (folder, name) := p.splitLast
  if name = [] || name = ['.'] || name = ['.', '.'] then none else some (folder, name)

/-- A name up to its last dot, and what follows that dot. A dot in front does not count. -/
def splitDot (name : Path) : Path × Option Path :=
  match name.reverse.dropWhile (· ≠ '.') with
  | _ :: c :: before =>
      ((c :: before).reverse, some (name.reverse.takeWhile (· ≠ '.')).reverse)
  | _ => (name, none)

def stem? (p : Path) : Option Path := p.splitName?.map fun (_, name) => (splitDot name).1

def extension? (p : Path) : Option Path := p.splitName?.bind fun (_, name) => (splitDot name).2

/-- Puts an extension behind the stem of the last name. A path that ends in no name stays. -/
def setExtension (p extension : Path) : Path :=
  match p.splitName? with
  | none => p
  | some (folder, name) => folder ++ (splitDot name).1 ++ '.' :: extension

/-- Puts another extension in place of a path's own, which is cut off at the dot before the stem
is looked for: where two dots are left, they are no name any more, and the path ends there. -/
def withExtension (p extension : Path) : Path :=
  match p.extension? with
  | none => p.setExtension extension
  | some own => setExtension (p.take (p.length - own.length)) extension

/-- The folder that a path leads into before its last part; empty where paths start. -/
def parent (p : Path) : Path := (trimBack p.splitLast.1.reverse).reverse

def display (p : Path) : String := String.ofList p

/-- Whether a name comes before another, by the numbers of their characters. -/
def nameBefore (a b : Path) : Bool := List.lex a b fun c d => c.toNat < d.toNat

/-- Whether a route comes before another, name by name. -/
def routeBefore (a b : Route) : Bool := List.lex a b nameBefore

/-- An extension is cut off together with its dot. -/
theorem eq_of_splitDot {name stem extension : Path}
    (h : splitDot name = (stem, some extension)) : name = stem ++ '.' :: extension := by
  unfold splitDot at h
  have whole := List.takeWhile_append_dropWhile (p := (· ≠ '.')) (l := name.reverse)
  split at h
  next dot c before cut =>
      have first : dot = '.' := by
        have stopped := List.head?_dropWhile_not (· ≠ '.') name.reverse
        rw [cut] at stopped
        simpa using stopped
      simp only [Prod.mk.injEq, Option.some.injEq] at h
      obtain ⟨rfl, rfl⟩ := h
      rw [cut, first] at whole
      have back := congrArg List.reverse whole
      simpa using back.symm
  next => simp at h

theorem trimBack_length_le (p : Path) : (trimBack p).length ≤ p.length := by
  fun_induction trimBack p with
  | case1 r ih => exact Nat.le_succ_of_le ih
  | case2 r ih => exact Nat.le_succ_of_le (Nat.le_succ_of_le ih)
  | case3 => exact Nat.le_refl _

theorem head?_trimBack (p : Path) : (trimBack p).head? ≠ some '/' := by
  fun_induction trimBack p with
  | case1 r ih => exact ih
  | case2 r ih => exact ih
  | case3 r noSlash =>
      cases r with
      | nil => simp
      | cons c cs =>
          intro slash
          exact noSlash cs (by simpa using slash)

theorem parent_length_lt {p : Path} (h : p ≠ []) : p.parent.length < p.length := by
  have whole := trimBack_length_le p.reverse
  have front := trimBack_length_le p.splitLast.1.reverse
  have start := head?_trimBack p.reverse
  simp only [splitLast, List.reverse_reverse, List.length_reverse] at whole front
  simp only [parent, splitLast, List.reverse_reverse, List.length_reverse]
  have nonempty := List.length_pos_iff.mpr h
  cases back : trimBack p.reverse with
  | nil => simpa [back, trimBack] using nonempty
  | cons c cs =>
      rw [back] at whole front start
      have other : c ≠ '/' := by simpa using start
      have step : (c :: cs).dropWhile (· ≠ '/') = cs.dropWhile (· ≠ '/') := by simp [other]
      have rest := (List.dropWhile_sublist (· ≠ '/') (l := cs)).length_le
      rw [step] at front ⊢
      rw [List.length_cons] at whole
      omega

theorem names_ne_nil (p : Path) : names p ≠ [] := by
  cases p with
  | nil => simp [names]
  | cons c cs =>
      unfold names
      split
      · simp
      · split <;> simp

end Path
end Ferrite
