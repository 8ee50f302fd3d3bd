/-! Text measured in bytes of its UTF-8 form. Every offset in the library counts such bytes. -/

namespace Ferrite.Text

/-- The number of bytes the characters take. -/
def width : List Char → Nat
  | [] => 0
  | c :: cs => c.utf8Size + width cs

@[simp] theorem width_nil : width [] = 0 := rfl

@[simp] theorem width_cons (c : Char) (cs : List Char) :
    width (c :: cs) = c.utf8Size + width cs := rfl

@[simp] theorem width_append (a b : List Char) : width (a ++ b) = width a + width b := by
  induction a with
  | nil => simp
  | cons c a ih => simp [ih, Nat.add_assoc]

/-- Cuts the text after `n` bytes; fails beyond its end and inside a character. -/
def cut? : Nat → List Char → Option (List Char × List Char)
  | 0, cs => some ([], cs)
  | _ + 1, [] => none
  | n + 1, c :: cs =>
      if c.utf8Size ≤ n + 1 then
        (cut? (n + 1 - c.utf8Size) cs).map fun (a, b) => (c :: a, b)
      else none

/-- The text between two byte offsets, if both are character boundaries in order. -/
def slice? (start stop : Nat) (cs : List Char) : Option (List Char) := do
  if stop < start then none
  let (_, rest) ← cut? start cs
  let (inner, _) ← cut? (stop - start) rest
  return inner

theorem cut?_width (a b : List Char) : cut? (width a) (a ++ b) = some (a, b) := by
  induction a with
  | nil => cases b <;> rfl
  | cons c a ih =>
      have hc : 0 < c.utf8Size := Char.utf8Size_pos c
      obtain ⟨n, hn⟩ : ∃ n, c.utf8Size + width a = n + 1 := ⟨c.utf8Size + width a - 1, by omega⟩
      have hle : c.utf8Size ≤ n + 1 := by omega
      have hsub : n + 1 - c.utf8Size = width a := by omega
      simp [hn, cut?, hle, hsub, ih]

end Ferrite.Text
