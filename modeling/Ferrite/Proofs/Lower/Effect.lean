import Ferrite.Proofs.Lower.Mirror
import Ferrite.Proofs.Lower.Inversion
import Ferrite.Proofs.Wasm.Typing

/-!
What the code of single operations takes and leaves, given the types that checking noted: values,
their places, operators, and what is put around the code of a node.
-/

namespace Ferrite

namespace Ty

theorem eq_of_alike {a b : Ty} (h : a.alike b = true)
    (hs : a.isUnsupported = false ∨ b.isUnsupported = false) : a = b := by
  cases a with
  | tuple parts =>
    cases b with
    | tuple parts' => cases parts <;> cases parts' <;> simp_all [alike, allAlike, isUnsupported]
    | _ => simp [alike] at h
  | function params result => cases b <;> simp_all [alike, isUnsupported]
  | _ => cases b <;> simp_all [alike, isUnsupported]

end Ty

namespace Lower
open Wasm (ValType Instr Moves)

/-- What code for a node of the type may leave: its value, or anything if the value never comes. -/
def Yields (t : Ty) (rs : List ValType) : Prop :=
  t = .never ∨ ∃ v, valType t = .ok v ∧ rs = v.toList

/-- The code leaves what code for a node of the type may leave. -/
def Leaves (C : Wasm.Context) (is : List Instr) (t : Ty) : Prop := ∀ rs, Yields t rs → Moves C is [] rs

section

variable {t u : Ty} {rs : List ValType} {v : Option ValType}

theorem yields_value (h : valType t = .ok v) : Yields t v.toList := .inr ⟨v, h, rfl⟩

theorem Yields.isUnsupported (h : Yields t rs) : t.isUnsupported = false := by
  rcases h with rfl | ⟨v, hv, -⟩
  · rfl
  · exact isUnsupported_of_valType hv

theorem yields_unit (h : Yields .unit rs) : rs = [] := by
  rcases h with hn | ⟨v, hv, rfl⟩
  · cases hn
  · cases hv
    rfl

theorem Yields.suits (h : Yields u rs) (hs : t.Suits u) : Yields t rs := by
  rcases hs with hn | ha
  · exact .inl hn
  · rw [Ty.eq_of_alike ha (.inr h.isUnsupported)]
    exact h

theorem yields_test (h : Check.IsTest t) : Yields t [.i32] :=
  Yields.suits (u := .bool) (.inr ⟨some .i32, rfl, rfl⟩) h

/-- Both branches may leave what they are to leave together. -/
theorem Yields.joins {yesReturns noReturns : Bool} {yes no : Ty} (h : Yields t rs)
    (hj : Check.Joins yesReturns yes noReturns no t) :
    (yesReturns = true ∨ Yields yes rs) ∧ (noReturns = true ∨ Yields no rs) := by
  rcases hj with ⟨hyes, rfl⟩ | ⟨hno, rfl⟩ | ⟨hs, rfl⟩
  · exact ⟨hyes.symm.imp_right .inl, .inr h⟩
  · exact ⟨.inr h, hno.symm.imp_right .inl⟩
  · exact ⟨.inr h, .inr (h.suits hs)⟩

/-- The operands of an operator may leave the same value. -/
theorem Yields.operands {l r : Ty} (h : Yields (Check.operandType l r) rs)
    (ho : l = .never ∨ r = .never ∨ l.alike r = true) : Yields l rs ∧ Yields r rs := by
  unfold Check.operandType at h
  by_cases hl : l = .never
  · rw [if_pos hl] at h
    exact ⟨.inl hl, h⟩
  · rw [if_neg hl] at h
    rcases ho with hn | hr | ha
    · exact absurd hn hl
    · exact ⟨h, .inl hr⟩
    · exact ⟨h, Ty.eq_of_alike ha (.inl h.isUnsupported) ▸ h⟩

end

section

variable {C : Wasm.Context} {is : List Instr} {t : Ty} {v : Option ValType} {a : ValType}

/-- Code that leaves the value is completed for values that never come. -/
theorem leaves_sealed (h : ∀ v, valType t = .ok v → Moves C is [] v.toList) :
    Leaves C (sealed t is) t := by
  intro rs hrs
  unfold sealed
  split
  · rename_i hn
    subst hn
    exact (h none rfl).append .unreachable
  · rename_i hn
    rcases hrs with hn' | ⟨v, hv, rfl⟩
    · exact absurd hn' hn
    · exact h v hv

theorem moves_dropCode (hv : valType t = .ok v) (h : Moves C is [] v.toList) :
    Moves C (is ++ dropCode v) [] [] := by
  cases v with
  | none => simpa [dropCode] using h
  | some a => exact h.append (.drop a)

theorem moves_readLocal {slot : Option Nat} (hf : Fits C.locals t slot) (hv : valType t = .ok v) :
    Moves C (readLocal slot) [] v.toList := by
  cases slot with
  | none =>
    rw [show valType t = .ok none from hf] at hv
    cases hv
    exact .nil
  | some i =>
    obtain ⟨a, ha, hi⟩ := hf
    rw [ha] at hv
    cases hv
    exact .localGet hi

theorem moves_writeLocal {slot : Option Nat} (hf : Fits C.locals t slot) :
    ∃ v, valType t = .ok v ∧ Moves C (writeLocal slot) v.toList [] := by
  cases slot with
  | none => exact ⟨none, hf, .nil⟩
  | some i =>
    obtain ⟨a, ha, hi⟩ := hf
    exact ⟨some a, ha, .localSet hi⟩

theorem moves_intConst (size : Wasm.Size) (n : Int) : Moves C [intConst size n] [] [size.int] := by
  cases size with
  | small => exact .instr ⟨[], [.i32]⟩ rfl
  | large => exact .instr ⟨[], [.i64]⟩ rfl

theorem moves_constant {l : Literal} {i : Instr} (hi : constant l = .ok i) (hv : valType l.type = .ok v) :
    Moves C [i] [] v.toList := by
  cases l with
  | bool b =>
    cases hi
    cases hv
    exact .instr ⟨[], [.i32]⟩ rfl
  | int t bits =>
    cases hi
    cases hv
    exact moves_intConst _ _
  | float t bits =>
    cases t with
    | f32 =>
      cases hi
      cases hv
      exact .instr ⟨[], [.f32]⟩ rfl
    | f64 =>
      cases hi
      cases hv
      exact .instr ⟨[], [.f64]⟩ rfl
  | text s => cases hi

/-- Restoring the form of a value keeps its type. -/
theorem moves_normalize (hv : valType t = .ok (some a)) : Moves C (normalize t) [a] [a] := by
  have hmask : ∀ mask, Moves C [.i32Const mask, .int .small .and] [.i32] [.i32] := by
    intro mask
    have hconst : Moves C [.i32Const mask] [] [.i32] := .instr ⟨[], [.i32]⟩ rfl
    have hand : Moves C [.int .small .and] [.i32, .i32] [.i32] := .instr ⟨[.i32, .i32], [.i32]⟩ rfl
    exact (hconst.below [.i32]).append hand
  unfold normalize
  split
  · cases hv
    exact .instr ⟨[.i32], [.i32]⟩ rfl
  · cases hv
    exact .instr ⟨[.i32], [.i32]⟩ rfl
  · cases hv
    exact hmask _
  · cases hv
    exact hmask _
  · exact .nil

/-- The type of the values that are computed with. -/
def Arithmetic.valType : Arithmetic → ValType
  | .int size _ => size.int
  | .float size => size.float

theorem valType_of_arithmetic {c : Arithmetic} (h : arithmetic? t = some c) :
    valType t = .ok (some c.valType) := by
  cases t <;> cases h <;> rfl

theorem moves_unary {op : UnaryOp} {before behind : List Instr}
    (hop : unaryCode? op t = some (before, behind)) (hv : valType t = .ok v)
    (h : Moves C is [] v.toList) : Moves C (before ++ is ++ behind ++ normalize t) [] v.toList := by
  obtain ⟨c, hc⟩ : ∃ c, arithmetic? t = some c := by
    cases hc : arithmetic? t with
    | some c => exact ⟨c, rfl⟩
    | none =>
      unfold unaryCode? at hop
      rw [hc] at hop
      cases op <;> cases hop
  rw [valType_of_arithmetic hc] at hv
  cases hv
  refine Moves.append ?_ (moves_normalize (valType_of_arithmetic hc))
  unfold unaryCode? at hop
  rw [hc] at hop
  cases op with
  | neg =>
    cases c with
    | int size signed =>
      cases hop
      have hsub : Moves C [.int size .sub] [size.int, size.int] [size.int] :=
        .instr ⟨[size.int, size.int], [size.int]⟩ rfl
      exact ((moves_intConst size 0).append_new h).append hsub
    | float size =>
      cases hop
      exact h.append (.instr ⟨[size.float], [size.float]⟩ rfl)
  | not =>
    cases c with
    | int size signed =>
      dsimp only at hop
      split at hop
      · rename_i hb
        subst hb
        cases hc
        cases hop
        exact h.append (.instr ⟨[.i32], [.i32]⟩ rfl)
      · cases hop
        have hxor : Moves C [.int size .xor] [size.int, size.int] [size.int] :=
          .instr ⟨[size.int, size.int], [size.int]⟩ rfl
        exact h.append (((moves_intConst size (-1)).below [size.int]).append hxor)
    | float size => cases hop

/-- The type of the one instruction for an operator. -/
theorem type?_binaryInstr? {op : BinaryOp} {c : Arithmetic} {i : Instr} (h : binaryInstr? op c = some i) :
    i.type? C = some ⟨[c.valType, c.valType], [if op.isComparison then .i32 else c.valType]⟩ := by
  cases c with
  | int size signed => cases op <;> cases h <;> rfl
  | float size => cases op <;> cases h <;> rfl

theorem moves_floatRemainder {size : Wasm.Size} {lhs rhs : Nat} (hl : C.locals[lhs]? = some size.float)
    (hr : C.locals[rhs]? = some size.float) :
    Moves C (floatRemainder size lhs rhs) [size.float, size.float] [size.float] := by
  have hop : ∀ op, Moves C [.float size op] [size.float, size.float] [size.float] :=
    fun _ => .instr ⟨[size.float, size.float], [size.float]⟩ rfl
  have htrunc : Moves C [.floatTrunc size] [size.float] [size.float] := .instr ⟨[size.float], [size.float]⟩ rfl
  have hsaved := ((Moves.localSet hr).below [size.float]).append (.localTee hl)
  have hloaded := (hsaved.append_new (.localGet hl)).append_new (.localGet hr)
  have hwhole := hloaded.append ((hop .div).below [size.float]) |>.append (htrunc.below [size.float])
  have hproduct := (hwhole.append_new (.localGet hr)).append ((hop .mul).below [size.float])
  exact hproduct.append (hop .sub)

/-- A new local is found by its index. -/
theorem getElem?_add {params locals : List ValType} {l : Locals} (hp : l.params = params.length)
    (hl : params ++ (l.add a).2.types <+: locals) : locals[(l.add a).1]? = some a := by
  obtain ⟨rest, rfl⟩ := hl
  simp [Locals.add, hp]

theorem moves_operator {op : BinaryOp} {τ τ' : State} {params : List ValType}
    (hrun : operator op t τ = .ok is τ') (ht : valType t = .ok (some a))
    (hp : τ.locals.params = params.length) (hl : params ++ τ'.locals.types <+: C.locals) :
    Moves C is [a, a] [if op.isComparison then .i32 else a] := by
  rcases operator_ok hrun with ⟨size, rfl, hc, rfl, rfl⟩ | ⟨c, i, hc, hi, rfl, rfl⟩
  · rw [valType_of_arithmetic hc] at ht
    cases ht
    apply moves_floatRemainder
    · apply getElem?_add hp
      refine List.IsPrefix.trans ?_ hl
      simp [Locals.add]
    · exact getElem?_add hp hl
  · have hc' := valType_of_arithmetic hc
    rw [ht] at hc'
    cases hc'
    have hop : Moves C [i] [c.valType, c.valType] [if op.isComparison then .i32 else c.valType] :=
      .instr ⟨[c.valType, c.valType], [_]⟩ (type?_binaryInstr? hi)
    apply hop.append
    cases hkeeps : op.isArithmetic || op.isShift with
    | true =>
      have hvalue : op.isComparison = false := by cases op <;> first | rfl | cases hkeeps
      rw [hvalue]
      exact moves_normalize ht
    | false => exact .nil

end
end Lower
end Ferrite
