import Ferrite.Proofs.Lexer.Printed
import Ferrite.Proofs.Parse.Sound

/-!
Printed types and headers. The text of each says words that spell it again.
-/

namespace Ferrite

theorem commas_cons_cons (a b : String) (parts : List String) :
    commas (a :: b :: parts) = a ++ ", " ++ commas (b :: parts) := String.intercalate_cons_cons

namespace Ty

theorem ofName?_display {name : String} {t : Ty} (h : ofName? name = some t) : t.display = name := by
  have hall : ∀ entry ∈ named, entry.2.display = entry.1 := by decide
  obtain ⟨before, behind, heq, -⟩ := List.lookup_eq_some_iff.mp h
  exact hall (name, t) (by rw [heq]; simp)

theorem eq_unit {t : Ty} (h : t.isUnit = true) : t = .unit := by
  unfold isUnit at h
  split at h
  · rfl
  · cases h

theorem displayAll_eq (ts : List Ty) : displayAll ts = commas (ts.map display) := by
  match ts with
  | [] => rfl
  | [t] => rfl
  | t :: u :: ts =>
    change t.display ++ ", " ++ displayAll (u :: ts) = commas (t.display :: u.display :: ts.map display)
    rw [commas_cons_cons, displayAll_eq (u :: ts), List.map_cons]

/-- A result with its arrow, unless it is the unit type. -/
def displayResult (t : Ty) : String := if t.isUnit then "" else " -> " ++ t.display

end Ty

namespace Parse

open Lexer (Says Apart apart_nil apart_cons)

/-- Tokens with the words, all at one place. -/
def bareTokens (ws : List Terminal) : List Token := ws.map (⟨·, default⟩)

@[simp] theorem bareTokens_nil : bareTokens [] = [] := rfl

@[simp] theorem bareTokens_cons (w : Terminal) (ws : List Terminal) :
    bareTokens (w :: ws) = ⟨w, default⟩ :: bareTokens ws := rfl

@[simp] theorem bareTokens_append (ws vs : List Terminal) :
    bareTokens (ws ++ vs) = bareTokens ws ++ bareTokens vs := List.map_append

/-- The text says words that spell something. -/
def Prints (text : List Char) (spell : List Token → Prop) : Prop :=
  ∃ ws, Says text ws ∧ spell (bareTokens ws)

/-- A text has all the words. -/
def Written (ts : List Token) : Prop := ∀ t ∈ ts, t.terminal.Written

@[simp] theorem written_nil : Written [] := by simp [Written]

@[simp] theorem written_cons {t : Token} {ts : List Token} :
    Written (t :: ts) ↔ t.terminal.Written ∧ Written ts := by simp [Written]

@[simp] theorem written_append {ts us : List Token} : Written (ts ++ us) ↔ Written ts ∧ Written us := by
  simp only [Written, List.mem_append, or_imp, forall_and]

/-- Parts with commas between them. -/
theorem commas_prints {α : Type} {print : α → String} {element : α → List Token → Prop} {xs : List α}
    (h : ∀ x ∈ xs, Prints (print x).toList (element x)) :
    Prints (commas (xs.map print)).toList (Commas element false (xs, false)) := by
  suffices hflag : ∀ comma, xs ≠ [] ∨ comma = false →
      Prints (commas (xs.map print)).toList (Commas element comma (xs, false)) from hflag false (.inr rfl)
  induction xs with
  | nil =>
    rintro _ (hne | rfl)
    · exact absurd rfl hne
    · exact ⟨[], .nil, .nil⟩
  | cons x xs ih =>
    intro comma _
    rw [List.forall_mem_cons] at h
    obtain ⟨ws, hws, hx⟩ := h.1
    cases xs with
    | nil => exact ⟨ws, hws, .last hx⟩
    | cons y xs =>
      obtain ⟨vs, hvs, hxs⟩ := ih h.2 true (.inl (List.cons_ne_nil _ _))
      have htext : (commas ((x :: y :: xs).map print)).toList =
          (print x).toList ++ ',' :: ' ' :: (commas ((y :: xs).map print)).toList := by
        rw [List.map_cons, List.map_cons, commas_cons_cons]
        simp [String.toList_append]
      rw [htext]
      refine ⟨_, hws.append (apart_cons (by simp) _) (.mark rfl (by simp) (.blank rfl hvs)), ?_⟩
      rw [bareTokens_append]
      exact .cons hx rfl hxs

/-! ## Types -/

/-- The type is printed as it is read. -/
abbrev TypePrints (t : Ty) : Prop := Prints t.display.toList fun ts => TypeSpelled (.type t) ts

def PhrasePrints : TypePhrase → Prop
  | .type t => TypePrints t
  | .result t => Prints t.displayResult.toList fun ts => TypeSpelled (.result t) ts
  | .types _ list => ∀ t ∈ list.1, TypePrints t

theorem types_prints {ts : List Ty} (h : ∀ t ∈ ts, TypePrints t) :
    Prints (Ty.displayAll ts).toList fun us => TypeSpelled (.types false (ts, false)) us := by
  rw [Ty.displayAll_eq]
  obtain ⟨ws, hws, hspelled⟩ := commas_prints h
  exact ⟨ws, hws, types_of_commas hspelled⟩

theorem typeName_prints {text : String} {t : Ty} (htext : Lexer.IsName text) (h : Ty.ofName? text = some t) :
    TypePrints t := by
  rw [TypePrints, Ty.ofName?_display h]
  exact ⟨_, .name htext, .name rfl h⟩

/-- One type by itself is no tuple, unless a comma comes behind it. -/
theorem tuple_prints {list : List Ty × Bool} (h : ∀ t ∈ list.1, TypePrints t) : TypePrints (tupleOf list) := by
  have hmany : ∀ ts : List Ty, ts.length ≠ 1 → (∀ t ∈ ts, TypePrints t) → TypePrints (.tuple ts) := by
    intro ts hlength hts
    obtain ⟨ws, hws, hspelled⟩ := types_prints hts
    have htext : (Ty.tuple ts).display.toList = '(' :: ((Ty.displayAll ts).toList ++ [')']) := by
      simp [Ty.display, if_neg hlength, String.toList_append]
    have htuple : tupleOf (ts, false) = .tuple ts := by
      unfold tupleOf
      split
      · rename_i heq
        cases heq
        exact absurd rfl hlength
      · rename_i heq
        cases heq
        rfl
    rw [TypePrints, htext]
    refine ⟨_, .mark rfl (by simp) (hws.append (apart_cons (by simp) _) (.mark rfl (by simp) .nil)), ?_⟩
    rw [← htuple, bareTokens_cons, bareTokens_append]
    exact .tuple rfl hspelled rfl
  match list with
  | ([t], false) => exact h t (by simp)
  | ([t], true) =>
    obtain ⟨ws, hws, ht⟩ := h t (by simp)
    have htext : (tupleOf ([t], true)).display.toList = '(' :: (t.display.toList ++ [',', ')']) := by
      simp [tupleOf, Ty.display, Ty.displayAll, String.toList_append]
    rw [TypePrints, htext]
    refine ⟨_, .mark rfl (by simp) (hws.append (apart_cons (by simp) _)
      (.mark rfl (by simp) (.mark rfl (by simp) .nil))), ?_⟩
    have hlist : TypeSpelled (.types false ([t], true)) (bareTokens ws ++ [⟨.punct .comma, default⟩]) :=
      .cons ht rfl .nil
    simpa using TypeSpelled.tuple (l := ⟨.punct .lparen, default⟩) (r := ⟨.punct .rparen, default⟩) rfl hlist rfl
  | ([], false) => exact hmany [] (by simp) (by simp)
  | ([], true) => exact hmany [] (by simp) (by simp)
  | (t :: u :: ts, false) => exact hmany _ (by simp) h
  | (t :: u :: ts, true) => exact hmany _ (by simp) h

theorem result_prints {t : Ty} (h : TypePrints t) :
    Prints t.displayResult.toList fun ts => TypeSpelled (.result t) ts := by
  unfold Ty.displayResult
  split
  case isTrue hunit =>
    rw [Ty.eq_unit hunit]
    exact ⟨[], .nil, .noResult⟩
  case isFalse =>
    obtain ⟨ws, hws, ht⟩ := h
    have htext : (" -> " ++ t.display).toList = ' ' :: (Punct.arrow.spelling.toList ++ ' ' :: t.display.toList) := by
      simp [Punct.spelling, String.toList_append]
    rw [htext]
    exact ⟨_, .blank rfl ((Says.punct .arrow).spaced hws), .result rfl ht⟩

theorem functionType_prints {ps : List Ty} {result : Ty} (hps : ∀ t ∈ ps, TypePrints t)
    (hresult : Prints result.displayResult.toList fun ts => TypeSpelled (.result result) ts) :
    TypePrints (.function ps result) := by
  obtain ⟨ws, hws, hparams⟩ := types_prints hps
  obtain ⟨vs, hvs, hresult⟩ := hresult
  have htext : (Ty.function ps result).display.toList = Keyword.fn.spelling.toList ++
      '(' :: ((Ty.displayAll ps).toList ++ ')' :: result.displayResult.toList) := by
    simp [Ty.display, Ty.displayResult, Keyword.spelling, String.toList_append]
  rw [TypePrints, htext]
  refine ⟨_, (Says.keyword .fn).append (apart_cons (by simp) _) (.mark rfl (by simp)
    (hws.append (apart_cons (by simp) _) (.mark rfl (by simp) hvs))), ?_⟩
  simp only [List.singleton_append, bareTokens_cons, bareTokens_append]
  exact .function rfl rfl hparams rfl hresult

theorem TypeSpelled.prints {phrase : TypePhrase} {ts : List Token} (h : TypeSpelled phrase ts)
    (hts : Written ts) : PhrasePrints phrase := by
  induction h with
  | name h hty =>
    rw [written_cons, h] at hts
    exact typeName_prints hts.1 hty
  | never => exact ⟨_, Says.punct .not, .never rfl⟩
  | tuple _ _ _ ih =>
    simp only [written_cons, written_append] at hts
    exact tuple_prints (ih hts.2.1)
  | function _ _ _ _ _ ih ih' =>
    simp only [written_cons, written_append] at hts
    exact functionType_prints (ih hts.2.2.1) (ih' hts.2.2.2.2)
  | noResult => exact ⟨[], .nil, .noResult⟩
  | result _ _ ih =>
    rw [written_cons] at hts
    exact result_prints (ih hts.2)
  | nil => simp [PhrasePrints]
  | last _ ih => simpa [PhrasePrints] using ih hts
  | cons _ _ _ ih ih' =>
    simp only [written_cons, written_append] at hts
    exact List.forall_mem_cons.mpr ⟨ih hts.1, ih' hts.2.2⟩

/-! ## Functions without their bodies -/

/-- A parameter with its type. -/
def printParam (p : Ident × Ty) : String := p.1.text ++ ": " ++ p.2.display

theorem ParamSpelled.prints {p : Ident × Ty} {ts : List Token} (h : ParamSpelled p ts) (hts : Written ts) :
    Prints (printParam p).toList (ParamSpelled p) := by
  cases h with
  | @mk muts n c name t ts _ hn _ h =>
    simp only [written_append, written_cons, hn] at hts
    obtain ⟨-, hname, -, hts⟩ := hts
    obtain ⟨ws, hws, ht⟩ : TypePrints t := h.prints hts
    have htext : (printParam (name, t)).toList = name.text.toList ++ ':' :: ' ' :: t.display.toList := by
      simp [printParam, String.toList_append]
    rw [htext]
    refine ⟨_, (Says.name hname).append (apart_cons (by simp) _) (.mark rfl (by simp) (.blank rfl hws)), ?_⟩
    exact .mk (.inl rfl) rfl rfl ht

theorem Commas.forall {α : Type} {element : α → List Token → Prop} {comma : Bool} {list : List α × Bool}
    {ts : List Token} (h : Commas element comma list ts) (hts : Written ts) :
    ∀ x ∈ list.1, ∃ us, element x us ∧ Written us := by
  induction h with
  | nil => simp
  | last hx => simpa using ⟨_, hx, hts⟩
  | cons hx _ _ ih =>
    simp only [written_append, written_cons] at hts
    exact List.forall_mem_cons.mpr ⟨⟨_, hx, hts.1⟩, ih hts.2.2⟩

theorem HeaderSpelled.prints {h : Header} {ts : List Token} (hh : HeaderSpelled h ts) (hts : Written ts) :
    Prints h.print.toList (HeaderSpelled h) := by
  cases hh with
  | @mk f n l r _ params comma ps rs hf hn hl hparams hr hresult hnames htypes =>
    simp only [written_append, written_cons, hn] at hts
    obtain ⟨-, hname, -, hps, -, hrs⟩ := hts
    obtain ⟨ws, hws, hcommas⟩ := commas_prints fun p hp => by
      obtain ⟨us, hp, hus⟩ := hparams.forall hps p hp
      exact hp.prints hus
    obtain ⟨vs, hvs, hresult⟩ : Prints h.signature.result.displayResult.toList _ := hresult.prints hrs
    have hzip : h.params.zip h.signature.params = params := by
      rw [hnames, htypes, ← List.unzip_fst, ← List.unzip_snd, List.zip_unzip]
    have hprint : h.print = "fn " ++ h.name.text ++ "(" ++ commas (params.map printParam) ++ ")" ++
        h.signature.result.displayResult := by
      unfold Header.print
      rw [hzip]
      rfl
    have htext : h.print.toList = Keyword.fn.spelling.toList ++ ' ' :: (h.name.text.toList ++
        '(' :: ((commas (params.map printParam)).toList ++ ')' :: h.signature.result.displayResult.toList)) := by
      rw [hprint]
      simp [Keyword.spelling, String.toList_append]
    rw [htext]
    refine ⟨_, (Says.keyword .fn).spaced ((Says.name hname).append (apart_cons (by simp) _)
      (.mark rfl (by simp) (hws.append (apart_cons (by simp) _) (.mark rfl (by simp) hvs)))), ?_⟩
    simp only [List.singleton_append, bareTokens_cons, bareTokens_append]
    exact .mk rfl rfl rfl hcommas rfl hresult hnames htypes

/-- Functions without bodies, each behind a blank. -/
theorem HeadersSpelled.prints {hs : List Header} {ts : List Token} (h : HeadersSpelled hs ts)
    (hts : Written ts) :
    Prints (String.join (hs.map fun h => " " ++ h.print ++ ";")).toList (HeadersSpelled hs) := by
  induction h with
  | nil => exact ⟨[], .nil, .nil⟩
  | @cons h hs semi ts us hh _ _ ih =>
    simp only [written_append, written_cons] at hts
    obtain ⟨ws, hws, hheader⟩ := hh.prints hts.1
    obtain ⟨vs, hvs, hheaders⟩ := ih hts.2.2
    have htext : (String.join ((h :: hs).map fun h => " " ++ h.print ++ ";")).toList = ' ' :: (h.print.toList ++
        ';' :: (String.join (hs.map fun h => " " ++ h.print ++ ";")).toList) := by
      rw [List.map_cons, String.join_cons]
      simp [String.toList_append]
    rw [htext]
    refine ⟨_, .blank rfl (hws.append (apart_cons (by simp) _) (.mark rfl (by simp) hvs)), ?_⟩
    rw [bareTokens_append]
    exact .cons hheader rfl hheaders

end Parse
end Ferrite
