import Ferrite.Proofs.Parse.Reprint

/-!
Types as they are shown. Every type without an unknown part is shown as a text that is read as that
type again, so no two such types are shown alike.
-/

namespace Ferrite

/-- The name of a type is no keyword and no truth value. -/
theorem Ty.isName_of_ofName? {name : String} {t : Ty} (h : ofName? name = some t) : Lexer.IsName name := by
  have hall : ∀ entry ∈ named, Lexer.wordTerminal entry.1 = .name entry.1 ∧
      entry.1.toList.head?.map Lexer.isNameStart = some true ∧
      entry.1.toList.tail.all Lexer.isNamePart = true := by
    decide
  obtain ⟨before, behind, heq, -⟩ := List.lookup_eq_some_iff.mp h
  obtain ⟨hterminal, hhead, htail⟩ := hall (name, t) (by rw [heq]; simp)
  obtain ⟨c, hc, hstart⟩ := Option.map_eq_some_iff.mp hhead
  obtain ⟨rest, hrest⟩ := List.head?_eq_some_iff.mp hc
  rw [hrest] at htail
  exact ⟨⟨c, rest, hrest, hstart, List.all_eq_true.mp htail⟩, hterminal⟩

namespace Parse

open Lexer (Says)

/-- A tuple of one type is shown with a comma behind that type. -/
theorem tupleOf_eq (parts : List Ty) : tupleOf (parts, decide (parts.length = 1)) = .tuple parts := by
  match parts with
  | [] => rfl
  | [t] => rfl
  | t :: u :: ts => simp [tupleOf]

theorem namePrints {name : String} {t : Ty} (h : Ty.ofName? name = some t) : TypePrints t :=
  typeName_prints (Ty.isName_of_ofName? h) h

mutual
theorem typePrints : ∀ {t : Ty}, t.hasUnknown = false → TypePrints t
  | .bool, _ => namePrints (show Ty.ofName? "bool" = _ from rfl)
  | .int t, _ => namePrints (Ty.ofName?_intName t)
  | .float .f32, _ => namePrints (show Ty.ofName? "f32" = _ from rfl)
  | .float .f64, _ => namePrints (show Ty.ofName? "f64" = _ from rfl)
  | .str, _ => namePrints (show Ty.ofName? "str" = _ from rfl)
  | .tuple parts, h => by
    have hparts : ∀ t ∈ parts, TypePrints t := typesPrint h
    rw [← tupleOf_eq parts]
    exact tuple_prints hparts
  | .function params result, h => by
    obtain ⟨hparams, hresult⟩ := Bool.or_eq_false_iff.mp h
    exact functionType_prints (typesPrint hparams) (result_prints (typePrints hresult))
  | .never, _ => ⟨_, Says.punct .not, .never rfl⟩
  | .unknown, h => nomatch h

theorem typesPrint : ∀ {ts : List Ty}, Ty.anyUnknown ts = false → ∀ t ∈ ts, TypePrints t
  | [], _ => by simp
  | t :: ts, h => by
    obtain ⟨ht, hts⟩ := Bool.or_eq_false_iff.mp h
    exact List.forall_mem_cons.mpr ⟨typePrints ht, typesPrint hts⟩
end

/-- A text that says the words of a type is parsed as that type, whatever places its tokens have. -/
theorem type_of_says {text : String} {ws : List Terminal} {t : Ty} (h : Says text.toList ws)
    (ht : TypeSpelled (.type t) (bareTokens ws)) (file : FileId) :
    ∃ s, type { rest := (Lexer.read file text).tokens } = .ok t s ∧ s.problems = [] ∧
      s.rest.map Token.terminal = [.endOfInput] := by
  obtain ⟨-, htokens⟩ := read_of_says h file
  set s : State := { rest := (Lexer.read file text).tokens } with hs
  have hrest : (s.relabel .unplaced).rest = bareTokens ws ++ [⟨.endOfInput, default⟩] := by
    rw [hs, State.relabel, htokens, bareTokens_append]
    rfl
  obtain ⟨found, s₁, hrun, hpass, hproblems, rfl⟩ := type_takes ht (by simp) (s.relabel .unplaced) hrest
  have hplaced := type_equivariant (r := .unplaced) s (.inl rfl)
  cases hown : type s with
  | error e s' =>
    rw [(hplaced.error hown).2] at hrun
    cases hrun
  | ok a s' =>
    rw [(hplaced.ok hown).2] at hrun
    cases hrun
    have hbehind : (s'.relabel .unplaced).rest = [⟨.endOfInput, default⟩] :=
      List.append_cancel_left (hpass.rest.symm.trans hrest)
    refine ⟨s', rfl, List.map_eq_nil_iff.mp hproblems, ?_⟩
    have hterminals := congrArg (List.map Token.terminal) hbehind
    rw [State.relabel, List.map_map] at hterminals
    exact hterminals

/-- A type without an unknown part is shown as a text without mistakes that is parsed as this type, up
to the end of the text. No other such type is shown in the same way. -/
theorem type_display {t : Ty} (h : t.hasUnknown = false) (file : FileId) :
    (Lexer.read file t.display).problems = [] ∧
      (∃ s, type { rest := (Lexer.read file t.display).tokens } = .ok t s ∧ s.problems = [] ∧
        s.rest.map Token.terminal = [.endOfInput]) ∧
      ∀ u : Ty, u.hasUnknown = false → u.display = t.display → u = t := by
  obtain ⟨ws, hws, hspelled⟩ := typePrints h
  have hread := type_of_says hws hspelled file
  obtain ⟨hproblems, -⟩ := read_of_says hws file
  refine ⟨hproblems, hread, fun u hu hsame => ?_⟩
  obtain ⟨vs, hvs, hspelled'⟩ := typePrints hu
  obtain ⟨s, hs, -⟩ := hread
  obtain ⟨s', hs', -⟩ := type_of_says hvs hspelled' file
  rw [hsame, hs] at hs'
  cases hs'
  rfl

/-- Results of functions in results and in parameters, and tuples of none, one and two. -/
theorem type_display_nested :
    (Ty.function [.tuple [.int .i32], .function [] .never] (.function [.unit] (.tuple [.str, .unit]))).display =
        "fn((i32,), fn() -> !) -> fn(()) -> (str, ())" ∧
      (Lexer.read 0 "fn((i32,), fn() -> !) -> fn(()) -> (str, ())").problems = [] ∧
      ∃ s, type { rest := (Lexer.read 0 "fn((i32,), fn() -> !) -> fn(()) -> (str, ())").tokens } =
        .ok (.function [.tuple [.int .i32], .function [] .never] (.function [.unit] (.tuple [.str, .unit]))) s ∧
          s.problems = [] := by
  have hdisplay : (Ty.function [.tuple [.int .i32], .function [] .never]
      (.function [.unit] (.tuple [.str, .unit]))).display = "fn((i32,), fn() -> !) -> fn(()) -> (str, ())" := by
    decide
  obtain ⟨hproblems, ⟨s, hs, hclean, -⟩, -⟩ := type_display (t := .function [.tuple [.int .i32], .function [] .never]
    (.function [.unit] (.tuple [.str, .unit]))) (by decide) 0
  rw [hdisplay] at hproblems hs
  exact ⟨hdisplay, hproblems, s, hs, hclean⟩

end Parse
end Ferrite
