import TriggerDialect.Grammar.Header
import TriggerDialect.Grammar.Statements
import TriggerDialect.Recast.Step

/-!
# Equations of the readers

The readers that go through their tokens piece by piece carry a proof that each piece leaves fewer
tokens. Their equations here leave the proofs out, so that a cut can be rewritten in them.
-/

namespace TriggerDialect

namespace Grammar

variable (ts : List Token)

theorem declarationSpans_eq : declarationSpans ts = match spanAtDepth (·.isPunct ';') ts with
      | (span, []) => if span.isEmpty then [] else [⟨span, false⟩]
      | (span, _ :: rest) =>
        if span.isEmpty then declarationSpans rest else ⟨span, true⟩ :: declarationSpans rest := by
  rw [declarationSpans]
  split <;> rename_i hspan <;> simp only [hspan]

theorem handlersFrom_eq (word : Token) (ts : List Token) :
    handlersFrom word ts = match spanClause ["WHEN"] ts with
      | (span, []) => [handlerSpan word span]
      | (span, next :: rest) => handlerSpan word span :: handlersFrom next rest := by
  rw [handlersFrom]
  split <;> rename_i hspan <;> simp only [hspan]

theorem branches_eq : branches ts = match spanClause ["ELSIF", "ELSE"] ts with
      | (body, []) => .ok ⟨body, [], none⟩
      | (body, word :: rest) =>
        if word.isKeyword "ELSIF" then
          match conditionThen "ELSIF" rest with
          | .error reason => .error reason
          | .ok (condition, rest) =>
            (branches rest).map fun later =>
              ⟨body, ⟨condition, later.first⟩ :: later.others, later.otherwise⟩
        else lastBranch body rest := by
  rw [branches]
  split <;> rename_i hspan <;> simp only [hspan]
  split
  · split <;> rename_i hthen <;> simp only [hthen]
  · rfl

theorem arms_eq : arms ts = match conditionThen "WHEN" ts with
      | .error reason => .error reason
      | .ok (condition, rest) =>
        match spanClause ["WHEN", "ELSE"] rest with
        | (body, []) => .ok ⟨[⟨condition, body⟩], none⟩
        | (body, word :: rest) =>
          if word.isKeyword "ELSE" then
            (lastArm rest).map fun otherwise => ⟨[⟨condition, body⟩], otherwise⟩
          else (arms rest).map fun later => ⟨⟨condition, body⟩ :: later.arms, later.otherwise⟩ := by
  rw [arms]
  split <;> rename_i hthen <;> simp only [hthen]
  split <;> rename_i hspan <;> simp only [hspan]

theorem piecewise_eq : piecewise ts = match leadingLabel? ts with
      | some (name, rest) => .label name :: piecewise rest
      | none =>
        match spanStatement ts with
        | (span, []) => if span.isEmpty then [] else [.statement ⟨span, false⟩]
        | (span, _ :: rest) =>
          if span.isEmpty then piecewise rest else .statement ⟨span, true⟩ :: piecewise rest := by
  rw [piecewise]
  split <;> rename_i hlabel <;> simp only [hlabel]
  split <;> rename_i hspan <;> simp only [hspan]

theorem events_eq : events ts = match event ts with
      | .error stuck => .error stuck
      | .ok (first, rest) =>
        match eatWord? "OR" rest with
        | none => .ok ([first], rest)
        | some rest => (events rest).map fun (later, rest) => (first :: later, rest) := by
  rw [events]
  split <;> rename_i hevent <;> simp only [hevent]
  split <;> rename_i hor <;> simp only [hor]

theorem aliases_eq (header : Header) (ts : List Token) :
    aliases header ts = match rowName? ts with
      | none => .ok (header, ts)
      | some (row, rest) =>
        match name (skipAs rest) with
        | .error stuck => .error stuck
        | .ok (chosen, rest) => aliases (withAlias header row chosen) rest := by
  rw [aliases]
  split <;> rename_i hrow <;> simp only [hrow]
  split <;> rename_i hname <;> simp only [hname]

theorem skipNames_eq (header : Header) (ts : List Token) :
    skipNames header ts = match qualifiedName ts with
      | .error stuck => .error stuck
      | .ok (_, rest) =>
        match eatMark? ',' rest with
        | none => .ok (header, rest)
        | some rest => skipNames header rest := by
  rw [skipNames]
  split <;> rename_i hname <;> simp only [hname]
  split <;> rename_i hcomma <;> simp only [hcomma]

theorem options_cons (header : Header) (t : Token) (rest : List Token) :
    options header (t :: rest) = match optionReader? t with
      | some reader =>
        match reader header rest with
        | .error stuck => .error stuck
        | .ok (header, rest) => options header rest
      | none =>
        if t.isWord "DECLARE" || t.isWord "BEGIN" then .ok (header, t :: rest)
        else .error ⟨s!"unexpected '{t.text}'", t :: rest⟩ := by
  rw [options]
  split <;> rename_i hreader <;> simp only [hreader]
  split <;> rename_i hread <;> simp only [hread]

end Grammar

theorem Recast.splitLastAs_eq (ts : List Token) :
    splitLastAs ts = match spanAtDepth (·.isKeyword "AS") ts with
      | (_, []) => none
      | (front, word :: rest) =>
        match splitLastAs rest with
        | none => some (front, rest)
        | some (more, last) => some (front ++ word :: more, last) := by
  rw [splitLastAs]
  split
  · rename_i hspan
    rw [hspan]
  · rename_i hspan
    split <;> rename_i hlater <;> simp only [hspan, hlater]

end TriggerDialect
