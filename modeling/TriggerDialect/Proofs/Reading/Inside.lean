import TriggerDialect.Grammar.Statements

/-!
# All statements of a list that was read

What the reader recognises in a span it recognises at whatever depth the span stands. So a
property of recognised statements that does not look at their inner lists holds of every statement
inside a list that was read (`statements_inside`).
-/

namespace TriggerDialect

open List

variable {β γ : Type}

/-- A statement without its inner lists. -/
def Form.outline (form : Form β) : Form Unit := form.map fun _ => ()

@[simp] theorem Form.outline_map (f : β → γ) (form : Form β) :
    (form.map f).outline = form.outline :=
  Form.map_map _ _ form

@[simp] theorem Form.outline_label (path : String) (form : Form β) :
    (form.label path).outline = form.outline := by
  rw [← Form.outline_map Prod.snd, Form.map_snd_label]

namespace Statement

variable {ss : List Statement} {s : Statement}

/-- A statement of a list, or one inside a statement of it. -/
inductive Inside : Statement → List Statement → Prop
  | here {s : Statement} {ss : List Statement} (h : s ∈ ss) : Inside s ss
  | deeper {s outer : Statement} {ss body : List Statement} (houter : outer ∈ ss)
      (hbody : body ∈ outer.form.bodies) (h : Inside s body) : Inside s ss

theorem Inside.exists_mem (h : Inside s ss) : ∃ outer ∈ ss, Inside s [outer] := by
  cases h with
  | here h => exact ⟨s, h, .here (mem_singleton_self s)⟩
  | deeper houter hbody h =>
    exact ⟨_, houter, .deeper (mem_singleton_self _) hbody h⟩

theorem Inside.of_mem {outer : Statement} (h : Inside s [outer]) (houter : outer ∈ ss) :
    Inside s ss := by
  cases h with
  | here h => exact .here (mem_singleton.1 h ▸ houter)
  | deeper houter' hbody h => exact .deeper (mem_singleton.1 houter' ▸ houter) hbody h

theorem Inside.cons (h : Inside s ss) (first : Statement) : Inside s (first :: ss) := by
  cases h with
  | here h => exact .here (mem_cons_of_mem first h)
  | deeper houter hbody h => exact .deeper (mem_cons_of_mem first houter) hbody h

/-- Every statement inside a list has an outline with the property. -/
def AllInside (P : Form Unit → Prop) (ss : List Statement) : Prop :=
  ∀ s, Inside s ss → P s.form.outline

variable {P : Form Unit → Prop}

/-- The statements inside one statement are itself and those of its inner lists. -/
theorem AllInside.node {form : Form (List Statement)} (hform : P form.outline)
    (hbodies : ∀ body ∈ form.bodies, AllInside P body) : AllInside P [.node form] := by
  intro s hs
  cases hs with
  | here h =>
    rw [mem_singleton.1 h]
    exact hform
  | deeper houter hbody h =>
    rw [mem_singleton.1 houter] at hbody
    exact hbodies _ hbody s h

theorem AllInside.simple {simple : Simple} (h : P (.simple simple)) :
    AllInside P [.simple simple] :=
  .node h (by rintro body ⟨⟩)

end Statement

namespace Grammar

open Statement (AllInside)

variable {P : List Token → Form Unit → Prop}

theorem statementWith_inside (hsimple : ∀ ts simple, P ts (.simple simple))
    (hpart : ∀ us ts form, us <:+: ts → P us form → P ts form) (path : String) (span : Span)
    (hread : ∀ r, recognise path span.tokens = .ok r → P span.tokens r.form.outline)
    (hinner : ∀ place inner, inner.length < span.tokens.length →
      AllInside (P inner) (statements place inner).value) :
    AllInside (P span.tokens) [(statementWith statements path span).value] := by
  unfold statementWith
  cases hform : recognise path span.tokens with
  | error reason => exact .simple (hsimple _ _)
  | ok r =>
    refine .node ?_ ?_
    · rw [Form.outline_map, Form.outline_map, Form.outline_label]
      exact hread r hform
    · simp only [Form.bodies_map, map_map]
      intro body hbody
      obtain ⟨entry, hentry, rfl⟩ := mem_map.1 hbody
      have hslice := Form.snd_mem_bodies hentry
      intro s hs
      exact hpart _ _ _ (recognise_behind hform _ hslice).isInfix
        (hinner entry.1 entry.2.tokens (recognise_length hform _ hslice) s hs)

/-- What holds of recognised statements, and of all tokens around them, holds of every statement
inside a list that was read. -/
theorem statements_inside (hsimple : ∀ ts simple, P ts (.simple simple))
    (hpart : ∀ us ts form, us <:+: ts → P us form → P ts form)
    (hread : ∀ path ts r, recognise path ts = .ok r → P ts r.form.outline)
    (path : String) (ts : List Token) : AllInside (P ts) (statements path ts).value := by
  -- inner lists are shorter, so that the induction is on the number of tokens
  induction ts using shorterInduction generalizing path with
  | shorter ts ih =>
    intro s hs
    obtain ⟨outer, houter, hinside⟩ := hs.exists_mem
    rw [statements_eq] at houter
    simp only [Outcome.all, mem_map, mem_mapIdx] at houter
    obtain ⟨_, ⟨i, hi, rfl⟩, rfl⟩ := houter
    cases hpiece : (piecewise ts)[i] with
    | label name =>
      rw [hpiece] at hinside
      exact AllInside.simple (hsimple ts _) s hinside
    | statement span =>
      rw [hpiece] at hinside
      have hmem : .statement span ∈ piecewise ts := hpiece ▸ getElem_mem hi
      have hspan := piecewise_length hmem
      refine hpart _ _ _ (piecewise_isInfix hmem) (statementWith_inside hsimple hpart
        (Path.child path i) span (fun r => hread _ _ r) ?_ s hinside)
      exact fun place inner hinner => ih inner (by omega) place

end Grammar

end TriggerDialect
