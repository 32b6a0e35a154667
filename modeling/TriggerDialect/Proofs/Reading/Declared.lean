import TriggerDialect.Grammar.Trigger
import TriggerDialect.Proofs.Reading.Equations
import TriggerDialect.Proofs.Reading.Inside

/-!
# Where declarations start

Every declaration of a trigger starts at one of its tokens, in the trigger itself and in the blocks
at any depth (`statements_startsIn`).
-/

namespace TriggerDialect

open List

/-- The declarations of a block. -/
def Form.declarations? {β : Type} : Form β → Option Declarations
  | .block b => b.declarations
  | _ => none

theorem Form.outline_declarations?_of_isCompound {β : Type} {form : Form β}
    (h : form.isCompound) : form.outline.declarations? = none := by
  cases form with
  | simple | block => cases h
  | conditional | selection | queryLoop | rangeLoop | whileLoop | endlessLoop => rfl

namespace Declarations

/-- All declarations, kind by kind. -/
def byKind (d : Declarations) : List Declaration :=
  d.vars.map Declaration.ofVariable ++ d.constants.map Declaration.ofConstant ++
    d.cursors.map Declaration.ofCursor ++ d.exceptions.map Declaration.ofException ++
    d.raw.map Declaration.ofRaw

/-- Every declaration starts at one of the tokens. -/
def StartsIn (ts : List Token) (d : Declarations) : Prop :=
  ∀ a ∈ d.byKind, ∃ t ∈ ts, a.offset = t.offset

theorem StartsIn.mono {us ts : List Token} {d : Declarations} (h : d.StartsIn us)
    (hsubset : us ⊆ ts) : d.StartsIn ts := by
  intro a ha
  obtain ⟨t, ht, hoffset⟩ := h a ha
  exact ⟨t, hsubset ht, hoffset⟩

theorem mem_of_mem_byKind {a : Declaration} {items : List Declaration}
    (h : a ∈ (ofList items).byKind) : a ∈ items := by
  simp only [byKind, ofList, mem_append, mem_map, mem_filterMap] at h
  rcases h with (((h | h) | h) | h) | h
  all_goals
    obtain ⟨_, ⟨item, hitem, hkind⟩, rfl⟩ := h
    cases item <;> cases hkind
    exact hitem

end Declarations

/-- The declarations of a block are among its tokens. -/
theorem Sections.split_declarations {ts inner : List Token} {sections : Sections}
    (h : split ts = .ok sections) (hinner : sections.declarations = some inner) : inner ⊆ ts := by
  have hof : ∀ before : List Token, declarationsOf before = some inner → inner ⊆ before := by
    intro before hbefore
    cases before with
    | nil => cases hbefore
    | cons t rest =>
      simp only [declarationsOf] at hbefore
      split at hbefore
      all_goals cases hbefore
      · exact subset_cons_self _ _
      · exact List.Subset.refl _
  have hassemble : ∀ {before statements : List Token} {handlers after : Option (List Token)},
      assemble ts before statements handlers after = .ok sections → inner ⊆ before := by
    intro before statements handlers after hok
    unfold assemble at hok
    split at hok
    simp only at hok
    split at hok
    · cases hok
    · cases hok
      exact hof before hinner
  unfold split at h
  split at h
  · cases h
  · cases h
  · rename_i before rest hbegin
    obtain ⟨word, _, rfl⟩ := splitBegin_eq hbegin
    refine List.Subset.trans ?_ (subset_append_left before _)
    split at h
    all_goals exact hassemble h

namespace Grammar

variable {ts : List Token} {path : String} {offset : Nat}

theorem declarationSpans_mem {span : Span} (h : span ∈ declarationSpans ts) :
    span.tokens ≠ [] ∧ span.tokens ⊆ ts := by
  fun_induction declarationSpans ts with
  | case1 => cases h
  | case2 ts span' hspan hempty =>
    rw [mem_singleton.1 h]
    have hwhole := eq_of_spanFrom hspan
    exact ⟨by simpa using hempty, by simp [hwhole]⟩
  | case3 ts span' word rest hspan hlt hempty ih =>
    obtain ⟨hne, hsubset⟩ := ih h
    have hwhole := eq_of_spanFrom hspan
    exact ⟨hne, fun t ht => by simp [hwhole, hsubset ht]⟩
  | case4 ts span' word rest hspan hlt hempty ih =>
    have hwhole := eq_of_spanFrom hspan
    rcases mem_cons.1 h with rfl | h
    · exact ⟨by simpa using hempty, by simp [hwhole]⟩
    · obtain ⟨hne, hsubset⟩ := ih h
      exact ⟨hne, fun t ht => by simp [hwhole, hsubset ht]⟩

theorem namedDeclaration_offset {name : String} {d : Declaration}
    (h : namedDeclaration name offset ts = .ok d) : d.offset = offset := by
  have htyped : ((typedValue ts).map fun typed => Declaration.ofVariable
      ⟨name, typed.type, typed.value.initializer?, typed.notNull, offset⟩) = .ok d →
      d.offset = offset := by
    intro hok
    cases hread : typedValue ts with
    | error reason => rw [hread] at hok; cases hok
    | ok typed => rw [hread] at hok; cases hok; rfl
  unfold namedDeclaration at h
  simp only at h
  split at h
  · exact htyped h
  · rename_i t rest
    split at h
    · cases h
      rfl
    · split at h
      · cases hread : constant name offset rest with
        | error reason => rw [hread] at h; cases h
        | ok c =>
          rw [hread] at h
          cases h
          unfold constant at hread
          repeat' split at hread
          all_goals cases hread
          rfl
      · exact htyped h

theorem cursor_offset {c : Cursor} (h : cursor offset ts = .ok c) : c.offset = offset := by
  unfold cursor at h
  split at h
  · cases h
  · rename_i name rest _
    cases hparameters : cursorParameters rest with
    | error reason => rw [hparameters] at h; cases h
    | ok found =>
      rw [hparameters] at h
      change (skipReturn found.2 >>= _) = _ at h
      cases hreturn : skipReturn found.2 with
      | error reason => rw [hreturn] at h; cases h
      | ok left =>
        rw [hreturn] at h
        change (cursorQuery name left >>= _) = _ at h
        cases hquery : cursorQuery name left with
        | error reason => rw [hquery] at h; cases h
        | ok query => rw [hquery] at h; cases h; rfl

/-- A declaration starts where its tokens do. -/
theorem readDeclaration_offset (t : Token) (rest : List Token) :
    (readDeclaration (t :: rest)).offset = t.offset := by
  unfold readDeclaration
  split
  · rename_i d hd
    unfold declaration at hd
    simp only at hd
    repeat' split at hd
    · cases hread : cursor t.offset rest with
      | error reason => rw [hread] at hd; cases hd
      | ok c => rw [hread] at hd; cases hd; exact cursor_offset hread
    · cases hd
    · cases hd
    · exact namedDeclaration_offset hd
    · cases hd
  · rfl

theorem readDeclarations_startsIn (ts : List Token) : (readDeclarations ts).1.StartsIn ts := by
  intro a ha
  obtain ⟨span, hspan, rfl⟩ := mem_map.1 (Declarations.mem_of_mem_byKind ha)
  obtain ⟨hne, hsubset⟩ := declarationSpans_mem hspan
  obtain ⟨t, rest, htokens⟩ := exists_cons_of_ne_nil hne
  rw [htokens] at hsubset ⊢
  exact ⟨t, hsubset mem_cons_self, readDeclaration_offset t rest⟩

theorem recognise_startsIn {r : Recognised} (h : recognise path ts = .ok r) :
    ∀ d ∈ r.form.outline.declarations?, d.StartsIn ts := by
  have hquiet : ∀ form : Form (List Token), (quiet form).form.outline = form.outline :=
    fun form => Form.outline_map _ form
  cases Recognition.of_recognise h with
  | simple => rintro d ⟨⟩
  | compound _ hread =>
    rw [hquiet, Form.outline_declarations?_of_isCompound hread.isCompound]
    rintro d ⟨⟩
  | @block _ _ sections _ hsplit _ =>
    rintro d hd
    cases hsection : sections.declarations with
    | none => simp [blockOf, Form.outline, Form.map, Form.declarations?, hsection] at hd
    | some inner =>
      have hsubset := Sections.split_declarations hsplit hsection
      simp [blockOf, Form.outline, Form.map, Form.declarations?, hsection] at hd
      subst hd
      exact (readDeclarations_startsIn inner).mono hsubset

/-- All declarations inside a list start at tokens of it. -/
theorem statements_startsIn (path : String) (ts : List Token) :
    Statement.AllInside (fun outline => ∀ d ∈ outline.declarations?, d.StartsIn ts)
      (statements path ts).value :=
  statements_inside (P := fun ts outline => ∀ d ∈ outline.declarations?, d.StartsIn ts)
    (by rintro ts simple d ⟨⟩) (fun us ts form hpart h d hd => (h d hd).mono hpart.subset)
    (fun path ts r hread => recognise_startsIn hread) path ts

theorem handlerSection_startsIn {h : Handler (List Statement)}
    (hmem : h ∈ (handlerSection path (readHandlers path ts)).value.1) :
    Statement.AllInside (fun outline => ∀ d ∈ outline.declarations?, d.StartsIn ts) h.body := by
  simp only [handlerSection, handlerOutcomes, map_map, mem_map] at hmem
  obtain ⟨entry, hentry, rfl⟩ := hmem
  have hslice := mem_map_of_mem (f := Handler.map Prod.snd) hentry
  rw [map_snd_labelHandlers] at hslice
  have hsubset : entry.body.2.tokens ⊆ ts := (readHandlers_behind hslice).isInfix.subset
  intro s hs d hd
  exact (statements_startsIn entry.body.1 entry.body.2.tokens s hs d hd).mono hsubset

end Grammar

end TriggerDialect
