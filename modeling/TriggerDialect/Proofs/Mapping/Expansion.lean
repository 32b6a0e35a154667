import Mathlib.Data.List.Basic
import TriggerDialect.Mapping.Template

/-!
# Expanding templates

A template is expanded exactly if none of its places asks for an argument that is not there. Each
argument that has a place occurs in the result, and the result does not depend on any other. Main
statements: `expand?_eq`, `isInfix_of_expand?` and `expand?_set`.
-/

namespace TriggerDialect

open List

namespace Segment

/-- Whether the segment takes in the argument at an index. -/
def takes (index : Nat) : Segment → Bool
  | .literal _ => false
  | .argument i => i == index
  | .allArguments => true

/-- Whether so many arguments are enough for the segment. -/
def isServedBy (count : Nat) : Segment → Bool
  | .literal _ => true
  | .argument i => decide (i < count)
  | .allArguments => true

end Segment

namespace Text

/-- Joined texts are their characters with those of the separator between them. -/
theorem toList_join (separator : String) (texts : List String) :
    (join separator texts).toList = separator.toList.intercalate (texts.map String.toList) := by
  induction texts with
  | nil => rfl
  | cons first texts ih =>
    cases texts with
    | nil => simp [join]
    | cons second texts =>
      rw [join, String.toList_append, String.toList_append, ih]
      simp [intercalate]

/-- Every text occurs in what it is joined into. -/
theorem isInfix_join {separator s : String} {texts : List String} (h : s ∈ texts) :
    s.toList <:+: (join separator texts).toList := by
  induction texts with
  | nil => cases h
  | cons first texts ih =>
    cases texts with
    | nil =>
      rw [mem_singleton.1 h]
      exact infix_rfl
    | cons second texts =>
      simp only [join, String.toList_append]
      rcases mem_cons.1 h with rfl | h
      · rw [append_assoc]
        exact (prefix_append _ _).isInfix
      · exact (ih h).trans (suffix_append _ _).isInfix

end Text

namespace Template

variable {t : Template} {arguments : List String} {text : String} {index : Nat}
  {front cs : List Char}

/-- Whether the template has a place for the argument at an index. -/
def hasPlaceFor (t : Template) (index : Nat) : Bool := t.segments.any (·.takes index)

/-- Whether so many arguments are enough for the template. -/
def isServedBy (t : Template) (count : Nat) : Bool := t.segments.all (·.isServedBy count)

/-! ### Places and literals -/

theorem isPlace_of_place? {rest : List Char} {segment : Segment}
    (h : place? cs = some (segment, rest)) : isPlace segment := by
  unfold place? at h
  split at h
  · cases h
    rfl
  · obtain ⟨found, _, hpair⟩ := Option.map_eq_some_iff.1 h
    cases hpair
    rfl

/-- Text in which no place starts is all literal. -/
theorem scan_of_not_isPlace (h : (scan cs).any isPlace = false) : scan cs = cs.map .literal := by
  fun_induction scan cs with
  | case1 => rfl
  | case2 rest segment after hplace _ ih =>
    rw [any_cons, isPlace_of_place? hplace, Bool.true_or] at h
    cases h
  | case3 rest _ ih => rw [map_cons, ih h]
  | case4 c rest _ ih => rw [map_cons, ih h]

/-- Text without an opening brace is literal, whatever follows it. -/
theorem scan_append (h : '\x7b' ∉ front) (cs : List Char) :
    scan (front ++ cs) = front.map .literal ++ scan cs := by
  induction front with
  | nil => rfl
  | cons c front ih =>
    rw [mem_cons, not_or] at h
    rw [cons_append, scan, if_neg (Ne.symm h.1), ih h.2, map_cons, cons_append]

/-! ### Expansion -/

theorem isSome_fill? (arguments : List String) (segment : Segment) :
    (fill? arguments segment).isSome = segment.isServedBy arguments.length := by
  cases segment with
  | literal c => rfl
  | argument i =>
    rw [Bool.eq_iff_iff]
    simp [fill?, Segment.isServedBy]
  | allArguments => rfl

theorem mapM_fill? (arguments : List String) (segments : List Segment) :
    segments.mapM (fill? arguments) =
      if segments.all (·.isServedBy arguments.length) then
        some (segments.map fun segment => (fill? arguments segment).getD [])
      else none := by
  induction segments with
  | nil => rfl
  | cons segment segments ih =>
    have hsegment := isSome_fill? arguments segment
    rw [mapM_cons, ih]
    cases hfill : fill? arguments segment with
    | none =>
      rw [hfill, Option.isSome_none] at hsegment
      simp [← hsegment]
    | some part =>
      rw [hfill, Option.isSome_some] at hsegment
      simp only [all_cons, ← hsegment, Bool.true_and]
      split <;> simp [hfill]

/-- The template is expanded exactly if it has the arguments that it asks for. -/
theorem expand?_eq (t : Template) (arguments : List String) :
    t.expand? arguments =
      if t.isServedBy arguments.length then
        some (String.ofList (t.segments.flatMap fun segment => (fill? arguments segment).getD []))
      else none := by
  rw [expand?, mapM_fill?, isServedBy, flatMap_def]
  split <;> rfl

theorem expand?_of_isServedBy (h : t.isServedBy arguments.length) :
    t.expand? arguments =
      some (String.ofList (t.segments.flatMap fun s => (fill? arguments s).getD [])) := by
  rw [expand?_eq, if_pos h]

theorem isServedBy_of_expand? (h : t.expand? arguments = some text) :
    t.isServedBy arguments.length := by
  rw [expand?_eq] at h
  split at h
  · assumption
  · cases h

/-- An argument that has a place occurs in the expanded template. -/
theorem isInfix_of_expand? {argument : String} (h : t.expand? arguments = some text)
    (hargument : arguments[index]? = some argument) (hplace : t.hasPlaceFor index) :
    argument.toList <:+: text.toList := by
  obtain ⟨segment, hsegment, htakes⟩ := any_eq_true.1 hplace
  have hfilled : argument.toList <:+: (fill? arguments segment).getD [] := by
    cases segment with
    | literal c => cases htakes
    | argument i =>
      rw [Segment.takes, beq_iff_eq] at htakes
      simp [fill?, htakes, hargument]
    | allArguments => exact Text.isInfix_join (mem_of_getElem? hargument)
  rw [expand?_of_isServedBy (isServedBy_of_expand? h)] at h
  cases h
  rw [String.toList_ofList, flatMap_def]
  exact hfilled.trans (infix_of_mem_flatten (mem_map_of_mem hsegment))

/-- What stands before the first opening brace stands before the expanded template as well. -/
theorem isPrefix_of_expand? {rest : List Char} (h : t.expand? arguments = some text)
    (hsource : t.source.toList = front ++ rest) (hfront : '\x7b' ∉ front) :
    front <+: text.toList := by
  rw [expand?_of_isServedBy (isServedBy_of_expand? h)] at h
  cases h
  rw [String.toList_ofList, segments, hsource, scan_append hfront, flatMap_append]
  simp [flatMap_map, fill?]

/-- An argument without a place does not matter. -/
theorem expand?_set (hplace : t.hasPlaceFor index = false) (argument : String) :
    t.expand? (arguments.set index argument) = t.expand? arguments := by
  have hfill : ∀ segment ∈ t.segments,
      (fill? (arguments.set index argument) segment).getD [] =
        (fill? arguments segment).getD [] := by
    intro segment hsegment
    have htakes := any_eq_false.1 hplace segment hsegment
    cases segment with
    | literal c => rfl
    | argument i =>
      have hne : index ≠ i := fun heq => htakes (beq_iff_eq.2 heq.symm)
      simp [fill?, getElem?_set_ne hne]
    | allArguments => exact absurd rfl htakes
  rw [expand?_eq, expand?_eq, length_set, flatMap_congr hfill]

/-- A template without places is its own expansion. -/
theorem expand?_of_not_hasPlaces (h : t.hasPlaces = false) (arguments : List String) :
    t.expand? arguments = some t.source := by
  have hsegments : t.segments = t.source.toList.map .literal := scan_of_not_isPlace h
  have hserved : t.isServedBy arguments.length := by
    simp [isServedBy, hsegments, Segment.isServedBy]
  rw [expand?_of_isServedBy hserved, hsegments]
  simp [flatMap_map, fill?]

end Template

end TriggerDialect
