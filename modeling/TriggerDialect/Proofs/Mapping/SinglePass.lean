import Mathlib.Data.List.Induction
import Mathlib.Data.Nat.Digits.Defs
import TriggerDialect.Proofs.Mapping.Expansion

/-!
# Templates are read in one pass

`Pass` says how a template is read from left to right without saying how a place is searched for: a
place that stands in the text is read whole, and a character at which none starts is copied. Every
text has exactly one pass. `expand?_single_pass` says that the expansion puts the arguments in for
the places of this pass and copies all the rest, and when it fails.
-/

namespace TriggerDialect

open List

namespace Text

/-- The value of digits in positional notation. -/
theorem value_eq_ofDigits (digits : List Char) :
    value digits = Nat.ofDigits 10 (digits.reverse.map digitValue) := by
  induction digits using reverseRecOn with
  | nil => rfl
  | append_singleton digits d ih =>
    rw [value_append, ih, reverse_append, reverse_singleton, singleton_append,
      map_cons, Nat.ofDigits_cons]
    simp only [foldl_cons, foldl_nil]
    omega

end Text

namespace Template

/-- The written places: a star in braces, and digits in braces whose value is below `2 ^ 64`. -/
inductive Spells : List Char → Segment → Prop where
  | all : Spells ['\x7b', '*', '\x7d'] .allArguments
  | index {digits : List Char} {n : Nat} (hne : digits ≠ [])
      (hdigits : ∀ d ∈ digits, d.isDigit)
      (hvalue : Nat.ofDigits 10 (digits.reverse.map Text.digitValue) = n) (hbound : n < 2 ^ 64) :
      Spells ('\x7b' :: digits ++ ['\x7d']) (.argument n)

/-- One pass over a text from left to right. -/
inductive Pass : List Char → List Segment → Prop where
  | done : Pass [] []
  | place {written rest : List Char} {segment : Segment} {segments : List Segment}
      (hspells : Spells written segment) (hrest : Pass rest segments) :
      Pass (written ++ rest) (segment :: segments)
  | copy {c : Char} {rest : List Char} {segments : List Segment}
      (hnone : ∀ written segment, Spells written segment → ¬written <+: c :: rest)
      (hrest : Pass rest segments) : Pass (c :: rest) (.literal c :: segments)

/-- What a segment becomes when every argument it asks for is there. -/
def replacement (arguments : List String) : Segment → List Char
  | .literal c => [c]
  | .argument n => (arguments.getD n "").toList
  | .allArguments => ", ".toList.intercalate (arguments.map String.toList)

variable {cs rest after written : List Char} {segment : Segment} {segments : List Segment}
  {arguments : List String} {n : Nat}

/-! ### Places -/

/-- A run of digits ends where the first other character stands. -/
theorem takeWhile_isDigit_append {digits : List Char} (h : ∀ d ∈ digits, d.isDigit)
    (rest : List Char) :
    (digits ++ '\x7d' :: rest).takeWhile Char.isDigit = digits ∧
      (digits ++ '\x7d' :: rest).dropWhile Char.isDigit = '\x7d' :: rest := by
  rw [takeWhile_append_of_pos h, dropWhile_append_of_pos h,
    takeWhile_cons_of_neg (by decide), dropWhile_cons_of_neg (by decide)]
  simp

theorem index?_iff :
    index? cs = some (n, after) ↔
      ∃ digits, digits ≠ [] ∧ (∀ d ∈ digits, d.isDigit) ∧
        Nat.ofDigits 10 (digits.reverse.map Text.digitValue) = n ∧ n < 2 ^ 64 ∧
        cs = digits ++ '\x7d' :: after := by
  constructor
  · intro h
    unfold index? at h
    split at h
    · rename_i tail htail
      simp only at h
      split at h
      · rename_i hfits
        cases h
        rw [Bool.and_eq_true, Bool.not_eq_true', decide_eq_true_eq, wordBound] at hfits
        refine ⟨cs.takeWhile Char.isDigit, ?_, ?_, (Text.value_eq_ofDigits _).symm, hfits.2, ?_⟩
        · exact fun hnil => by simp [hnil] at hfits
        · exact all_eq_true.1 all_takeWhile
        · rw [← htail, takeWhile_append_dropWhile]
      · cases h
    · cases h
  · rintro ⟨digits, hne, hdigits, rfl, hbound, rfl⟩
    obtain ⟨htake, hdrop⟩ := takeWhile_isDigit_append hdigits after
    have hfits : (!digits.isEmpty && decide (Text.value digits < wordBound)) := by
      rw [Text.value_eq_ofDigits, wordBound, Bool.and_eq_true]
      exact ⟨by simp [hne], decide_eq_true hbound⟩
    simp only [index?, hdrop, htake]
    rw [if_pos hfits, Text.value_eq_ofDigits]

/-- The search after an opening brace finds the places that stand there, and no others. -/
theorem place?_iff :
    place? cs = some (segment, after) ↔
      ∃ written, Spells written segment ∧ '\x7b' :: cs = written ++ after := by
  constructor
  · intro h
    unfold place? at h
    split at h
    · cases h
      exact ⟨_, .all, rfl⟩
    · obtain ⟨⟨n, left⟩, hfound, hpair⟩ := Option.map_eq_some_iff.1 h
      cases hpair
      obtain ⟨digits, hne, hdigits, hvalue, hbound, rfl⟩ := index?_iff.1 hfound
      exact ⟨_, .index hne hdigits hvalue hbound, by simp⟩
  · rintro ⟨written, hspells, hcs⟩
    cases hspells with
    | all =>
      cases hcs
      rfl
    | @index digits n hne hdigits hvalue hbound =>
      have hcs : cs = digits ++ '\x7d' :: after := by simpa using hcs
      have hindex : index? cs = some (n, after) :=
        index?_iff.2 ⟨digits, hne, hdigits, hvalue, hbound, hcs⟩
      obtain ⟨d, digits, rfl⟩ := exists_cons_of_ne_nil hne
      have hstar : d ≠ '*' := by
        rintro rfl
        exact absurd (hdigits '*' mem_cons_self) (by decide)
      unfold place?
      split
      · exact absurd (cons.inj hcs).1.symm hstar
      · rw [hindex]
        rfl

theorem Spells.eq_brace_cons (h : Spells written segment) : ∃ tail, written = '\x7b' :: tail := by
  cases h with
  | all => exact ⟨_, rfl⟩
  | index => exact ⟨_, rfl⟩

/-- A search in vain is one where no place stands. -/
theorem place?_eq_none_iff :
    place? cs = none ↔ ∀ written segment, Spells written segment → ¬written <+: '\x7b' :: cs := by
  constructor
  · rintro h written segment hspells ⟨after, hafter⟩
    rw [place?_iff.2 ⟨written, hspells, hafter.symm⟩] at h
    cases h
  · intro h
    cases hplace : place? cs with
    | none => rfl
    | some found =>
      obtain ⟨written, hspells, hwritten⟩ := place?_iff.1 hplace
      exact absurd ⟨found.2, hwritten.symm⟩ (h written found.1 hspells)

/-! ### The pass -/

/-- The search of segments makes a pass. -/
theorem pass_scan (cs : List Char) : Pass cs (scan cs) := by
  fun_induction scan cs with
  | case1 => exact .done
  | case2 rest segment after hplace _ ih =>
    obtain ⟨written, hspells, hwritten⟩ := place?_iff.1 hplace
    rw [hwritten]
    exact .place hspells ih
  | case3 rest hplace ih => exact .copy (place?_eq_none_iff.1 hplace) ih
  | case4 c rest hbrace ih =>
    refine .copy ?_ ih
    rintro written segment hspells ⟨after, hafter⟩
    obtain ⟨tail, rfl⟩ := hspells.eq_brace_cons
    exact hbrace (cons.inj hafter).1.symm

/-- A pass finds what the search of segments finds. -/
theorem Pass.eq_scan (h : Pass cs segments) : segments = scan cs := by
  induction h with
  | done => simp [scan]
  | @place written rest segment segments hspells _ ih =>
    obtain ⟨tail, rfl⟩ := hspells.eq_brace_cons
    have hplace : place? (tail ++ rest) = some (segment, rest) := place?_iff.2 ⟨_, hspells, rfl⟩
    rw [cons_append, scan, if_pos rfl]
    split
    · rename_i found left hfound
      rw [hplace] at hfound
      cases hfound
      rw [ih]
    · rename_i hfound
      rw [hplace] at hfound
      cases hfound
  | @copy c rest segments hnone _ ih =>
    rw [scan]
    split
    · rename_i hbrace
      subst hbrace
      split
      · rename_i found left hfound
        rw [place?_eq_none_iff.2 hnone] at hfound
        cases hfound
      · rw [ih]
    · rw [ih]

/-- The segments of a text are those of its only pass. -/
theorem pass_iff : Pass cs segments ↔ segments = scan cs :=
  ⟨Pass.eq_scan, fun h => h ▸ pass_scan cs⟩

/-! ### The alternatives in turn -/

/-- One of the three alternatives holds wherever there is text. -/
theorem eq_nil_of_segmentAt? (h : segmentAt? cs = none) : cs = [] := by
  cases cs with
  | nil => rfl
  | cons c rest =>
    rw [segmentAt?, Option.or_eq_none_iff, Option.or_eq_none_iff] at h
    by_cases hbrace : c = '\x7b'
    · subst hbrace
      cases h.2.2
    · simp [textAt?, hbrace] at h

/-- The alternatives in turn read every text to its end and give its segments. -/
theorem readSegments_eq (cs : List Char) : readSegments cs = (scan cs, []) := by
  fun_induction readSegments cs with
  | case1 cs hnone => rw [eq_nil_of_segmentAt? hnone, scan]
  | case2 cs found rest hfound _ later ih =>
    simp only [later, ih]
    obtain ⟨segment, after, rfl, hplace, rfl⟩ | ⟨text, -, htext, rfl, rfl⟩ | ⟨rfl, hplace, rfl⟩ :=
      segmentAt?_cases hfound
    · obtain ⟨written, hspells, hwritten⟩ := place?_iff.1 hplace
      rw [hwritten, ← (Pass.place hspells (pass_scan rest)).eq_scan]
      rfl
    · rw [scan_append fun hbrace => htext _ hbrace rfl]
    · rw [← (Pass.copy (place?_eq_none_iff.1 hplace) (pass_scan rest)).eq_scan]
      rfl

/-- Every text is a template. -/
theorem parse?_eq (source : String) : parse? source = some ⟨source⟩ := by
  rw [parse?, readSegments_eq]
  rfl

/-! ### What is put in -/

theorem fill?_eq (h : segment.isServedBy arguments.length) :
    (fill? arguments segment).getD [] = replacement arguments segment := by
  cases segment with
  | literal c => rfl
  | argument n =>
    have hlt : n < arguments.length := of_decide_eq_true h
    simp [fill?, replacement, getD, getElem?_eq_getElem hlt]
  | allArguments => exact Text.toList_join ", " arguments

theorem isServedBy_iff {t : Template} {count : Nat} :
    t.isServedBy count ↔ ∀ n, .argument n ∈ t.segments → n < count := by
  rw [isServedBy, all_eq_true]
  constructor
  · intro h n hn
    exact of_decide_eq_true (h _ hn)
  · intro h segment hsegment
    cases segment with
    | literal | allArguments => rfl
    | argument n => exact decide_eq_true (h n hsegment)

theorem hasPlaces_eq_false_iff {t : Template} :
    t.hasPlaces = false ↔ ∀ segment ∈ t.segments, ∃ c, segment = .literal c := by
  rw [hasPlaces, any_eq_false]
  refine forall₂_congr fun segment _ => ?_
  cases segment with
  | literal c => simp [isPlace]
  | argument n => simp [isPlace]
  | allArguments => simp [isPlace]

/-- Every text can be read as a template and is its source. The alternatives in turn read all of it,
and what they find is its only pass. The expansion is what this pass gives when each place is
replaced by its argument or by all of them and every other character is copied. It fails exactly if
a place asks for an argument that is not there. A template has no places exactly if its pass copies
everything, and then it is its own expansion. -/
theorem expand?_single_pass (source : String) :
    ∃ t segments, parse? source = some t ∧ t.source = source ∧
      readSegments source.toList = (segments, []) ∧
      (∀ others, Pass source.toList others ↔ others = segments) ∧
      (∀ arguments, (∀ n, .argument n ∈ segments → n < arguments.length) →
        t.expand? arguments = some (String.ofList (segments.flatMap (replacement arguments)))) ∧
      (∀ arguments, t.expand? arguments = none ↔
        ∃ n, .argument n ∈ segments ∧ arguments.length ≤ n) ∧
      (t.hasPlaces = false ↔ ∀ segment ∈ segments, ∃ c, segment = .literal c) ∧
      (t.hasPlaces = false → ∀ arguments, t.expand? arguments = some source) := by
  let t : Template := ⟨source⟩
  refine ⟨t, t.segments, parse?_eq source, rfl, readSegments_eq _, fun others => pass_iff, ?_, ?_,
    hasPlaces_eq_false_iff, expand?_of_not_hasPlaces⟩
  · intro arguments hserved
    rw [expand?_of_isServedBy (isServedBy_iff.2 hserved)]
    congr 2
    refine flatMap_congr fun segment hsegment => fill?_eq ?_
    exact all_eq_true.1 (isServedBy_iff.2 hserved) segment hsegment
  · intro arguments
    rw [expand?_eq, ite_eq_right_iff]
    simp only [reduceCtorEq, imp_false, isServedBy_iff, not_forall, not_lt, exists_prop]

end Template

end TriggerDialect
