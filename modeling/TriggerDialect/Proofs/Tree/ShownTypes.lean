import TriggerDialect.Generate.Scope
import TriggerDialect.Proofs.Mapping.Expansion
import TriggerDialect.Proofs.Mapping.Tables

/-!
# Declared types and their texts

The text of a type has the words of its name first, each after one space, then the modifiers and the
mark of an anchored type. This need not be the text that was read, where words may stand after the
modifiers and blanks are free. `IsSpelled` says which types can be read at all, and `parse?_shown`
that such a type is read from its text unless one of its modifiers is empty.
-/

namespace TriggerDialect

open List Text

variable {cs m : List Char} {c : Char} {p : Char → Bool} {type : DeclaredType}
  {modifiers : List String}

/-! ### Characters that are no blanks -/

namespace Text

open Scan (startsWith takeWhile_iff)

/-- Ranges of code points that have nothing in common with the blanks. -/
def avoidsBlanks (ranges : List (Nat × Nat)) : Bool :=
  ranges.all fun range => blankRanges.all fun blank =>
    decide (range.2 < blank.1) || decide (blank.2 < range.1)

theorem isBlank_of_avoidsBlanks {ranges : List (Nat × Nat)} (h : avoidsBlanks ranges)
    (hc : ranges.any (fun range => range.1 ≤ c.toNat && c.toNat ≤ range.2)) :
    isBlank c = false := by
  obtain ⟨range, hrange, hinside⟩ := any_eq_true.1 hc
  rw [isBlank, any_eq_false]
  intro blank hblank
  have happart := all_eq_true.1 (all_eq_true.1 h range hrange) blank hblank
  simp only [Bool.and_eq_true, Bool.or_eq_true, decide_eq_true_eq] at hinside happart ⊢
  omega

theorem isBlank_of_lt (h : ∀ n, n < 128 → p (Char.ofNat n) → isBlank (Char.ofNat n) = false)
    (hlt : c.toNat < 128) (hc : p c) : isBlank c = false := by
  have hcode := h c.toNat hlt
  rw [Char.ofNat_toNat] at hcode
  exact hcode hc

theorem isBlank_of_isLetter (h : isLetter c) : isBlank c = false := by
  unfold isLetter at h
  split at h
  · exact isBlank_of_lt (p := Char.isAlpha) (by decide) ‹_› h
  · exact isBlank_of_avoidsBlanks (by decide +kernel) h

theorem isBlank_of_isNumeral (h : isNumeral c) : isBlank c = false := by
  unfold isNumeral at h
  split at h
  · exact isBlank_of_lt (p := Char.isDigit) (by decide) ‹_› h
  · exact isBlank_of_avoidsBlanks (by decide +kernel) h

/-- A text that ends in a character other than a blank. -/
def EndsSolid (cs : List Char) : Prop := ∃ front c, cs = front ++ [c] ∧ isBlank c = false

theorem EndsSolid.append_left (h : EndsSolid cs) (front : List Char) : EndsSolid (front ++ cs) := by
  obtain ⟨inner, c, rfl, hc⟩ := h
  exact ⟨front ++ inner, c, (append_assoc ..).symm, hc⟩

/-- A text without blanks at its ends is its own trimmed text. -/
theorem trimChars_eq_self (hstart : startsWith isBlank cs = false) (hend : EndsSolid cs) :
    trimChars cs = cs := by
  have htrim : trimStartChars cs = cs := (takeWhile_iff.2 ⟨(nil_append _).symm, rfl, hstart⟩).2
  obtain ⟨front, c, rfl, hc⟩ := hend
  rw [trimChars, htrim]
  simp [trimEndChars, hc]

end Text

namespace DeclaredType

open Scan (startsWith startsWith_append takeWhile_iff)

variable {c : Char} {cs name rest head : List Char} {names : List (List Char)}

/-! ### Names -/

/-- A quoted or plain name. -/
inductive IsName : List Char → Prop where
  | quoted {inner : List Char} (hinner : inner.all (· != '"')) :
      IsName ('"' :: (inner ++ ['"']))
  | plain {c : Char} {tail : List Char} (hhead : isNameHead c)
      (htail : tail.all isNameTail) : IsName (c :: tail)

theorem isName_of_takeName (h : takeName cs = some (name, rest)) :
    IsName name ∧ cs = name ++ rest := by
  cases cs with
  | nil => cases h
  | cons c cs =>
    simp only [takeName] at h
    split at h
    · rename_i hquote
      split at h
      · cases h
      · rename_i close tail hclose
        cases h
        obtain ⟨hcs, hinner, hstop⟩ := takeWhile_iff.1 ⟨rfl, hclose⟩
        have hclose : close = '"' := by simpa using hstop
        subst hquote hclose
        refine ⟨.quoted hinner, ?_⟩
        simpa using hcs
    · split at h
      · rename_i hhead
        cases h
        exact ⟨.plain hhead all_takeWhile, by simp⟩
      · cases h

/-- A name is read where nothing follows that could go on with it. -/
theorem IsName.takeName_append (h : IsName name) (hrest : startsWith isNameTail rest = false) :
    takeName (name ++ rest) = some (name, rest) := by
  cases h with
  | @quoted inner hinner =>
    have hstop : startsWith (· != '"') ('"' :: rest) = false := rfl
    obtain ⟨htake, hdrop⟩ := takeWhile_iff.2 ⟨rfl, hinner, hstop⟩
    simp [takeName, htake, hdrop]
  | @plain c tail hhead htail =>
    have hquote : c ≠ '"' := by
      rintro rfl
      revert hhead
      decide
    obtain ⟨htake, hdrop⟩ := takeWhile_iff.2 ⟨rfl, htail, hrest⟩
    simp [takeName, hquote, hhead, htake, hdrop]

theorem isBlank_of_isNameHead (h : isNameHead c) : isBlank c = false := by
  rw [isNameHead, Bool.or_eq_true, beq_iff_eq] at h
  rcases h with h | rfl
  · exact isBlank_of_isLetter h
  · decide

theorem isBlank_of_isNameTail (h : isNameTail c) : isBlank c = false := by
  simp only [isNameTail, Bool.or_eq_true, beq_iff_eq] at h
  rcases h with (((h | h) | rfl) | rfl) | rfl
  · exact isBlank_of_isLetter h
  · exact isBlank_of_isNumeral h
  · decide
  · decide
  · decide

theorem IsName.startsWith_isBlank (h : IsName name) (rest : List Char) :
    startsWith isBlank (name ++ rest) = false := by
  cases h with
  | quoted => exact (by decide : isBlank '"' = false)
  | plain hhead => exact isBlank_of_isNameHead hhead

theorem IsName.endsSolid (h : IsName name) : Text.EndsSolid name := by
  cases h with
  | @quoted inner => exact ⟨'"' :: inner, '"', rfl, by decide⟩
  | @plain c tail hhead htail =>
    rcases eq_nil_or_concat tail with rfl | ⟨front, last, rfl⟩
    · exact ⟨[], c, rfl, isBlank_of_isNameHead hhead⟩
    · refine ⟨c :: front, last, by simp, isBlank_of_isNameTail ?_⟩
      exact all_eq_true.1 htail last (by simp)

/-- Gaps are blanks, and where no blank leads there is none to skip. -/
theorem skipGap_eq_self (h : startsWith isBlank cs = false) : skipGap cs = cs := by
  cases cs with
  | nil => rfl
  | cons c cs =>
    have hgap : isGap c = false := by
      cases hc : isGap c with
      | false => rfl
      | true =>
        simp only [isGap, Bool.or_eq_true, beq_iff_eq] at hc
        have hblank : isBlank c = false := h
        rcases hc with ((rfl | rfl) | rfl) | rfl
        all_goals exact absurd hblank (by decide)
    rw [skipGap, dropWhile_cons_of_neg (by simp [hgap])]

theorem skipGap_space (h : startsWith isBlank cs = false) : skipGap (' ' :: cs) = cs := by
  rw [skipGap, dropWhile_cons_of_pos (by decide)]
  exact skipGap_eq_self h

/-! ### Chains of names -/

/-- Names with a mark before each of them. -/
def chained (mark : Char) (names : List (List Char)) : List Char := names.flatMap (mark :: ·)

/-- Characters that can go on with a chain of names. -/
def goesOn (c : Char) : Bool := isNameTail c || isGap c || c == '.'

theorem startsWith_of_goesOn (hp : ∀ c, p c → goesOn c)
    (h : startsWith goesOn rest = false) : startsWith p rest = false := by
  cases rest with
  | nil => rfl
  | cons c rest =>
    have hc : goesOn c = false := h
    cases hpc : p c with
    | false => exact hpc
    | true => rw [hp c hpc] at hc; cases hc

theorem isNameTail_of_goesOn (h : startsWith goesOn rest = false) :
    startsWith isNameTail rest = false :=
  startsWith_of_goesOn (fun c hc => by simp [goesOn, hc]) h

theorem startsWith_chained (mark : Char) (hmark : p mark = false)
    (hrest : startsWith p rest = false) (names : List (List Char)) :
    startsWith p (chained mark names ++ rest) = false := by
  cases names with
  | nil => exact hrest
  | cons name names => exact hmark

theorem exists_dottedNames (cs : List Char) :
    ∃ names, (∀ name ∈ names, IsName name) ∧ (dottedNames cs).1 = chained '.' names := by
  fun_induction dottedNames cs with
  | case1 after htake => exact ⟨[], forall_mem_nil _, rfl⟩
  | case2 after name rest htake _ later ih =>
    obtain ⟨names, hnames, hlater⟩ := ih
    refine ⟨name :: names, forall_mem_cons.2 ⟨(isName_of_takeName htake).1, hnames⟩, ?_⟩
    simp [chained, later, hlater]
  | case3 cs => exact ⟨[], forall_mem_nil _, rfl⟩

theorem dottedNames_chained (hnames : ∀ name ∈ names, IsName name)
    (hrest : startsWith isNameTail rest = false) (hdot : startsWith (· == '.') rest = false) :
    dottedNames (chained '.' names ++ rest) = (chained '.' names, rest) := by
  induction names with
  | nil =>
    cases rest with
    | nil => simp [chained, dottedNames]
    | cons c rest =>
      have hc : c ≠ '.' := by
        rintro rfl
        exact absurd (show ('.' == '.') = false from hdot) (by decide)
      rw [chained, flatMap_nil, nil_append, dottedNames]
      exact fun after hafter => hc (cons.inj hafter).1
  | cons name names ih =>
    rw [forall_mem_cons] at hnames
    have htake := hnames.1.takeName_append
      (startsWith_chained '.' (by decide) hrest names)
    have hcs : chained '.' (name :: names) ++ rest =
        '.' :: (name ++ (chained '.' names ++ rest)) := by simp [chained]
    rw [hcs, dottedNames]
    split
    · rename_i hnone
      rw [htake] at hnone
      cases hnone
    · rename_i found left hfound
      rw [htake] at hfound
      cases hfound
      rw [ih hnames.2]
      simp [chained]

theorem isName_of_mem_words {word : List Char} (h : word ∈ (words cs).1) : IsName word := by
  fun_induction words cs with
  | case1 => cases h
  | case2 c after hgap htake => cases h
  | case3 c after hgap name rest htake _ later ih =>
    rcases mem_cons.1 h with rfl | h
    · exact (isName_of_takeName htake).1
    · exact ih h
  | case4 c after hgap => cases h

theorem words_chained (hnames : ∀ name ∈ names, IsName name)
    (hrest : startsWith goesOn rest = false) :
    words (chained ' ' names ++ rest) = (names, rest) := by
  induction names with
  | nil =>
    cases rest with
    | nil => simp [chained, words]
    | cons c rest =>
      have hgap : isGap c = false :=
        startsWith_of_goesOn (p := isGap) (fun c hc => by simp [goesOn, hc]) hrest
      rw [chained, flatMap_nil, nil_append, words, if_neg (by simp [hgap])]
  | cons name names ih =>
    rw [forall_mem_cons] at hnames
    have htake := hnames.1.takeName_append
      (startsWith_chained ' ' (by decide) (isNameTail_of_goesOn hrest) names)
    rw [← skipGap_eq_self (hnames.1.startsWith_isBlank (chained ' ' names ++ rest))] at htake
    have hcs : chained ' ' (name :: names) ++ rest =
        ' ' :: (name ++ (chained ' ' names ++ rest)) := by simp [chained]
    rw [hcs, words, if_pos (by decide)]
    split
    · rename_i hnone
      rw [htake] at hnone
      cases hnone
    · rename_i found left hfound
      rw [htake] at hfound
      cases hfound
      rw [ih hnames.2]

theorem joinWords_eq (head : List Char) (more : List (List Char)) :
    joinWords head more = head ++ chained ' ' more := by
  unfold joinWords
  induction more generalizing head with
  | nil => simp [chained]
  | cons word more ih =>
    rw [foldl_cons, ih]
    simp [chained]

/-- A chain of names ends as its last name does. -/
theorem endsSolid_chained (hhead : Text.EndsSolid head) (mark : Char)
    (hnames : ∀ name ∈ names, IsName name) : Text.EndsSolid (head ++ chained mark names) := by
  rcases eq_nil_or_concat names with rfl | ⟨front, last, rfl⟩
  · simpa [chained] using hhead
  · have hlast := (hnames last (by simp)).endsSolid
    simpa [chained] using hlast.append_left (head ++ chained mark front ++ [mark])

/-! ### Modifiers -/

/-- A modifier as it is kept: no part of a list of modifiers ends it, and it has no blanks at its
ends. -/
def IsModifier (m : List Char) : Prop := m.all isModifierChar = true ∧ trimChars m = m

theorem startsWith_trimChars (cs : List Char) : startsWith isBlank (trimChars cs) = false :=
  startsWith_trimEndChars (Scan.startsWith_dropWhile _ _)

theorem all_of_mem_modifierList {found : List (List Char) × List Char}
    (h : modifierList cs = some found) : ∀ m ∈ found.1, m.all isModifierChar := by
  fun_induction modifierList cs generalizing found with
  | case1 => cases h
  | case2 =>
    rename_i ih
    obtain ⟨later, hlater, rfl⟩ := Option.map_eq_some_iff.1 h
    exact forall_mem_cons.2 ⟨all_takeWhile, ih hlater⟩
  | case3 =>
    cases h
    exact forall_mem_singleton.2 all_takeWhile
  | case4 => cases h

theorem isModifier_trimChars (h : m.all isModifierChar) : IsModifier (trimChars m) :=
  ⟨all_eq_true.2 fun c hc => all_eq_true.1 h c ((trimChars_sublist m).subset hc),
    trimChars_trimChars m⟩

theorem startsWith_intercalate {separator : List Char} (hne : m ≠ []) (more : List (List Char))
    (rest : List Char) :
    startsWith p (separator.intercalate (m :: more) ++ rest) = startsWith p m := by
  obtain ⟨c, m, rfl⟩ := exists_cons_of_ne_nil hne
  cases more with
  | nil => simp [intercalate]
  | cons second more => simp [intercalate]

/-- One modifier is read up to the mark that ends it. -/
theorem modifierList_append {m : List Char} (hchars : m.all isModifierChar) (hne : m ≠ [])
    (rest : List Char) :
    modifierList (m ++ ')' :: rest) = some ([m], rest) ∧
      modifierList (m ++ ',' :: rest) =
        (modifierList (skipGap rest)).map fun found => (m :: found.1, found.2) := by
  have hcut : ∀ mark, isModifierChar mark = false →
      (m ++ mark :: rest).takeWhile isModifierChar = m ∧
        (m ++ mark :: rest).dropWhile isModifierChar = mark :: rest :=
    fun mark hmark => takeWhile_iff.2 ⟨rfl, hchars, hmark⟩
  have hsome : m.isEmpty = false := by simpa using hne
  constructor
  · obtain ⟨htake, hdrop⟩ := hcut ')' (by decide)
    rw [modifierList, htake, hsome]
    simp only [Bool.false_eq_true, if_false]
    split
    · rename_i after hafter
      rw [hdrop] at hafter
      cases hafter
    · rename_i after hafter
      rw [hdrop] at hafter
      cases hafter
      rfl
    · rename_i hother
      exact absurd hdrop (hother rest)
  · obtain ⟨htake, hdrop⟩ := hcut ',' (by decide)
    rw [modifierList, htake, hsome]
    simp only [Bool.false_eq_true, if_false]
    split
    · rename_i after hafter
      rw [hdrop] at hafter
      cases hafter
      rfl
    · rename_i after hafter
      rw [hdrop] at hafter
      cases hafter
    · rename_i hother _
      exact absurd hdrop (hother rest)

/-- Modifiers without blanks at their ends are read from the text in which commas and spaces
separate them. -/
theorem modifierList_intercalate {modifiers : List (List Char)} (hne : modifiers ≠ [])
    (hall : ∀ m ∈ modifiers, IsModifier m ∧ m ≠ []) (rest : List Char) :
    modifierList (", ".toList.intercalate modifiers ++ ')' :: rest) = some (modifiers, rest) := by
  induction modifiers with
  | nil => exact absurd rfl hne
  | cons m modifiers ih =>
    rw [forall_mem_cons] at hall
    obtain ⟨⟨⟨hchars, _⟩, hm⟩, hall⟩ := hall
    cases modifiers with
    | nil => simpa using (modifierList_append hchars hm rest).1
    | cons second modifiers =>
      have htext : ", ".toList.intercalate (m :: second :: modifiers) ++ ')' :: rest =
          m ++ ',' :: ' ' :: (", ".toList.intercalate (second :: modifiers) ++ ')' :: rest) := by
        simp [intercalate]
      have hsecond : startsWith isBlank
          (", ".toList.intercalate (second :: modifiers) ++ ')' :: rest) = false := by
        obtain ⟨⟨_, htrim⟩, hne⟩ := hall second mem_cons_self
        rw [startsWith_intercalate hne, ← htrim]
        exact startsWith_trimChars second
      rw [htext, (modifierList_append hchars hm _).2, skipGap_space hsecond,
        ih (cons_ne_nil _ _) hall]
      rfl

/-! ### Whole types -/

/-- The types that are read from some text. The name is a qualified name with further words. -/
structure IsSpelled (type : DeclaredType) : Prop where
  name : ∃ first dotted more, IsName first ∧ (∀ n ∈ dotted, IsName n) ∧ (∀ n ∈ more, IsName n) ∧
    type.name.toList = first ++ chained '.' dotted ++ chained ' ' more
  modifiers : ∀ m ∈ type.modifiers, IsModifier m.toList

theorem all_of_mem_optionalModifiers (cs : List Char) :
    ∀ m ∈ (optionalModifiers cs).1, m.all isModifierChar := by
  unfold optionalModifiers
  cases hgroup : modifierGroup (skipGap cs) with
  | none => exact forall_mem_nil _
  | some found =>
    unfold modifierGroup at hgroup
    split at hgroup
    · exact all_of_mem_modifierList hgroup
    · cases hgroup

theorem isSpelled_of_ofChars? (h : ofChars? cs = some type) : IsSpelled type := by
  unfold ofChars? at h
  split at h
  · cases h
  · rename_i head rest hhead
    simp only at h
    split at h
    · cases h
      obtain ⟨⟨first, left⟩, htake, hpair⟩ := Option.map_eq_some_iff.1 hhead
      obtain ⟨dotted, hdotted, hlater⟩ := exists_dottedNames left
      cases hpair
      refine ⟨⟨first, dotted, (words (dottedNames left).2).1 ++
        (words (optionalModifiers (words (dottedNames left).2).2).2).1,
        (isName_of_takeName htake).1, hdotted, ?_, ?_⟩, ?_⟩
      · intro n hn
        exact (mem_append.1 hn).elim isName_of_mem_words isName_of_mem_words
      · rw [String.toList_ofList, joinWords_eq, hlater]
      · intro m hm
        obtain ⟨modifier, hmodifier, rfl⟩ := mem_map.1 hm
        rw [String.toList_ofList]
        exact isModifier_trimChars (all_of_mem_optionalModifiers _ modifier hmodifier)
    · cases h

theorem optionalAnchor_anchorText (anchor : Option Anchor) :
    optionalAnchor (anchorText anchor).toList = (anchor, []) ∧
      startsWith goesOn (anchorText anchor).toList = false ∧
      modifierGroup (skipGap (anchorText anchor).toList) = none := by
  cases anchor with
  | none => decide
  | some anchor => cases anchor <;> decide

/-- The text of a type, part by part. -/
theorem toList_shown (type : DeclaredType) :
    type.shown.toList = type.name.toList ++
      ((modifiersText type.modifiers).toList ++ (anchorText type.anchor).toList) := by
  simp [shown]

theorem toList_modifiersText (h : modifiers ≠ []) :
    (modifiersText modifiers).toList =
      '(' :: (", ".toList.intercalate (modifiers.map String.toList) ++ [')']) := by
  rw [modifiersText, if_neg (by simpa using h), String.toList_append, String.toList_append,
    toList_join]
  rfl

/-- What stands after the name of a type is read back, and cannot be taken for more of the name. -/
theorem optionalModifiers_text (anchor : Option Anchor)
    (hmodifiers : ∀ m ∈ modifiers, IsModifier m.toList) (hfull : ∀ m ∈ modifiers, m ≠ "") :
    optionalModifiers ((modifiersText modifiers).toList ++ (anchorText anchor).toList) =
        (modifiers.map String.toList, (anchorText anchor).toList) ∧
      startsWith goesOn ((modifiersText modifiers).toList ++ (anchorText anchor).toList) =
        false := by
  obtain ⟨_, hstart, hgroup⟩ := optionalAnchor_anchorText anchor
  by_cases hnil : modifiers = []
  · subst hnil
    exact ⟨by simp [optionalModifiers, modifiersText, hgroup], hstart⟩
  · have hall : ∀ m ∈ modifiers.map String.toList, IsModifier m ∧ m ≠ [] := by
      intro m hm
      obtain ⟨modifier, hmodifier, rfl⟩ := mem_map.1 hm
      refine ⟨hmodifiers modifier hmodifier, fun hempty => hfull modifier hmodifier ?_⟩
      exact String.toList_eq_nil_iff.1 hempty
    have hread := modifierList_intercalate (by simpa using hnil) hall (anchorText anchor).toList
    have htext : (modifiersText modifiers).toList ++ (anchorText anchor).toList =
        '(' :: (", ".toList.intercalate (modifiers.map String.toList) ++
          ')' :: (anchorText anchor).toList) := by
      rw [toList_modifiersText hnil]
      simp
    have hgap : startsWith isBlank (", ".toList.intercalate (modifiers.map String.toList) ++
        ')' :: (anchorText anchor).toList) = false := by
      obtain ⟨first, later, rfl⟩ := exists_cons_of_ne_nil hnil
      obtain ⟨⟨_, htrim⟩, hne⟩ := hall first.toList (by simp)
      rw [map_cons, startsWith_intercalate hne, ← htrim]
      exact startsWith_trimChars _
    rw [htext]
    constructor
    · rw [optionalModifiers, skipGap_eq_self (by rfl), modifierGroup, skipGap_eq_self hgap, hread]
      rfl
    · exact (by decide : goesOn '(' = false)

/-- A type that can be read is read from its text, unless one of its modifiers is empty. -/
theorem ofChars?_shown (h : IsSpelled type) (hfull : ∀ m ∈ type.modifiers, m ≠ "") :
    ofChars? type.shown.toList = some type := by
  obtain ⟨⟨first, dotted, more, hfirst, hdotted, hmore, hname⟩, hmodifiers⟩ := h
  obtain ⟨hoptional, hstop⟩ := optionalModifiers_text type.anchor hmodifiers hfull
  obtain ⟨hanchor, hstart, _⟩ := optionalAnchor_anchorText type.anchor
  have hhead : qualifiedName type.shown.toList = some (first ++ chained '.' dotted,
      chained ' ' more ++
        ((modifiersText type.modifiers).toList ++ (anchorText type.anchor).toList)) := by
    have hname' := startsWith_chained ' ' (by decide) (isNameTail_of_goesOn hstop) more
    have hdot := startsWith_chained (p := (· == '.')) ' ' (by decide)
      (startsWith_of_goesOn (fun c hc => by simp_all [goesOn]) hstop) more
    have htake := hfirst.takeName_append
      (startsWith_chained '.' (by decide) hname' dotted)
    rw [qualifiedName, toList_shown, hname, append_assoc, append_assoc, htake]
    simp [dottedNames_chained hdotted hname' hdot]
  have htail : words (anchorText type.anchor).toList = ([], (anchorText type.anchor).toList) :=
    words_chained (forall_mem_nil IsName) hstart
  have htrim : (type.modifiers.map String.toList).map
      (fun modifier => String.ofList (trimChars modifier)) = type.modifiers := by
    rw [map_map]
    refine (map_congr_left fun m hm => ?_).trans (map_id _)
    simp [(hmodifiers m hm).2]
  simp only [ofChars?, hhead, words_chained hmore hstop, hoptional, htail, hanchor, htrim]
  rw [joinWords_eq, append_nil, ← hname, String.ofList_toList]
  rfl

theorem trimChars_shown (h : IsSpelled type) : trimChars type.shown.toList = type.shown.toList := by
  obtain ⟨⟨first, dotted, more, hfirst, hdotted, hmore, hname⟩, _⟩ := h
  have hsolid : Text.EndsSolid type.name.toList := by
    rw [hname]
    exact endsSolid_chained (endsSolid_chained hfirst.endsSolid '.' hdotted) ' ' hmore
  have hmodifiers : Text.EndsSolid (type.name.toList ++ (modifiersText type.modifiers).toList) := by
    by_cases hnil : type.modifiers = []
    · simpa [hnil, modifiersText] using hsolid
    · rw [toList_modifiersText hnil]
      exact ⟨_, ')', by rw [← cons_append, ← append_assoc], by decide⟩
  apply trimChars_eq_self
  · rw [toList_shown, hname, append_assoc, append_assoc]
    exact hfirst.startsWith_isBlank _
  · rw [toList_shown, ← append_assoc]
    cases type.anchor with
    | none => simpa [anchorText] using hmodifiers
    | some anchor =>
      refine Text.EndsSolid.append_left ?_ _
      cases anchor with
      | ofColumn => exact ⟨"%TYP".toList, 'E', by decide, by decide⟩
      | ofRow => exact ⟨"%ROWTYP".toList, 'E', by decide, by decide⟩

/-- A type that was read from some text and has no empty modifier is read from its own text as well.
Such types differ if their texts do, and the output has this text where the type is anchored or the
table does not have it. -/
theorem parse?_shown {source : String} {type : DeclaredType} (h : parse? source = some type)
    (hfull : ∀ m ∈ type.modifiers, m ≠ "") :
    parse? type.shown = some type ∧
      (∀ other, (∃ source', parse? source' = some other) → (∀ m ∈ other.modifiers, m ≠ "") →
        other.shown = type.shown → other = type) ∧
      ∀ scope : Generate.Scope, type.isAnchored = true ∨ scope.mapping.type? type = none →
        ∀ offset, parse? (scope.type type offset).text = some type := by
  have hread : ∀ {source : String} {type : DeclaredType}, parse? source = some type →
      (∀ m ∈ type.modifiers, m ≠ "") → parse? type.shown = some type := by
    intro source type h hfull
    have hspelled := isSpelled_of_ofChars? h
    rw [parse?, trimChars_shown hspelled]
    exact ofChars?_shown hspelled hfull
  refine ⟨hread h hfull, ?_, ?_⟩
  · rintro other ⟨source', h'⟩ hfull' hshown
    have hother := hread h' hfull'
    rw [hshown, hread h hfull] at hother
    exact (Option.some.inj hother).symm
  · intro scope hkept offset
    have htext : (scope.type type offset).text = type.shown := by
      simp only [Generate.Scope.type, Recast.typeText]
      rcases hkept with hanchored | hunmapped
      · have htype : scope.context.mapping.type? type = some type.shown := if_pos hanchored
        rw [htype]
      · have htype : scope.context.mapping.type? type = none := hunmapped
        rw [htype]
    rw [htext]
    exact hread h hfull

/-- Words after the modifiers, blanks of several kinds, and a quoted part of the name. -/
theorem parse?_shown_trailingWords :
    ∃ type, parse? "hr.\"T  s\"\tAS ( 6 ,2 BYTE )  WITH\nZONE %rowtype" = some type ∧
      type.shown = "hr.\"T  s\" AS WITH ZONE(6, 2 BYTE)%ROWTYPE" ∧
      parse? type.shown = some type := by
  have hread : parse? "hr.\"T  s\"\tAS ( 6 ,2 BYTE )  WITH\nZONE %rowtype" =
      some ⟨"hr.\"T  s\" AS WITH ZONE", ["6", "2 BYTE"], some .ofRow⟩ := by
    decide +kernel
  exact ⟨_, hread, by decide, (parse?_shown hread (by decide)).1⟩

end DeclaredType

end TriggerDialect
