import TriggerDialect.Token.Lexeme

/-!
# Runs, quotations, names and numbers

Each of the scans that cut a lexeme is characterised by what it takes and by what may follow: the
two make up the text, what is taken has a form of its own, and what follows does not go on with it.
-/

namespace TriggerDialect.Scan

open List

variable {p : Char → Bool} {c : Char} {cs xs rest : List Char}

/-! ### Runs of characters -/

@[simp] theorem startsWith_nil (p : Char → Bool) : startsWith p [] = false := rfl

@[simp] theorem startsWith_cons (p : Char → Bool) (c : Char) (cs : List Char) :
    startsWith p (c :: cs) = p c := rfl

theorem startsWith_append (hxs : xs ≠ []) : startsWith p (xs ++ rest) = startsWith p xs := by
  cases xs with
  | nil => exact absurd rfl hxs
  | cons x xs => rfl

theorem startsWith_dropWhile (p : Char → Bool) (cs : List Char) :
    startsWith p (cs.dropWhile p) = false := by
  induction cs with
  | nil => rfl
  | cons c cs ih =>
    rw [dropWhile_cons]
    split
    · exact ih
    · rename_i hc
      simpa using hc

/-- A run ends where the first character stands that does not belong to it. -/
theorem takeWhile_iff :
    (cs.takeWhile p = xs ∧ cs.dropWhile p = rest) ↔
      cs = xs ++ rest ∧ xs.all p ∧ startsWith p rest = false := by
  constructor
  · rintro ⟨rfl, rfl⟩
    exact ⟨takeWhile_append_dropWhile.symm, all_takeWhile, startsWith_dropWhile p cs⟩
  · rintro ⟨rfl, hall, hrest⟩
    induction xs with
    | nil =>
      cases rest with
      | nil => exact ⟨rfl, rfl⟩
      | cons c rest =>
        have hc : p c = false := hrest
        simp [hc]
    | cons x xs ih =>
      rw [all_cons, Bool.and_eq_true] at hall
      obtain ⟨htake, hdrop⟩ := ih hall.2
      simp [hall.1, htake, hdrop]

/-! ### Quotations -/

/-- Whether the characters end at the first `quote` among them that is not doubled. -/
def closesQuote (quote : Char) : List Char → Bool
  | [] => false
  | [c] => c == quote
  | c :: d :: cs =>
    if c = quote then d == quote && closesQuote quote cs else closesQuote quote (d :: cs)

theorem throughQuote_iff {quote : Char} :
    throughQuote quote cs = some (xs, rest) ↔
      cs = xs ++ rest ∧ closesQuote quote xs ∧ startsWith (· == quote) rest = false := by
  constructor
  · intro h
    fun_induction throughQuote quote cs generalizing xs with
    | case1 => cases h
    | case2 => cases h; simp [closesQuote]
    | case3 => cases h
    | case4 cs ih =>
      obtain ⟨inner, hinner, hpair⟩ := Option.map_eq_some_iff.1 h
      cases hpair
      obtain ⟨hcs, hcloses, hrest⟩ := ih hinner
      exact ⟨by rw [hcs]; rfl, by simpa [closesQuote] using hcloses, hrest⟩
    | case5 d cs hd => cases h; simp [closesQuote, hd]
    | case6 c d cs hc ih =>
      obtain ⟨inner, hinner, hpair⟩ := Option.map_eq_some_iff.1 h
      cases hpair
      obtain ⟨hcs, hcloses, hrest⟩ := ih hinner
      refine ⟨by rw [hcs]; rfl, ?_, hrest⟩
      cases hinside : inner.1 with
      | nil => rw [hinside] at hcloses; cases hcloses
      | cons x inside => rw [hinside] at hcloses; simpa [closesQuote, hc] using hcloses
  · rintro ⟨rfl, hcloses, hrest⟩
    fun_induction closesQuote quote xs with
    | case1 => cases hcloses
    | case2 c =>
      rw [beq_iff_eq] at hcloses
      cases rest with
      | nil => simp [throughQuote, hcloses]
      | cons d rest =>
        have hd : d ≠ quote := by simpa using hrest
        simp [throughQuote, hcloses, hd]
    | case3 d cs ih =>
      rw [Bool.and_eq_true, beq_iff_eq] at hcloses
      simp [throughQuote, hcloses.1, ih hcloses.2]
    | case4 c d cs hc ih =>
      have hinner : throughQuote quote (d :: (cs ++ rest)) = some (d :: cs, rest) := ih hcloses
      simp [throughQuote, hc, hinner]

/-- Whether the characters end at the first `first` that is directly followed by `second`. -/
def closesPair (first second : Char) : List Char → Bool
  | [] => false
  | [_] => false
  | c :: d :: cs => if c = first ∧ d = second then cs.isEmpty else closesPair first second (d :: cs)

theorem throughPair_iff {first second : Char} :
    throughPair first second cs = some (xs, rest) ↔
      cs = xs ++ rest ∧ closesPair first second xs := by
  constructor
  · intro h
    fun_induction throughPair first second cs generalizing xs with
    | case1 => cases h
    | case2 => cases h
    | case3 c d cs hpair =>
      cases h
      exact ⟨rfl, by simp [closesPair, hpair]⟩
    | case4 c d cs hpair ih =>
      obtain ⟨inner, hinner, heq⟩ := Option.map_eq_some_iff.1 h
      cases heq
      obtain ⟨hcs, hcloses⟩ := ih hinner
      refine ⟨by rw [hcs]; rfl, ?_⟩
      cases hinside : inner.1 with
      | nil => rw [hinside] at hcloses; cases hcloses
      | cons x inside =>
        rw [hinside] at hcs hcloses
        cases hcs
        simpa [closesPair, hpair] using hcloses
  · rintro ⟨rfl, hcloses⟩
    fun_induction closesPair first second xs with
    | case1 => cases hcloses
    | case2 => cases hcloses
    | case3 c d cs hpair =>
      rw [List.isEmpty_iff] at hcloses
      simp [throughPair, hpair, hcloses]
    | case4 c d cs hpair ih =>
      have hinner : throughPair first second (d :: (cs ++ rest)) = some (d :: cs, rest) :=
        ih hcloses
      simp [throughPair, hpair, hinner]

/-! ### Bind variables -/

theorem isNamePart_of_isNameStart (h : isNameStart c) : isNamePart c := by
  simp only [isNameStart, isNamePart, Char.isAlphanum, Bool.or_eq_true] at h ⊢
  grind

/-- Names with dots between them. -/
def isDotted : List Char → Bool
  | [] => true
  | c :: cs => (isNamePart c || (c == '.' && startsWith isNameStart cs)) && isDotted cs

/-- Whether a bind variable goes on with the text: with a name character, or a dot and a name. -/
def extendsBind : List Char → Bool
  | [] => false
  | c :: cs => isNamePart c || (c == '.' && startsWith isNameStart cs)

theorem dottedName_iff :
    dottedName cs = (xs, rest) ↔
      cs = xs ++ rest ∧ isDotted xs ∧ extendsBind rest = false := by
  constructor
  · intro h
    induction cs generalizing xs with
    | nil => cases h; exact ⟨rfl, rfl, rfl⟩
    | cons c cs ih =>
      unfold dottedName at h
      split at h
      · rename_i hc
        cases h
        obtain ⟨hcs, hdotted, hrest⟩ := ih rfl
        refine ⟨by rw [cons_append, ← hcs], ?_, hrest⟩
        rw [isDotted, hdotted, Bool.and_true]
        -- after a dot a name starts, and all of it is taken
        cases hinside : (dottedName cs).1 with
        | cons x inside => rwa [hcs, hinside, cons_append, startsWith_cons] at hc
        | nil =>
          rw [hinside, nil_append] at hcs
          rw [← hcs] at hrest
          cases cs with
          | nil => simpa using hc
          | cons d cs =>
            simp only [extendsBind, Bool.or_eq_false_iff] at hrest
            have hd : isNameStart d = false := by
              rw [← Bool.not_eq_true]
              intro hstart
              rw [isNamePart_of_isNameStart hstart] at hrest
              cases hrest.1
            simpa [hd] using hc
      · rename_i hc
        cases h
        exact ⟨rfl, rfl, by simpa [extendsBind] using hc⟩
  · rintro ⟨rfl, hdotted, hrest⟩
    induction xs with
    | nil =>
      cases rest with
      | nil => rfl
      | cons c rest =>
        rw [extendsBind] at hrest
        simp [dottedName, hrest]
    | cons x xs ih =>
      rw [isDotted, Bool.and_eq_true] at hdotted
      have hx : (isNamePart x || (x == '.' && startsWith isNameStart (xs ++ rest))) := by
        cases xs with
        | nil =>
          have hx : isNamePart x := by simpa using hdotted.1
          rw [hx, Bool.true_or]
        | cons y xs => exact hdotted.1
      rw [cons_append, dottedName, if_pos hx, ih hdotted.2]

/-! ### Numbers -/

/-- A mark that starts an exponent. -/
def isExponentMark (c : Char) : Bool := c == 'e' || c == 'E'

/-- A decimal point and digits. -/
def IsFraction (cs : List Char) : Prop :=
  ∃ digits, cs = '.' :: digits ∧ digits ≠ [] ∧ digits.all Char.isDigit

/-- An exponent mark, an optional sign and digits. -/
def IsExponent (cs : List Char) : Prop :=
  ∃ mark sign digits, cs = mark :: (sign ++ digits) ∧ isExponentMark mark ∧
    (sign = [] ∨ sign = ['+'] ∨ sign = ['-']) ∧ digits ≠ [] ∧ digits.all Char.isDigit

/-- Whether a fraction starts the text. -/
def startsFraction : List Char → Bool
  | [] => false
  | c :: cs => c == '.' && startsWith Char.isDigit cs

/-- Whether an exponent starts the text. -/
def startsExponent : List Char → Bool
  | [] => false
  | e :: cs => isExponentMark e && (startsWith Char.isDigit cs ||
      (startsWith (fun c => c == '+' || c == '-') cs && startsWith Char.isDigit (cs.drop 1)))

theorem startsWith_of_all (hne : xs ≠ []) (hall : xs.all p) : startsWith p (xs ++ rest) := by
  cases xs with
  | nil => exact absurd rfl hne
  | cons x xs =>
    rw [all_cons, Bool.and_eq_true] at hall
    exact hall.1

theorem takeWhile_ne_nil (h : startsWith p cs) : cs.takeWhile p ≠ [] := by
  cases cs with
  | nil => cases h
  | cons c cs => simp [show p c = true from h]

theorem fraction_iff :
    fraction cs = (xs, rest) ↔ cs = xs ++ rest ∧
      ((xs = [] ∧ startsFraction rest = false) ∨
        (IsFraction xs ∧ startsWith Char.isDigit rest = false)) := by
  constructor
  · intro h
    unfold fraction at h
    split at h
    · rename_i cs
      split at h
      · rename_i hdigit
        cases h
        exact ⟨by simp, .inr ⟨⟨_, rfl, takeWhile_ne_nil hdigit, all_takeWhile⟩,
          startsWith_dropWhile _ cs⟩⟩
      · rename_i hdigit
        cases h
        exact ⟨rfl, .inl ⟨rfl, by simpa [startsFraction] using hdigit⟩⟩
    · rename_i hpoint
      cases h
      refine ⟨rfl, .inl ⟨rfl, ?_⟩⟩
      cases cs with
      | nil => rfl
      | cons c cs =>
        have hc : c ≠ '.' := fun hc => hpoint cs (by rw [hc])
        simp [startsFraction, hc]
  · rintro ⟨rfl, ⟨rfl, hrest⟩ | ⟨⟨digits, rfl, hne, hall⟩, hrest⟩⟩
    · rw [nil_append]
      unfold fraction
      split
      · rename_i cs
        rw [if_neg (by simpa [startsFraction] using hrest)]
      · rfl
    · obtain ⟨htake, hdrop⟩ := takeWhile_iff.2 ⟨rfl, hall, hrest⟩
      simp [fraction, startsWith_of_all hne hall, htake, hdrop]

theorem exponent_iff :
    exponent cs = (xs, rest) ↔ cs = xs ++ rest ∧
      ((xs = [] ∧ startsExponent rest = false) ∨
        (IsExponent xs ∧ startsWith Char.isDigit rest = false)) := by
  have hmark : ∀ e : Char, (e = 'e' ∨ e = 'E') ↔ isExponentMark e := by
    simp [isExponentMark]
  constructor
  · intro h
    unfold exponent at h
    split at h
    · cases h
      exact ⟨rfl, .inl ⟨rfl, rfl⟩⟩
    · rename_i e cs
      split at h
      · rename_i he
        rw [hmark] at he
        split at h
        · rename_i hdigit
          cases h
          exact ⟨by simp, .inr ⟨⟨e, [], _, rfl, he, .inl rfl, takeWhile_ne_nil hdigit,
            all_takeWhile⟩, startsWith_dropWhile _ cs⟩⟩
        · rename_i hdigit
          split at h
          · cases h
            exact ⟨rfl, .inl ⟨rfl, by simp [startsExponent]⟩⟩
          · rename_i sign cs
            split at h
            · rename_i hsign
              cases h
              refine ⟨by simp, .inr ⟨⟨e, [sign], _, rfl, he, ?_, takeWhile_ne_nil hsign.2,
                all_takeWhile⟩, startsWith_dropWhile _ cs⟩⟩
              rcases hsign.1 with rfl | rfl
              · exact .inr (.inl rfl)
              · exact .inr (.inr rfl)
            · rename_i hsign
              cases h
              refine ⟨rfl, .inl ⟨rfl, ?_⟩⟩
              have hsign' :
                  ((sign == '+' || sign == '-') && startsWith Char.isDigit cs) = false := by
                simpa using hsign
              have hdigit' : Char.isDigit sign = false := by simpa using hdigit
              simp [startsExponent, hdigit', hsign']
      · rename_i he
        rw [hmark] at he
        cases h
        exact ⟨rfl, .inl ⟨rfl, by simp [startsExponent, he]⟩⟩
  · rintro ⟨rfl, ⟨rfl, hrest⟩ | ⟨⟨e, sign, digits, rfl, he, hsign, hne, hall⟩, hrest⟩⟩
    · rw [nil_append]
      unfold exponent
      split
      · rfl
      · rename_i e cs
        split
        · rename_i he
          have hmark : isExponentMark e := (hmark e).1 he
          simp only [startsExponent, hmark, Bool.true_and, Bool.or_eq_false_iff] at hrest
          rw [if_neg (by simp [hrest.1])]
          split
          · rfl
          · rename_i sign cs
            rw [if_neg (by simpa using hrest.2)]
        · rfl
    · obtain ⟨htake, hdrop⟩ := takeWhile_iff.2 ⟨rfl, hall, hrest⟩
      have hdigit : startsWith Char.isDigit (digits ++ rest) := startsWith_of_all hne hall
      rw [← hmark] at he
      rcases hsign with rfl | rfl | rfl <;> simp [exponent, he, hdigit, htake, hdrop]

/-- Whether a number goes on with the text: with a digit, or with a fraction or an exponent where
it has none yet. -/
def extendsNumber (number rest : List Char) : Bool :=
  startsWith Char.isDigit rest ||
    (!number.any isExponentMark &&
      (startsExponent rest || (!number.contains '.' && startsFraction rest)))

/-- The digits, the fraction and the exponent of a number after its first character. -/
structure NumberParts (c : Char) (digits fraction exponent : List Char) : Prop where
  digits : digits.all Char.isDigit
  fraction : fraction = [] ∨ (c ≠ '.' ∧ IsFraction fraction)
  exponent : exponent = [] ∨ IsExponent exponent

theorem isExponentMark_of_isDigit (h : c.isDigit) : isExponentMark c = false := by
  simp only [isExponentMark, Bool.or_eq_false_iff, beq_eq_false_iff_ne]
  constructor <;> rintro rfl <;> cases h

theorem any_exponentMark_of_digits (h : xs.all Char.isDigit) : xs.any isExponentMark = false := by
  rw [any_eq_false]
  intro x hx
  rw [isExponentMark_of_isDigit (all_eq_true.1 h x hx)]
  exact Bool.false_ne_true

theorem not_mem_point_of_digits (h : xs.all Char.isDigit) : '.' ∉ xs :=
  fun hmem => nomatch all_eq_true.1 h '.' hmem

theorem IsFraction.any_exponentMark (h : IsFraction xs) : xs.any isExponentMark = false := by
  obtain ⟨digits, rfl, _, hall⟩ := h
  rw [any_cons, any_exponentMark_of_digits hall]
  rfl

theorem IsExponent.not_mem_point (h : IsExponent xs) : '.' ∉ xs := by
  obtain ⟨mark, sign, digits, rfl, hmark, hsign, _, hall⟩ := h
  have hdigits := not_mem_point_of_digits hall
  have hne : mark ≠ '.' := by
    rintro rfl
    cases hmark
  rcases hsign with rfl | rfl | rfl <;> simp [hdigits, Ne.symm hne]

theorem IsExponent.startsFraction_append (h : IsExponent xs) (rest : List Char) :
    startsFraction (xs ++ rest) = false := by
  have hpoint := h.not_mem_point
  obtain ⟨mark, sign, digits, rfl, _⟩ := h
  rw [mem_cons, not_or] at hpoint
  rw [cons_append, startsFraction, beq_eq_false_iff_ne.2 (Ne.symm hpoint.1), Bool.false_and]

section Parts

variable {digits fraction exponent : List Char}

theorem NumberParts.any_exponentMark (h : NumberParts c digits fraction exponent)
    (hc : isExponentMark c = false) :
    (c :: (digits ++ fraction ++ exponent)).any isExponentMark = !exponent.isEmpty := by
  have hfraction : fraction.any isExponentMark = false := by
    rcases h.fraction with rfl | ⟨_, hfraction⟩
    · rfl
    · exact hfraction.any_exponentMark
  have hexponent : exponent.any isExponentMark = !exponent.isEmpty := by
    rcases h.exponent with rfl | ⟨mark, sign, digits, rfl, hmark, _⟩
    · rfl
    · simp [hmark]
  rw [any_cons, any_append, any_append, hc, any_exponentMark_of_digits h.digits, hfraction,
    hexponent]
  rfl

theorem NumberParts.contains_point (h : NumberParts c digits fraction exponent) :
    (c :: (digits ++ fraction ++ exponent)).contains '.' = (c == '.' || !fraction.isEmpty) := by
  have hdigits := not_mem_point_of_digits h.digits
  have hexponent : '.' ∉ exponent := by
    rcases h.exponent with rfl | hexponent
    · exact not_mem_nil
    · exact hexponent.not_mem_point
  rcases h.fraction with rfl | ⟨_, fractionDigits, rfl, _⟩
  · simp [hdigits, hexponent, eq_comm]
    rfl
  · simp

/-- The parts of a number do not run into one another. -/
theorem NumberParts.startsWith_tail (h : NumberParts c digits fraction exponent)
    (hrest : startsWith Char.isDigit rest = false) :
    startsWith Char.isDigit (exponent ++ rest) = false ∧
      startsWith Char.isDigit (fraction ++ (exponent ++ rest)) = false := by
  have hexponent : startsWith Char.isDigit (exponent ++ rest) = false := by
    rcases h.exponent with rfl | ⟨mark, sign, digits, rfl, hmark, _⟩
    · exact hrest
    · rw [cons_append, startsWith_cons, ← Bool.not_eq_true]
      intro hdigit
      rw [isExponentMark_of_isDigit hdigit] at hmark
      cases hmark
  refine ⟨hexponent, ?_⟩
  rcases h.fraction with rfl | ⟨_, fractionDigits, rfl, _⟩
  · exact hexponent
  · rfl

end Parts

theorem number_iff (hc : c.isDigit ∨ c = '.') :
    number c cs = (c :: xs, rest) ↔
      cs = xs ++ rest ∧ extendsNumber (c :: xs) rest = false ∧
        ∃ digits fraction exponent, xs = digits ++ fraction ++ exponent ∧
          NumberParts c digits fraction exponent := by
  have hmark : isExponentMark c = false := by
    rcases hc with hc | rfl
    · exact isExponentMark_of_isDigit hc
    · rfl
  constructor
  · intro h
    have hcs := number_append c cs
    rw [h, cons_append, cons.injEq] at hcs
    simp only [number, cons_append, Prod.mk.injEq, cons.injEq, true_and] at h
    generalize hleft : cs.dropWhile Char.isDigit = left at h
    generalize hpart : (if c = '.' then ([], left) else Scan.fraction left) = part at h
    obtain ⟨rfl, rfl⟩ := h
    have hdigits := startsWith_dropWhile Char.isDigit cs
    rw [hleft] at hdigits
    -- what is left after the fraction, and what the fraction is
    have hfraction : (part.1 = [] ∧ part.2 = left ∧ (c = '.' ∨ startsFraction left = false)) ∨
        (c ≠ '.' ∧ IsFraction part.1 ∧ startsWith Char.isDigit part.2 = false) := by
      split at hpart
      · rename_i hpoint
        subst hpart
        exact .inl ⟨rfl, rfl, .inl hpoint⟩
      · rename_i hpoint
        obtain ⟨hsplit, ⟨hnil, hnone⟩ | hsome⟩ := fraction_iff.1 hpart
        · rw [hnil, nil_append] at hsplit
          exact .inl ⟨hnil, hsplit.symm, .inr (hsplit ▸ hnone)⟩
        · exact .inr ⟨hpoint, hsome⟩
    obtain ⟨hpower, hexponent⟩ := exponent_iff.1 (Prod.eta (Scan.exponent part.2)).symm
    have hparts : NumberParts c (cs.takeWhile Char.isDigit) part.1 (Scan.exponent part.2).1 :=
      ⟨all_takeWhile, hfraction.imp And.left fun h => ⟨h.1, h.2.1⟩,
        hexponent.imp And.left And.left⟩
    refine ⟨hcs.2.symm, ?_, _, _, _, rfl, hparts⟩
    rw [extendsNumber, hparts.any_exponentMark hmark, hparts.contains_point, Bool.not_not]
    rcases hexponent with ⟨hnil, hnone⟩ | ⟨hsome, hdigit⟩
    · rw [hnil, nil_append] at hpower
      rw [← hpower] at hnone ⊢
      rcases hfraction with ⟨hnil', hsame, hpoint | hno⟩ | ⟨hpoint, hsome, hdigit⟩
      · rw [hsame] at hnone ⊢
        simp [hdigits, hnone, hpoint]
      · rw [hsame] at hnone ⊢
        simp [hdigits, hnone, hno]
      · obtain ⟨digits, hdots, _⟩ := hsome
        simp [hdigit, hnone, hdots]
    · obtain ⟨mark, sign, digits, hchars, _⟩ := hsome
      simp [hdigit, hchars]
  · rintro ⟨rfl, hrest, digits, fraction, exponent, rfl, hparts⟩
    have hdigit : startsWith Char.isDigit rest = false := by
      rw [extendsNumber, Bool.or_eq_false_iff] at hrest
      exact hrest.1
    obtain ⟨hexponentDigit, hfractionDigit⟩ := hparts.startsWith_tail hdigit
    rw [extendsNumber, hdigit, Bool.false_or, hparts.any_exponentMark hmark, hparts.contains_point,
      Bool.not_not] at hrest
    obtain ⟨htake, hdrop⟩ := takeWhile_iff.2 ⟨rfl, hparts.digits, hfractionDigit⟩
    have hpart : (if c = '.' then ([], fraction ++ (exponent ++ rest))
        else Scan.fraction (fraction ++ (exponent ++ rest))) = (fraction, exponent ++ rest) := by
      rcases hparts.fraction with rfl | ⟨hpoint, hfraction⟩
      · split
        · rfl
        · rename_i hpoint
          refine fraction_iff.2 ⟨rfl, .inl ⟨rfl, ?_⟩⟩
          rcases hparts.exponent with rfl | hexponent
          · simp only [isEmpty_nil, Bool.true_and, Bool.or_eq_false_iff, Bool.not_true,
              Bool.or_false, beq_eq_false_iff_ne.2 hpoint, Bool.not_false] at hrest
            exact hrest.2
          · exact hexponent.startsFraction_append rest
      · rw [if_neg hpoint, fraction_iff]
        exact ⟨rfl, .inr ⟨hfraction, hexponentDigit⟩⟩
    have hpower : Scan.exponent (exponent ++ rest) = (exponent, rest) := by
      rw [exponent_iff]
      refine ⟨rfl, ?_⟩
      rcases hparts.exponent with rfl | hexponent
      · simp only [isEmpty_nil, Bool.true_and, Bool.or_eq_false_iff] at hrest
        exact .inl ⟨rfl, hrest.1⟩
      · exact .inr ⟨hexponent, hdigit⟩
    rw [append_assoc, append_assoc, number, htake, hdrop]
    simp only [hpart, hpower]
    simp

end TriggerDialect.Scan
