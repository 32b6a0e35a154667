import Mathlib.Data.List.DropRight
import TriggerDialect.Layout
import TriggerDialect.Proofs.Lexing.Runs

/-!
# What a line without indentation loses

A line at the margin is written as it is, but for the blanks before its line feeds and at its end.
They are kept where a quote is open, and quotes are counted from the start of the text, also in what
is no literal. `trimmed` says this character by character, and `lineChars_zero` that nothing else is
changed.
-/

namespace TriggerDialect.Layout

open List Text

variable {quote : Option Char} {c d : Char} {cs xs ys rest line : List Char}

/-- A blank inside a line. -/
def isLineBlank (c : Char) : Bool := isBlank c && c != '\n'

/-- Whether blanks are all that is left of the first line. -/
def endsLine (cs : List Char) : Bool := !Scan.startsWith (· != '\n') (cs.dropWhile isLineBlank)

/-- Whether a character before the text `cs` is lost: a blank at the end of a line, while no quote
is open. -/
def drops (quote : Option Char) (c : Char) (cs : List Char) : Bool :=
  quote.isNone && isLineBlank c && endsLine cs

/-- What is left of the characters where the text `rest` follows them. -/
def trimmed (quote : Option Char) : List Char → List Char → List Char
  | [], _ => []
  | c :: cs, rest =>
    let left := trimmed (quoteAfter quote c) cs rest
    if drops quote c (cs ++ rest) then left else c :: left

/-- The open quote after a text. -/
def quoteThrough (quote : Option Char) (cs : List Char) : Option Char := cs.foldl quoteAfter quote

/-- An open quote was opened by a quote mark. -/
def IsQuote (quote : Option Char) : Prop := ∀ mark ∈ quote, mark = '\'' ∨ mark = '"'

/-! ### Open quotes -/

theorem isQuote_none : IsQuote none := by simp [IsQuote]

theorem IsQuote.quoteAfter (h : IsQuote quote) (c : Char) : IsQuote (quoteAfter quote c) := by
  intro mark hmark
  unfold Layout.quoteAfter at hmark
  split at hmark
  · split at hmark
    · cases hmark
      assumption
    · cases hmark
  · split at hmark
    · cases hmark
    · exact h mark hmark

theorem IsQuote.quoteThrough (h : IsQuote quote) (cs : List Char) :
    IsQuote (quoteThrough quote cs) := by
  induction cs generalizing quote with
  | nil => exact h
  | cons c cs ih => exact ih (h.quoteAfter c)

theorem IsQuote.quoteAfter_eq (h : IsQuote quote) (hquote : c ≠ '\'') (hdouble : c ≠ '"') :
    Layout.quoteAfter quote c = quote := by
  cases quote with
  | none => simp [Layout.quoteAfter, hquote, hdouble]
  | some mark =>
    rcases h mark rfl with rfl | rfl
    · simp [Layout.quoteAfter, hquote]
    · simp [Layout.quoteAfter, hdouble]

theorem ne_quote_of_isBlank (h : isBlank c) : c ≠ '\'' ∧ c ≠ '"' := by
  constructor
  · rintro rfl
    revert h
    decide
  · rintro rfl
    revert h
    decide

/-- Blanks open and close no quote. -/
theorem IsQuote.quoteAfter_blank (h : IsQuote quote) (hblank : isBlank c) :
    Layout.quoteAfter quote c = quote :=
  h.quoteAfter_eq (ne_quote_of_isBlank hblank).1 (ne_quote_of_isBlank hblank).2

theorem IsQuote.quoteThrough_blanks (h : IsQuote quote) (hblank : xs.all isBlank) :
    Layout.quoteThrough quote xs = quote := by
  induction xs with
  | nil => rfl
  | cons x xs ih =>
    rw [all_cons, Bool.and_eq_true] at hblank
    rw [Layout.quoteThrough, foldl_cons, h.quoteAfter_blank hblank.1]
    exact ih hblank.2

/-! ### Ends of lines -/

theorem isLineBlank_iff : isLineBlank c ↔ isBlank c ∧ c ≠ '\n' := by
  simp [isLineBlank]

theorem drops_iff : drops quote c cs ↔ quote = none ∧ isLineBlank c ∧ endsLine cs := by
  simp [drops, and_assoc]

@[simp] theorem endsLine_nil : endsLine [] := rfl

theorem endsLine_blank (h : isLineBlank c) : endsLine (c :: cs) = endsLine cs := by
  simp [endsLine, h]

theorem endsLine_cons (h : isLineBlank c = false) : endsLine (c :: cs) = (c == '\n') := by
  simp [endsLine, h, bne]

/-- The end of a line can be told from the line alone. -/
theorem endsLine_iff : endsLine cs ↔ (cs.takeWhile (· != '\n')).all isBlank := by
  induction cs with
  | nil => simp
  | cons c cs ih =>
    by_cases hline : c = '\n'
    · subst hline
      simp [endsLine_cons (c := '\n') rfl]
    · cases hblank : isBlank c with
      | true =>
        rw [endsLine_blank (isLineBlank_iff.2 ⟨hblank, hline⟩), ih]
        simp [hline, hblank]
      | false =>
        rw [endsLine_cons (by simp [isLineBlank, hblank])]
        simp [hline, hblank]

theorem endsLine_append_newline (cs : List Char) : endsLine (cs ++ ['\n']) = endsLine cs := by
  rw [Bool.eq_iff_iff, endsLine_iff, endsLine_iff]
  induction cs with
  | nil => simp
  | cons c cs ih => by_cases hline : c = '\n' <;> simp_all

/-- What ends a line with more after it ends it without. -/
theorem endsLine_of_append (h : endsLine (xs ++ ys)) : endsLine xs := by
  induction xs with
  | nil => rfl
  | cons x xs ih =>
    cases hblank : isLineBlank x with
    | true =>
      rw [cons_append, endsLine_blank hblank] at h
      rw [endsLine_blank hblank]
      exact ih h
    | false =>
      rw [cons_append, endsLine_cons hblank] at h
      rw [endsLine_cons hblank]
      exact h

/-! ### What is left of a text -/

theorem trimmed_cons (quote : Option Char) (c : Char) (cs rest : List Char) :
    trimmed quote (c :: cs) rest =
      if drops quote c (cs ++ rest) then trimmed (quoteAfter quote c) cs rest
      else c :: trimmed (quoteAfter quote c) cs rest := rfl

theorem trimmed_kept (h : drops quote c (cs ++ rest) = false) :
    trimmed quote (c :: cs) rest = c :: trimmed (quoteAfter quote c) cs rest := by
  rw [trimmed_cons, h]
  rfl

theorem trimmed_dropped (h : drops quote c (cs ++ rest)) :
    trimmed quote (c :: cs) rest = trimmed none cs rest := by
  obtain ⟨rfl, hblank, _⟩ := drops_iff.1 h
  rw [trimmed_cons, h, if_pos rfl, isQuote_none.quoteAfter_blank (isLineBlank_iff.1 hblank).1]

theorem drops_of_not_blank (h : isLineBlank c = false) (quote : Option Char) (cs : List Char) :
    drops quote c cs = false := by
  simp [drops, h]

theorem trimmed_append (quote : Option Char) (xs ys rest : List Char) :
    trimmed quote (xs ++ ys) rest =
      trimmed quote xs (ys ++ rest) ++ trimmed (quoteThrough quote xs) ys rest := by
  induction xs generalizing quote with
  | nil => rfl
  | cons x xs ih =>
    rw [cons_append, trimmed_cons, trimmed_cons, ih, append_assoc]
    split <;> rfl

theorem trimmed_newline (quote : Option Char) (xs : List Char) :
    trimmed quote xs ['\n'] = trimmed quote xs [] := by
  induction xs generalizing quote with
  | nil => rfl
  | cons x xs ih => rw [trimmed_cons, trimmed_cons, ih, drops, drops, append_nil,
      endsLine_append_newline]

theorem trimmed_all {p : Char → Bool} (h : xs.all p) (quote : Option Char)
    (rest : List Char) : (trimmed quote xs rest).all p := by
  induction xs generalizing quote with
  | nil => rfl
  | cons x xs ih =>
    rw [all_cons, Bool.and_eq_true] at h
    rw [trimmed_cons]
    split
    · exact ih h.2 _
    · rw [all_cons, h.1, ih h.2]
      rfl

/-- Where blanks are lost, the next character is a line feed. -/
theorem head?_trimmed_of_endsLine (h : endsLine (xs ++ rest))
    (hd : (trimmed none xs rest).head? = some d) : d = '\n' := by
  induction xs with
  | nil => cases hd
  | cons x xs ih =>
    cases hblank : isLineBlank x with
    | true =>
      rw [cons_append, endsLine_blank hblank] at h
      rw [trimmed_dropped (drops_iff.2 ⟨rfl, hblank, h⟩)] at hd
      exact ih h hd
    | false =>
      rw [cons_append, endsLine_cons hblank, beq_iff_eq] at h
      rw [trimmed_kept (drops_of_not_blank hblank none _)] at hd
      cases hd
      exact h

/-- What is left starts with a line feed or with the first character. -/
theorem head?_trimmed (h : (trimmed quote xs rest).head? = some d) :
    d = '\n' ∨ xs.head? = some d := by
  cases xs with
  | nil => cases h
  | cons x xs =>
    cases hdrops : drops quote x (xs ++ rest) with
    | true =>
      rw [trimmed_dropped hdrops] at h
      exact .inl (head?_trimmed_of_endsLine (drops_iff.1 hdrops).2.2 h)
    | false =>
      rw [trimmed_kept hdrops] at h
      exact .inr h

/-- Characters that stand at the start of what is left have lost nothing. -/
theorem trimmed_eq_of_isPrefix (h : xs <+: trimmed quote (xs ++ rest) []) :
    trimmed quote xs rest = xs := by
  induction xs generalizing quote with
  | nil => rfl
  | cons x xs ih =>
    cases hdrops : drops quote x (xs ++ rest) with
    | true =>
      obtain ⟨_, hblank, hends⟩ := drops_iff.1 hdrops
      rw [cons_append, trimmed_dropped (by rwa [append_nil])] at h
      obtain ⟨more, hmore⟩ := h
      have hends' : endsLine (xs ++ rest ++ []) := by rwa [append_nil]
      have hnext := head?_trimmed_of_endsLine hends' (by rw [← hmore]; rfl)
      exact absurd hnext (isLineBlank_iff.1 hblank).2
    | false =>
      rw [cons_append, trimmed_kept (by rwa [append_nil]), cons_prefix_cons] at h
      rw [trimmed_kept hdrops, ih h.2]

/-! ### Lines at the margin -/

/-- The first part of a text is its first line. -/
theorem lineParts_cons (h : IsQuote quote) (cs : List Char) :
    ∃ parts, lineParts quote cs =
      ⟨cs.takeWhile (· != '\n'), quote.isSome,
        (quoteThrough quote (cs.takeWhile (· != '\n'))).isSome⟩ :: parts := by
  induction cs generalizing quote with
  | nil => exact ⟨[], rfl⟩
  | cons c cs ih =>
    by_cases hline : c = '\n'
    · exact ⟨lineParts quote cs, by simp [lineParts, hline, quoteThrough]⟩
    · obtain ⟨parts, hparts⟩ := ih (h.quoteAfter c)
      exact ⟨parts, by simp [lineParts, hline, hparts, quoteThrough]⟩

theorem trimEndChars_eq (cs : List Char) : trimEndChars cs = cs.rdropWhile isBlank := rfl

theorem trimEndChars_eq_nil : trimEndChars cs = [] ↔ cs.all isBlank := by
  rw [trimEndChars_eq, rdropWhile_eq_nil_iff, all_eq_true]

theorem trimEndChars_eq_nil_of_all (h : (trimEndChars cs).all isBlank) : trimEndChars cs = [] := by
  rw [← trimEndChars_eq_nil, trimEndChars_eq, trimEndChars_eq, rdropWhile_idempotent] at h
  exact h

theorem trimEndChars_cons (h : (c :: cs).all isBlank = false) :
    trimEndChars (c :: cs) = c :: trimEndChars cs := by
  rw [trimEndChars, trimEndChars, reverse_cons, dropWhile_append]
  split
  · rename_i hempty
    rw [List.isEmpty_iff] at hempty
    have hall : cs.all isBlank := by
      rw [← all_reverse, all_eq_true]
      exact dropWhile_eq_nil_iff.1 hempty
    rw [all_cons, hall, Bool.and_true] at h
    simp [h, hempty]
  · simp

theorem all_isBlank_of_trimChars (h : trimChars cs = []) : cs.all isBlank := by
  rw [trimChars, trimEndChars_eq_nil, trimStartChars, all_eq_true, ← dropWhile_eq_nil_iff,
    dropWhile_idempotent, dropWhile_eq_nil_iff] at h
  exact all_eq_true.2 h

/-- What is written of a line with `quote` open before it. -/
def lineText (quote : Option Char) (line : List Char) : List Char :=
  if (quoteThrough quote line).isSome then line else trimEndChars line

/-- A blank line outside quotes loses all its blanks. -/
theorem lineText_eq_nil (h : (trimChars (lineText none line)).isEmpty) :
    lineText none line = [] := by
  have hall := all_isBlank_of_trimChars (isEmpty_iff.1 h)
  unfold lineText at hall ⊢
  split
  · rename_i hends
    rw [if_pos hends] at hall
    rw [isQuote_none.quoteThrough_blanks hall] at hends
    cases hends
  · rename_i hends
    rw [if_neg hends] at hall
    exact trimEndChars_eq_nil_of_all hall

/-- The spaces before a line: none where a quote is open or nothing is left of the line. -/
def lineMargin (margin : Nat) (quote : Option Char) (line : List Char) : List Char :=
  if quote.isSome || (lineText quote line).isEmpty then [] else spaces margin

/-- A line is written without its trailing blanks, unless a quote is open after it, and indented,
unless one is open before it. -/
theorem partChars_line (margin : Nat) (quote : Option Char) (line : List Char) :
    partChars margin ⟨line, quote.isSome, (quoteThrough quote line).isSome⟩ =
      lineMargin margin quote line ++ (lineText quote line ++ ['\n']) := by
  change (if quote.isSome then lineText quote line ++ ['\n']
    else if (trimChars (lineText quote line)).isEmpty then ['\n']
    else spaces margin ++ lineText quote line ++ ['\n']) = _
  cases quote with
  | some mark => rfl
  | none =>
    cases hempty : (trimChars (lineText none line)).isEmpty with
    | true =>
      rw [lineMargin, lineText_eq_nil hempty]
      rfl
    | false =>
      have hsolid : (lineText none line).isEmpty = false := by
        rw [Bool.eq_false_iff]
        intro hnil
        rw [isEmpty_iff.1 hnil] at hempty
        cases hempty
      simp [lineMargin, hsolid]

theorem partChars_zero (quote : Option Char) (line : List Char) :
    partChars 0 ⟨line, quote.isSome, (quoteThrough quote line).isSome⟩ =
      lineText quote line ++ ['\n'] := by
  have hnone : lineMargin 0 quote line = [] := by
    unfold lineMargin
    split <;> rfl
  rw [partChars_line, hnone, nil_append]

/-- One character more at the start of a line. -/
theorem lineText_cons (h : IsQuote quote) (hline : c ≠ '\n') (cs : List Char) :
    lineText quote (c :: cs.takeWhile (· != '\n')) =
      if drops quote c cs then lineText (quoteAfter quote c) (cs.takeWhile (· != '\n'))
      else c :: lineText (quoteAfter quote c) (cs.takeWhile (· != '\n')) := by
  have hthrough : quoteThrough quote (c :: cs.takeWhile (· != '\n')) =
      quoteThrough (quoteAfter quote c) (cs.takeWhile (· != '\n')) := rfl
  cases hall : (c :: cs.takeWhile (· != '\n')).all isBlank with
  | true =>
    have hstays := h.quoteThrough_blanks hall
    rw [all_cons, Bool.and_eq_true] at hall
    rw [lineText, lineText, hstays, h.quoteAfter_blank hall.1, h.quoteThrough_blanks hall.2]
    have hblank : isLineBlank c := isLineBlank_iff.2 ⟨hall.1, hline⟩
    cases quote with
    | none =>
      rw [if_pos (drops_iff.2 ⟨rfl, hblank, endsLine_iff.2 hall.2⟩)]
      have hwhole : (c :: cs.takeWhile (· != '\n')).all isBlank := by
        rw [all_cons, hall.1, hall.2]
        rfl
      simp [trimEndChars_eq_nil.2 hwhole, trimEndChars_eq_nil.2 hall.2]
    | some mark => rfl
  | false =>
    have hkept : ¬drops quote c cs := by
      intro hdrops
      obtain ⟨_, hblank, hends⟩ := drops_iff.1 hdrops
      rw [all_cons, (isLineBlank_iff.1 hblank).1, endsLine_iff.1 hends] at hall
      cases hall
    rw [if_neg hkept, lineText, lineText, hthrough, trimEndChars_cons hall]
    split <;> rfl

/-- The parts of a text at the margin are what is left of it, with a line feed at the end. -/
theorem flatMap_lineParts (h : IsQuote quote) (cs : List Char) :
    (lineParts quote cs).flatMap (partChars 0) = trimmed quote cs [] ++ ['\n'] := by
  induction cs generalizing quote with
  | nil => cases quote <;> rfl
  | cons c cs ih =>
    by_cases hline : c = '\n'
    · subst hline
      have hparts : lineParts quote ('\n' :: cs) =
          ⟨[], quote.isSome, quote.isSome⟩ :: lineParts quote cs := rfl
      have hfirst : partChars 0 ⟨[], quote.isSome, quote.isSome⟩ = ['\n'] := by
        cases quote <;> rfl
      rw [hparts, flatMap_cons, hfirst, ih h, trimmed_kept (drops_of_not_blank rfl quote _),
        h.quoteAfter_eq (by decide) (by decide)]
      rfl
    · have hlater := ih (h.quoteAfter c)
      obtain ⟨parts, hparts⟩ := lineParts_cons (h.quoteAfter c) cs
      have hmore : lineParts quote (c :: cs) = ⟨c :: cs.takeWhile (· != '\n'), quote.isSome,
          (quoteThrough quote (c :: cs.takeWhile (· != '\n'))).isSome⟩ :: parts := by
        simp [lineParts, hline, hparts, quoteThrough]
      rw [hparts, flatMap_cons, partChars_zero] at hlater
      rw [hmore, flatMap_cons, partChars_zero, lineText_cons h hline, trimmed_cons, append_nil]
      split
      · exact hlater
      · exact congrArg (c :: ·) hlater

/-- A line at the margin loses blanks at the ends of lines and nothing else. -/
theorem lineChars_zero (text : List Char) : lineChars 0 text = trimmed none text [] ++ ['\n'] :=
  flatMap_lineParts isQuote_none text

end TriggerDialect.Layout
