import TriggerDialect.Proofs.Wrapping.Rows

/-!
# Quoted text is written as it is

A line is written with blanks added before it or taken from its end, and neither happens where a
quote is open. So a text and what is written of it have the same quotes open at the ends of their
lines and the same characters inside them (`line_keeps_quoted`).
-/

namespace TriggerDialect.Layout

open List

variable {quote : Option Char} {margin : Nat} {xs line : List Char}

/-- The characters inside quotes, with the quote marks, where `quote` is open at the start. -/
def quoted (quote : Option Char) : List Char → List Char
  | [] => []
  | c :: rest =>
    let later := quoted (quoteAfter quote c) rest
    if quote.isSome || (quoteAfter quote c).isSome then c :: later else later

/-- The characters that are no blanks. -/
def solid (cs : List Char) : List Char := cs.filter fun c => !Text.isBlank c

theorem quoteThrough_append (quote : Option Char) (xs ys : List Char) :
    quoteThrough quote (xs ++ ys) = quoteThrough (quoteThrough quote xs) ys :=
  foldl_append

theorem quoted_append (quote : Option Char) (xs ys : List Char) :
    quoted quote (xs ++ ys) = quoted quote xs ++ quoted (quoteThrough quote xs) ys := by
  induction xs generalizing quote with
  | nil => rfl
  | cons x xs ih =>
    rw [cons_append, quoted, quoted, ih]
    split <;> rfl

/-- Blanks outside quotes are not quoted. -/
theorem quoted_blanks (h : xs.all Text.isBlank) : quoted none xs = [] := by
  induction xs with
  | nil => rfl
  | cons x xs ih =>
    rw [all_cons, Bool.and_eq_true] at h
    rw [quoted, isQuote_none.quoteAfter_blank h.1]
    exact ih h.2

theorem solid_append (xs ys : List Char) : solid (xs ++ ys) = solid xs ++ solid ys :=
  filter_append ..

theorem solid_blanks (h : xs.all Text.isBlank) : solid xs = [] := by
  rw [all_eq_true] at h
  exact filter_eq_nil_iff.2 fun c hc => by simp [h c hc]

/-! ### One line -/

/-- Only blanks are taken from the end of a line, and none inside a quote. -/
theorem lineText_append (quote : Option Char) (line : List Char) :
    ∃ dropped, lineText quote line ++ dropped = line ∧ dropped.all Text.isBlank ∧
      (quoteThrough quote line = none ∨ dropped = []) := by
  unfold lineText
  cases quoteThrough quote line with
  | none =>
    refine ⟨line.rtakeWhile Text.isBlank, rdropWhile_append_rtakeWhile .., ?_, .inl rfl⟩
    exact all_eq_true.2 fun c hc => mem_rtakeWhile_imp hc
  | some mark => exact ⟨[], append_nil line, rfl, .inr rfl⟩

/-- Only blanks are added before a line, and none inside a quote. -/
theorem lineMargin_blanks (margin : Nat) (quote : Option Char) (line : List Char) :
    (lineMargin margin quote line).all Text.isBlank ∧
      (quote = none ∨ lineMargin margin quote line = []) := by
  have hspaces : (spaces margin).all Text.isBlank :=
    all_replicate.trans (by simp [show Text.isBlank ' ' = true by decide])
  cases quote with
  | none =>
    refine ⟨?_, .inl rfl⟩
    unfold lineMargin
    split
    · rfl
    · exact hspaces
  | some mark => exact ⟨rfl, .inr rfl⟩

/-- What is written of a line, before the line feed. -/
def lineOut (margin : Nat) (quote : Option Char) (line : List Char) : List Char :=
  lineMargin margin quote line ++ lineText quote line

theorem quoteThrough_lineOut (h : IsQuote quote) (line : List Char) :
    quoteThrough quote (lineOut margin quote line) = quoteThrough quote line := by
  obtain ⟨dropped, happend, hdropped, -⟩ := lineText_append quote line
  have hline := quoteThrough_append quote (lineText quote line) dropped
  rw [happend, (h.quoteThrough _).quoteThrough_blanks hdropped] at hline
  rw [lineOut, quoteThrough_append, h.quoteThrough_blanks (lineMargin_blanks ..).1, hline]

theorem quoted_lineOut (h : IsQuote quote) (line : List Char) :
    quoted quote (lineOut margin quote line) = quoted quote line := by
  obtain ⟨dropped, happend, hdropped, hinside⟩ := lineText_append quote line
  obtain ⟨hblanks, hquote⟩ := lineMargin_blanks margin quote line
  have hmargin : quoted quote (lineMargin margin quote line) = [] := by
    rcases hquote with rfl | hnil
    · exact quoted_blanks hblanks
    · rw [hnil]
      rfl
  have hend : quoted (quoteThrough quote (lineText quote line)) dropped = [] := by
    rcases hinside with hnone | rfl
    · rw [← happend, quoteThrough_append, (h.quoteThrough _).quoteThrough_blanks hdropped] at hnone
      rw [hnone]
      exact quoted_blanks hdropped
    · rfl
  have hline := quoted_append quote (lineText quote line) dropped
  rw [happend, hend, append_nil] at hline
  rw [lineOut, quoted_append, hmargin, h.quoteThrough_blanks hblanks, hline, nil_append]

theorem solid_lineOut (quote : Option Char) (line : List Char) :
    solid (lineOut margin quote line) = solid line := by
  obtain ⟨dropped, happend, hdropped, -⟩ := lineText_append quote line
  have hline := solid_append (lineText quote line) dropped
  rw [happend, solid_blanks hdropped, append_nil] at hline
  rw [lineOut, solid_append, solid_blanks (lineMargin_blanks ..).1, hline, nil_append]

/-- One part of a text and what is written of it: both start and end inside a quote or outside. If
they start outside, nothing is written or the part, up to some point, behind the margin. -/
structure WrittenAs (margin : Nat) (part out : LinePart) : Prop where
  starts : out.startsQuoted = part.startsQuoted
  ends : out.endsQuoted = part.endsQuoted
  chars : out.startsQuoted = false →
    out.chars = [] ∨ ∃ kept, kept <+: part.chars ∧ out.chars = spaces margin ++ kept

theorem writtenAs_lineOut (h : IsQuote quote) (line : List Char) :
    WrittenAs margin ⟨line, quote.isSome, (quoteThrough quote line).isSome⟩
      ⟨lineOut margin quote line, quote.isSome,
        (quoteThrough quote (lineOut margin quote line)).isSome⟩ := by
  refine ⟨rfl, by rw [quoteThrough_lineOut h], fun hstarts => ?_⟩
  obtain ⟨dropped, happend, -⟩ := lineText_append quote line
  cases hnil : (lineText quote line).isEmpty with
  | true =>
    left
    simp [lineOut, lineMargin, isEmpty_iff.1 hnil]
  | false =>
    right
    refine ⟨lineText quote line, ⟨dropped, happend⟩, ?_⟩
    have houtside : quote.isSome = false := hstarts
    simp [lineOut, lineMargin, houtside, hnil]

/-! ### All lines -/

theorem lineParts_last (h : IsQuote quote) (hline : '\n' ∉ line) :
    lineParts quote line = [⟨line, quote.isSome, (quoteThrough quote line).isSome⟩] := by
  induction line generalizing quote with
  | nil => rfl
  | cons c line ih =>
    rw [mem_cons, not_or] at hline
    rw [lineParts, if_neg (Ne.symm hline.1), ih (h.quoteAfter c) hline.2]
    rfl

/-- A text is one line, or a line before more text. -/
theorem lines_induction {motive : (quote : Option Char) → IsQuote quote → List Char → Prop}
    (last : ∀ quote h line, '\n' ∉ line → motive quote h line)
    (more : ∀ quote h line rest, '\n' ∉ line →
      motive (quoteThrough quote line) (IsQuote.quoteThrough h line) rest →
      motive quote h (line ++ '\n' :: rest))
    (quote : Option Char) (h : IsQuote quote) (cs : List Char) : motive quote h cs := by
  by_cases hmem : '\n' ∈ cs
  · obtain ⟨line, rest, hcs, hline⟩ := eq_append_cons_of_mem hmem
    have hlater := lines_induction last more _ (h.quoteThrough line) rest
    rw [hcs]
    exact more quote h line rest hline hlater
  · exact last quote h cs hmem
termination_by cs.length
decreasing_by simp [hcs]; omega

/-- What is written of a text that starts with `quote` open. -/
def textOut (margin : Nat) (quote : Option Char) (cs : List Char) : List Char :=
  (lineParts quote cs).flatMap (partChars margin)

theorem not_mem_lineOut (hline : '\n' ∉ line) : '\n' ∉ lineOut margin quote line := by
  have hchars := partChars_line margin quote line
  rw [partChars_eq, ← append_assoc] at hchars
  rw [lineOut, ← append_cancel_right hchars]
  exact not_mem_partLine hline

section

variable (h : IsQuote quote) (cs : List Char)

include h

theorem textOut_last (hline : '\n' ∉ line) :
    textOut margin quote line = lineOut margin quote line ++ ['\n'] := by
  rw [textOut, lineParts_last h hline, flatMap_singleton, partChars_line, lineOut, append_assoc]

theorem textOut_more (hline : '\n' ∉ line) (rest : List Char) :
    textOut margin quote (line ++ '\n' :: rest) =
      lineOut margin quote line ++ '\n' :: textOut margin (quoteThrough quote line) rest := by
  rw [textOut, lineParts_append h hline, flatMap_cons, partChars_line, lineOut]
  simp [textOut]

theorem quoted_newline (rest : List Char) :
    quoted quote ('\n' :: rest) = quoted quote ['\n'] ++ quoted quote rest := by
  have hquote : quoteThrough quote ['\n'] = quote := h.quoteThrough_blanks (by decide)
  rw [← singleton_append, quoted_append, hquote]

theorem quoted_textOut : quoted quote (textOut margin quote cs) = quoted quote (cs ++ ['\n']) := by
  induction quote, h, cs using lines_induction with
  | last quote h line hline =>
    rw [textOut_last h hline, quoted_append, quoted_append, quoted_lineOut h,
      quoteThrough_lineOut h]
  | more quote h line rest hline ih =>
    have hnext := h.quoteThrough line
    rw [textOut_more h hline, append_assoc, cons_append, quoted_append quote line, quoted_append,
      quoted_lineOut h, quoteThrough_lineOut h, quoted_newline hnext, ih,
      quoted_newline hnext (rest ++ _)]

theorem solid_textOut : solid (textOut margin quote cs) = solid cs := by
  have hfeed : solid ['\n'] = [] := by decide
  induction quote, h, cs using lines_induction with
  | last quote h line hline =>
    rw [textOut_last h hline, solid_append, solid_lineOut, hfeed, append_nil]
  | more quote h line rest hline ih =>
    rw [textOut_more h hline, ← singleton_append, solid_append, solid_append, ih, solid_lineOut,
      ← solid_append, ← solid_append]
    rfl

theorem lineParts_textOut :
    ∃ parts last, lineParts quote (textOut margin quote cs) = parts ++ [last] ∧ last.chars = [] ∧
      List.Forall₂ (WrittenAs margin) (lineParts quote cs) parts := by
  induction quote, h, cs using lines_induction with
  | last quote h line hline =>
    rw [textOut_last h hline, lineParts_append h (not_mem_lineOut hline), lineParts_last h hline]
    exact ⟨[_], _, rfl, rfl, .cons (writtenAs_lineOut h line) .nil⟩
  | more quote h line rest hline ih =>
    obtain ⟨parts, last, hparts, hlast, hall⟩ := ih
    rw [textOut_more h hline, lineParts_append h (not_mem_lineOut hline), lineParts_append h hline,
      quoteThrough_lineOut h, hparts]
    refine ⟨_ :: parts, last, rfl, hlast, .cons ?_ hall⟩
    have hfirst : WrittenAs margin _ _ := writtenAs_lineOut h line
    rwa [quoteThrough_lineOut h] at hfirst

end

/-- The writer of lines never touches quoted text. What it appends for a text has the same
characters inside quotes as the text up to the line feed at its end, and the same characters other
than blanks. Its lines are those of the text: one that starts outside quotes is empty or starts with
as many spaces as the product of level and width, taken in words of 64 bits, and nothing else is
added to it. -/
theorem line_keeps_quoted (text : String) (width level : Nat) :
    quoted none ((Layout.line text).chars width level) = quoted none (text.toList ++ ['\n']) ∧
    solid ((Layout.line text).chars width level) = solid text.toList ∧
    ∃ parts last, lineParts none ((Layout.line text).chars width level) = parts ++ [last] ∧
      last.chars = [] ∧
      List.Forall₂ (WrittenAs (level * width % wordBound)) (lineParts none text.toList) parts :=
  ⟨quoted_textOut isQuote_none _, solid_textOut isQuote_none _, lineParts_textOut isQuote_none _⟩

end TriggerDialect.Layout
