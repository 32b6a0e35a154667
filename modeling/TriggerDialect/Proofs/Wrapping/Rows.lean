import TriggerDialect.Proofs.Mapping.Tables
import TriggerDialect.Proofs.Wrapping.Function

/-!
# The lines of the output and the steps that write them

`Layout.rows` gives the lines of a list of steps, each with its step. In a trigger function the text
of the block is cut into lines once more, and here quotes are counted through all of it. Still, this
finds the same lines: each is kept or loses its trailing blanks (`trimmed_joined`). So the line of a
comment begins with its two dashes wherever it stands (`outputRows_comment`).
-/

namespace TriggerDialect

open List Text

/-! ### Lines of steps -/

namespace Layout

variable {part : LinePart}

/-- A line of the output and the step that wrote it. -/
structure Row where
  step : Layout
  chars : List Char

/-- What is written of a part of a line, before the line feed. -/
def partLine (margin : Nat) (part : LinePart) : List Char :=
  let chars := if part.endsQuoted then part.chars else trimEndChars part.chars
  if part.startsQuoted then chars
  else if (trimChars chars).isEmpty then []
  else spaces margin ++ chars

/-- A line of a comment. -/
def commentLine (margin : Nat) (line : List Char) : List Char :=
  spaces margin ++ "-- ".toList ++ trimChars line

/-- The lines of a step at a level of indentation. -/
def lines (width level : Nat) : Layout → List (List Char)
  | .line text => (lineParts none text.toList).map (partLine (indentation width level))
  | .comment text => (Text.lines text.toList).map (commentLine (indentation width level))
  | .blank => [[]]
  | .indent => []
  | .dedent => []

/-- The lines of the steps, from a level of indentation on. -/
def rows (width : Nat) : Nat → List Layout → List Row
  | _, [] => []
  | level, step :: rest =>
    (step.lines width level).map (Row.mk step) ++ rows width (step.levelAfter level) rest

/-- Lines, each with a line feed after it. -/
def joined (lines : List (List Char)) : List Char := lines.flatMap fun line => line ++ ['\n']

variable {width level margin : Nat} {step : Layout} {steps : List Layout} {row : Row}
  {cs line : List Char} {quote : Option Char}

@[simp] theorem joined_append (xs ys : List (List Char)) :
    joined (xs ++ ys) = joined xs ++ joined ys := flatMap_append

theorem joined_map {α : Type} (f : α → List Char) (xs : List α) :
    joined (xs.map f) = xs.flatMap fun x => f x ++ ['\n'] := flatMap_map f _ xs

theorem partChars_eq (margin : Nat) (part : LinePart) :
    partChars margin part = partLine margin part ++ ['\n'] := by
  simp [partChars, partLine, apply_ite (· ++ ['\n'])]

theorem chars_eq_joined (width level : Nat) (step : Layout) :
    step.chars width level = joined (step.lines width level) := by
  cases step with
  | line text =>
    rw [chars, lines, joined_map, lineChars]
    exact flatMap_congr fun part _ => partChars_eq _ part
  | comment text =>
    rw [chars, lines, joined_map]
    rfl
  | blank | indent | dedent => rfl

theorem chars_map_mk (step : Layout) (lines : List (List Char)) :
    (lines.map (Row.mk step)).map Row.chars = lines :=
  map_map.trans (map_id lines)

/-- The text of steps is made of their lines. -/
theorem flatten_texts (width level : Nat) (steps : List Layout) :
    (texts width level steps).flatten = joined ((rows width level steps).map Row.chars) := by
  induction steps generalizing level with
  | nil => rfl
  | cons step steps ih =>
    rw [texts, rows, flatten_cons, ih, chars_eq_joined, map_append, joined_append, chars_map_mk]

theorem toList_write (width : Nat) (steps : List Layout) :
    (write width steps).toList = joined ((rows width 0 steps).map Row.chars) := by
  rw [write, String.toList_ofList, flatten_texts]

theorem rows_append_lines {before : List Layout} (h : ∀ step ∈ before, ∃ text, step = .line text)
    (after : List Layout) :
    rows width level (before ++ after) = rows width level before ++ rows width level after := by
  induction before with
  | nil => rfl
  | cons step before ih =>
    rw [forall_mem_cons] at h
    obtain ⟨⟨text, rfl⟩, h⟩ := h
    have hlevel : levelAfter level (.line text) = level := rfl
    rw [cons_append, rows, rows, hlevel, ih h, append_assoc]

/-! ### No line holds a line feed -/

theorem not_mem_spaces (n : Nat) : '\n' ∉ spaces n := by
  intro h
  exact absurd (eq_of_mem_replicate h) (by decide)

theorem not_mem_splitNewlines (h : line ∈ splitNewlines cs) : '\n' ∉ line := by
  induction cs generalizing line with
  | nil =>
    obtain rfl := mem_singleton.1 h
    exact not_mem_nil
  | cons c cs ih =>
    rw [splitNewlines] at h
    split at h
    · rcases mem_cons.1 h with rfl | h
      · exact not_mem_nil
      · exact ih h
    · rename_i hline
      split at h
      · obtain rfl := mem_singleton.1 h
        simpa using Ne.symm hline
      · rename_i first later hlater
        rcases mem_cons.1 h with rfl | h
        · have hfirst := ih (hlater ▸ mem_cons_self)
          simpa [hfirst] using Ne.symm hline
        · exact ih (hlater ▸ mem_cons_of_mem first h)

theorem chars_lineParts (quote : Option Char) (cs : List Char) :
    (lineParts quote cs).map LinePart.chars = splitNewlines cs := by
  induction cs generalizing quote with
  | nil => rfl
  | cons c cs ih =>
    rw [lineParts, splitNewlines]
    split
    · rw [map_cons, ih]
    · rw [← ih (quoteAfter quote c)]
      cases lineParts (quoteAfter quote c) cs with
      | nil => rfl
      | cons part parts => rfl

theorem not_mem_lineParts (h : part ∈ lineParts quote cs) : '\n' ∉ part.chars :=
  not_mem_splitNewlines (chars_lineParts quote cs ▸ mem_map_of_mem h)

theorem not_mem_lines_text (h : line ∈ Text.lines cs) : '\n' ∉ line := by
  simp only [Text.lines] at h
  split at h
  · exact not_mem_splitNewlines ((dropLast_subset _) h)
  · exact not_mem_splitNewlines h

theorem not_mem_trimEndChars (h : '\n' ∉ cs) : '\n' ∉ trimEndChars cs :=
  fun hmem => h (( rdropWhile_prefix isBlank cs).subset hmem)

theorem not_mem_partLine (h : '\n' ∉ part.chars) : '\n' ∉ partLine margin part := by
  have htrim := not_mem_trimEndChars h
  simp only [partLine]
  split <;> split
  · exact h
  · exact htrim
  · split
    · exact not_mem_nil
    · exact fun hmem => (mem_append.1 hmem).elim (not_mem_spaces margin) h
  · split
    · exact not_mem_nil
    · exact fun hmem => (mem_append.1 hmem).elim (not_mem_spaces margin) htrim

theorem not_mem_commentLine (h : '\n' ∉ line) : '\n' ∉ commentLine margin line := by
  have hdashes : '\n' ∉ "-- ".toList := by decide
  simp only [commentLine, mem_append, not_or]
  exact ⟨⟨not_mem_spaces margin, hdashes⟩,
    fun hmem => h ((trimChars_sublist line).subset hmem)⟩

theorem not_mem_lines (h : line ∈ step.lines width level) : '\n' ∉ line := by
  cases step with
  | line text =>
    obtain ⟨part, hpart, rfl⟩ := mem_map.1 h
    exact not_mem_partLine (not_mem_lineParts hpart)
  | comment text =>
    obtain ⟨line, hline, rfl⟩ := mem_map.1 h
    exact not_mem_commentLine (not_mem_lines_text hline)
  | blank =>
    obtain rfl := mem_singleton.1 h
    exact not_mem_nil
  | indent | dedent => cases h

theorem exists_of_mem_rows (h : row ∈ rows width level steps) :
    row.step ∈ steps ∧ ∃ level', row.chars ∈ row.step.lines width level' := by
  induction steps generalizing level with
  | nil => cases h
  | cons step steps ih =>
    rcases mem_append.1 h with h | h
    · obtain ⟨line, hline, rfl⟩ := mem_map.1 h
      exact ⟨mem_cons_self, level, hline⟩
    · obtain ⟨hstep, hline⟩ := ih h
      exact ⟨mem_cons_of_mem step hstep, hline⟩

theorem not_mem_rows (h : row ∈ rows width level steps) : '\n' ∉ row.chars := by
  obtain ⟨_, _, hline⟩ := exists_of_mem_rows h
  exact not_mem_lines hline

/-! ### Cut once more -/

/-- The lines of a text after it was written as a line at the margin, where `quote` is open at its
start. -/
def reread : Option Char → List Row → List Row
  | _, [] => []
  | quote, row :: rows =>
    ⟨row.step, lineText quote row.chars⟩ :: reread (quoteThrough quote row.chars) rows

theorem lineParts_append (h : IsQuote quote) (hline : '\n' ∉ line) (rest : List Char) :
    lineParts quote (line ++ '\n' :: rest) =
      ⟨line, quote.isSome, (quoteThrough quote line).isSome⟩ ::
        lineParts (quoteThrough quote line) rest := by
  induction line generalizing quote with
  | nil => rfl
  | cons c line ih =>
    rw [mem_cons, not_or] at hline
    rw [cons_append, lineParts, if_neg (Ne.symm hline.1), ih (h.quoteAfter c) hline.2]
    rfl

theorem trimmed_line (h : IsQuote quote) (hline : '\n' ∉ line) (rest : List Char) :
    trimmed quote (line ++ '\n' :: rest) [] =
      lineText quote line ++ '\n' :: trimmed (quoteThrough quote line) rest [] := by
  have hwhole := flatMap_lineParts h (line ++ '\n' :: rest)
  rw [lineParts_append h hline, flatMap_cons, partChars_zero,
    flatMap_lineParts (h.quoteThrough line), ← append_assoc] at hwhole
  rw [← append_cancel_right hwhole, append_assoc]
  rfl

/-- A text that is cut into lines once more has the lines that it was made of, each as it was or
without its trailing blanks. -/
theorem trimmed_joined (h : IsQuote quote) {rows : List Row}
    (hrows : ∀ row ∈ rows, '\n' ∉ row.chars) :
    trimmed quote (joined (rows.map Row.chars)) [] =
      joined ((reread quote rows).map Row.chars) := by
  induction rows generalizing quote with
  | nil => rfl
  | cons row rows ih =>
    rw [forall_mem_cons] at hrows
    have hjoined : joined ((row :: rows).map Row.chars) =
        row.chars ++ '\n' :: joined (rows.map Row.chars) := by simp [joined]
    rw [hjoined, trimmed_line h hrows.1, ih (h.quoteThrough row.chars) hrows.2]
    simp [joined, reread]

theorem exists_of_mem_reread {rows : List Row} (h : row ∈ reread quote rows) :
    ∃ before ∈ rows, row.step = before.step ∧
      (row.chars = before.chars ∨ row.chars = trimEndChars before.chars) := by
  induction rows generalizing quote with
  | nil => cases h
  | cons first rows ih =>
    rcases mem_cons.1 h with rfl | h
    · refine ⟨first, mem_cons_self, rfl, ?_⟩
      simp only [lineText]
      split
      · exact .inl rfl
      · exact .inr rfl
    · obtain ⟨before, hbefore, hsame⟩ := ih h
      exact ⟨before, mem_cons_of_mem first hbefore, hsame⟩

theorem trimEndChars_append (h : cs.all isBlank = false) (front : List Char) :
    trimEndChars (front ++ cs) = front ++ trimEndChars cs := by
  induction front with
  | nil => rfl
  | cons c front ih =>
    rw [cons_append, trimEndChars_cons (by simp [h]), ih]
    rfl

/-- The line of a comment without its trailing blanks. -/
theorem trimEndChars_commentLine (margin : Nat) (line : List Char) :
    trimEndChars (commentLine margin line) = commentLine margin line ∨
      trimChars line = [] ∧
        trimEndChars (commentLine margin line) = spaces margin ++ "--".toList := by
  by_cases hempty : trimChars line = []
  · refine .inr ⟨hempty, ?_⟩
    rw [commentLine, hempty, append_nil, trimEndChars_append (by decide)]
    rfl
  · left
    have hkept : trimEndChars (trimChars line) = trimChars line :=
      rdropWhile_idempotent isBlank _
    have hsolid : (trimChars line).all isBlank = false := by
      rw [Bool.eq_false_iff, Ne, ← trimEndChars_eq_nil, hkept]
      exact hempty
    rw [commentLine, trimEndChars_append hsolid, hkept]

end Layout

/-! ### Lines of a trigger -/

namespace Generate

open Layout (Row)

variable {text : String} {step : Layout}

/-- The steps before the text of a block in a function. -/
def functionOpening (name text : String) : List Layout :=
  [.line s!"CREATE OR REPLACE FUNCTION {name}()", .line "RETURNS trigger",
    .line "LANGUAGE plpgsql", .line s!"AS {dollarQuote text}"]

theorem exists_of_mem_functionOpening {name : String} (h : step ∈ functionOpening name text) :
    ∃ written, step = .line written := by
  simp only [functionOpening, mem_cons, not_mem_nil, or_false] at h
  rcases h with rfl | rfl | rfl | rfl <;> exact ⟨_, rfl⟩

/-- The steps after the text of a block in a function. -/
def functionEnding (mapping : Mapping) (t : Trigger) (text : String) : List Layout :=
  .line s!"{dollarQuote text};" :: (triggerLines (contextOf mapping t) t.header).steps

theorem ne_comment_of_mem_functionEnding {mapping : Mapping} {t : Trigger}
    (h : step ∈ functionEnding mapping t text) (comment : String) : step ≠ .comment comment := by
  rw [functionEnding, mem_cons] at h
  rcases h with rfl | h
  · exact Layout.noConfusion
  · cases hheader : t.header with
    | none =>
      rw [hheader] at h
      cases h
    | some header =>
      rw [hheader] at h
      simp only [triggerLines, mem_cons, not_mem_nil, or_false] at h
      rcases h with rfl | rfl <;> exact Layout.noConfusion

/-- The steps of the block of a trigger. -/
def triggerSteps (mapping : Mapping) (options : Options) (t : Trigger) : List Layout :=
  (triggerBlock (scopeOf mapping options t) t).steps

/-- The lines of the output, each with the step that wrote it. In a function the lines of the block
have the steps of the block. -/
def outputRows (mapping : Mapping) (options : Options) (t : Trigger) : List Row :=
  let block := Layout.rows options.indent 0 (triggerSteps mapping options t)
  match options.wrap with
  | .block => block
  | .function =>
    Layout.rows options.indent 0
        (functionOpening (functionName t.header).text (blockText mapping options t)) ++
      Layout.reread none block ++
      Layout.rows options.indent 0 (functionEnding mapping t (blockText mapping options t))

variable (mapping : Mapping) (options : Options) (t : Trigger)

theorem joined_reread :
    Layout.lineChars 0 (trimEnd (blockText mapping options t)).toList =
      Layout.joined ((Layout.reread none
        (Layout.rows options.indent 0 (triggerSteps mapping options t))).map Row.chars) := by
  have hwrapped := toList_wrappedText mapping options t
  rw [wrappedText, String.toList_ofList, blockText, Layout.toList_write] at hwrapped
  rw [← Layout.trimmed_joined Layout.isQuote_none fun row hrow => Layout.not_mem_rows hrow]
  exact hwrapped

/-- The output is made of its lines. -/
theorem toList_sql :
    (trigger mapping options t).sql.toList =
      Layout.joined ((outputRows mapping options t).map Row.chars) := by
  rw [trigger, Layout.toList_write]
  cases hwrap : options.wrap with
  | block => simp only [output, outputRows, hwrap, triggerSteps]
  | function =>
    have hsteps : (output mapping options t).steps =
        functionOpening (functionName t.header).text (blockText mapping options t) ++
          .line (trimEnd (blockText mapping options t)) ::
          functionEnding mapping t (blockText mapping options t) := by
      rw [output, hwrap]
      rfl
    have hlevel : ∀ text, Layout.levelAfter 0 (.line text) = 0 := fun _ => rfl
    have hline := Layout.chars_eq_joined options.indent 0
      (.line (trimEnd (blockText mapping options t)))
    rw [Layout.chars, Layout.indentation_zero, joined_reread] at hline
    rw [hsteps, Layout.rows_append_lines fun _ => exists_of_mem_functionOpening, Layout.rows,
      hlevel, outputRows, hwrap]
    simp only [map_append, Layout.chars_map_mk, Layout.joined_append, hline, append_assoc]

variable {mapping options t} {row : Row}

/-- A line of a function stands around the block or is one of the block, as it was or without its
trailing blanks. -/
theorem mem_outputRows_function (hwrap : options.wrap = .function)
    (h : row ∈ outputRows mapping options t) :
    '\n' ∉ row.chars ∧ (∀ text, row.step ≠ .comment text) ∨
      ∃ before ∈ Layout.rows options.indent 0 (triggerSteps mapping options t),
        row.step = before.step ∧
          (row.chars = before.chars ∨ row.chars = trimEndChars before.chars) := by
  rw [outputRows, hwrap, mem_append, mem_append] at h
  rcases h with (h | h) | h
  · left
    obtain ⟨written, hstep⟩ := exists_of_mem_functionOpening (Layout.exists_of_mem_rows h).1
    exact ⟨Layout.not_mem_rows h, fun text => by simp [hstep]⟩
  · exact .inr (Layout.exists_of_mem_reread h)
  · left
    have hstep := ne_comment_of_mem_functionEnding (Layout.exists_of_mem_rows h).1
    exact ⟨Layout.not_mem_rows h, hstep⟩

theorem not_mem_outputRows (h : row ∈ outputRows mapping options t) : '\n' ∉ row.chars := by
  cases hwrap : options.wrap with
  | block =>
    rw [outputRows, hwrap] at h
    exact Layout.not_mem_rows h
  | function =>
    obtain ⟨hfree, _⟩ | ⟨before, hbefore, _, hchars | hchars⟩ := mem_outputRows_function hwrap h
    · exact hfree
    · exact hchars ▸ Layout.not_mem_rows hbefore
    · exact hchars ▸ Layout.not_mem_trimEndChars (Layout.not_mem_rows hbefore)

/-- The line of a comment with this text: after the indentation two dashes and a blank, or the
dashes alone where a function has nothing to write after them. -/
def IsCommented (wrap : Wrap) (text : String) (chars : List Char) : Prop :=
  ∃ margin, ∃ line ∈ lines text.toList,
    chars = Layout.spaces margin ++ "-- ".toList ++ trimChars line ∨
      wrap = .function ∧ trimChars line = [] ∧ chars = Layout.spaces margin ++ "--".toList

/-- A row of a comment is written behind dashes. -/
theorem outputRows_comment (h : row ∈ outputRows mapping options t)
    (hstep : row.step = .comment text) : IsCommented options.wrap text row.chars := by
  have hblock : ∀ before ∈ Layout.rows options.indent 0 (triggerSteps mapping options t),
      before.step = .comment text → ∃ margin, ∃ line ∈ Text.lines text.toList,
        Layout.commentLine margin line = before.chars := by
    intro before hbefore hcomment
    obtain ⟨_, level, hline⟩ := Layout.exists_of_mem_rows hbefore
    rw [hcomment] at hline
    exact ⟨_, mem_map.1 hline⟩
  cases hwrap : options.wrap with
  | block =>
    rw [outputRows, hwrap] at h
    obtain ⟨margin, line, hline, hchars⟩ := hblock row h hstep
    exact ⟨margin, line, hline, .inl hchars.symm⟩
  | function =>
    obtain ⟨_, hother⟩ | ⟨before, hbefore, hsame, hchars⟩ := mem_outputRows_function hwrap h
    · exact absurd hstep (hother text)
    · obtain ⟨margin, line, hline, hcomment⟩ := hblock before hbefore (hsame ▸ hstep)
      refine ⟨margin, line, hline, ?_⟩
      rw [← hcomment] at hchars
      rcases hchars with hchars | hchars
      · exact .inl hchars
      · rcases Layout.trimEndChars_commentLine margin line with hkept | ⟨hempty, hdashes⟩
        · exact .inl (hchars.trans hkept)
        · exact .inr ⟨rfl, hempty, hchars.trans hdashes⟩

end Generate

end TriggerDialect
