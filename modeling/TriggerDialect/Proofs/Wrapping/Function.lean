import TriggerDialect.Conversion
import TriggerDialect.Proofs.Wrapping.Tokens

/-!
# The text of a trigger function

A trigger function holds the text of the trigger's block between dollar quotes, written once more
as a line at the margin. Blanks at the ends of lines are lost in this unless a quote is open, and
here quotes are counted through the comments and the alternative literals of the block. Main
statement: the function has the tokens of the block exactly if none of them loses a blank, and this
is so if every comment and every alternative literal closes the quotes that are counted in it
(`tokens_wrappedText_iff`).
-/

namespace TriggerDialect

open Layout

/-! ### The text between the quotes -/

namespace Layout

variable {front : List Char} {c : Char}

theorem texts_append_singleton (width level : Nat) (steps : List Layout) (last : Layout) :
    ∃ level', texts width level (steps ++ [last]) =
      texts width level steps ++ [last.chars width level'] := by
  induction steps generalizing level with
  | nil => exact ⟨level, rfl⟩
  | cons step steps ih =>
    obtain ⟨level', hlevel⟩ := ih (step.levelAfter level)
    exact ⟨level', congrArg (step.chars width level :: ·) hlevel⟩

theorem trimEndChars_append_newline (h : Text.isBlank c = false) :
    Text.trimEndChars (front ++ [c, '\n']) = front ++ [c] := by
  have hline : Text.isBlank '\n' := rfl
  simp [Text.trimEndChars, h, hline]

/-- A text whose last line ends in no blank loses the blanks at the ends of its lines, and nothing
else, when it is written as a line at the margin. -/
theorem lineChars_trimEndChars (h : Text.isBlank c = false) :
    lineChars 0 (Text.trimEndChars (front ++ [c, '\n'])) =
      trimmed none (front ++ [c, '\n']) [] := by
  have hlast : ∀ quote, trimmed quote ['\n'] [] = ['\n'] := fun quote => by
    rw [trimmed_kept (drops_of_not_blank rfl quote _)]
    rfl
  have happend : front ++ [c, '\n'] = (front ++ [c]) ++ ['\n'] := by simp
  rw [trimEndChars_append_newline h, lineChars_zero, happend, trimmed_append none (front ++ [c]),
    List.append_nil, trimmed_newline, hlast]

theorem write_line (width : Nat) (text : String) (steps : List Layout) :
    write width (.line text :: steps) =
      String.ofList (lineChars 0 text.toList) ++ write width steps := by
  simp [write, texts, chars, levelAfter, String.ofList_append]

end Layout

namespace Generate

variable {mapping : Mapping} {options : Options} {t : Trigger}

/-- The text of the block of a trigger, before a function is put around it. -/
def blockText (mapping : Mapping) (options : Options) (t : Trigger) : String :=
  write options.indent (triggerBlock (scopeOf mapping options t) t).steps

/-- The text of a block as it stands in a function. -/
def wrappedText (text : String) : String :=
  String.ofList (lineChars 0 (Text.trimEnd text).toList)

/-- A block ends in a line with a semicolon. -/
theorem toList_blockText (mapping : Mapping) (options : Options) (t : Trigger) :
    ∃ front, (blockText mapping options t).toList = front ++ [';', '\n'] := by
  obtain ⟨steps, hsteps⟩ : ∃ steps,
      (triggerBlock (scopeOf mapping options t) t).steps = steps ++ [.line "END;"] := ⟨_, rfl⟩
  obtain ⟨level, hlevel⟩ :=
    texts_append_singleton options.indent 0 steps (.line "END;")
  have hlast : chars options.indent level (.line "END;") =
      spaces (indentation options.indent level) ++ ['E', 'N', 'D', ';'] ++ ['\n'] := by
    have hparts : lineParts none "END;".toList =
        [⟨['E', 'N', 'D', ';'], false, false⟩] := rfl
    rw [chars, lineChars, hparts, List.flatMap_singleton]
    rfl
  refine ⟨(texts options.indent 0 steps).flatten ++
    (spaces (indentation options.indent level) ++ ['E', 'N', 'D']), ?_⟩
  rw [blockText, write, String.toList_ofList, hsteps, hlevel, hlast]
  simp

theorem toList_wrappedText (mapping : Mapping) (options : Options) (t : Trigger) :
    (wrappedText (blockText mapping options t)).toList =
      trimmed none (blockText mapping options t).toList [] := by
  obtain ⟨front, hfront⟩ := toList_blockText mapping options t
  rw [wrappedText, String.toList_ofList, Text.trimEnd, String.toList_ofList, hfront]
  exact lineChars_trimEndChars rfl

/-- What stands in a function before the text of its block. -/
def textBefore (options : Options) (header : Option Header) (quote : String) : String :=
  write options.indent
      [.line s!"CREATE OR REPLACE FUNCTION {(functionName header).text}()",
        .line "RETURNS trigger", .line "LANGUAGE plpgsql"] ++
    s!"AS {quote}\n"

/-- What stands after the text of the block: the end of the function, and the trigger. -/
def textAfter (mapping : Mapping) (options : Options) (t : Trigger) (quote : String) : String :=
  s!"{quote};\n" ++ write options.indent (triggerLines (contextOf mapping t) t.header).steps

theorem sql_function (h : options.wrap = .function) :
    (trigger mapping options t).sql =
      textBefore options t.header (dollarQuote (blockText mapping options t)) ++
        wrappedText (blockText mapping options t) ++
        textAfter mapping options t (dollarQuote (blockText mapping options t)) := by
  have hsteps : (output mapping options t).steps =
      functionLines (functionName t.header).text (blockText mapping options t) ++
        (triggerLines (contextOf mapping t) t.header).steps := by
    rw [output, h]
    rfl
  have hquote : ∀ quote, quote = "$$" ∨ quote = "$body$" →
      String.ofList (lineChars 0 (s!"AS {quote}").toList) = s!"AS {quote}\n" ∧
      String.ofList (lineChars 0 (s!"{quote};").toList) = s!"{quote};\n" := by
    rintro _ (rfl | rfl)
    · exact ⟨by decide +kernel, by decide +kernel⟩
    · exact ⟨by decide +kernel, by decide +kernel⟩
  have hdollars : dollarQuote (blockText mapping options t) = "$$" ∨
      dollarQuote (blockText mapping options t) = "$body$" := by
    unfold dollarQuote
    split
    · exact .inr rfl
    · exact .inl rfl
  obtain ⟨hopening, hclosing⟩ := hquote _ hdollars
  have hnil : write options.indent [] = "" := rfl
  rw [trigger, hsteps, functionLines, textBefore, textAfter, wrappedText]
  simp only [List.cons_append, List.nil_append, write_line, hopening, hclosing, hnil,
    String.append_assoc, String.empty_append]

/-! ### Its tokens -/

theorem sameTokens_iff {ts : List Token}
    (hts : Token.ofSource (blockText mapping options t) = .ok ts) :
    (∃ us, Token.ofSource (wrappedText (blockText mapping options t)) = .ok us ∧
        pieces us = pieces ts) ↔
      spares none (lex (blockText mapping options t).toList).lexemes := by
  have hreads := reads_iff_ofSource.2 ⟨ts, hts, rfl⟩
  have hiff := reads_trimmed_iff isQuote_none hreads (List.forall_mem_nil _)
  rw [← reads_iff_ofSource, toList_wrappedText]
  simpa using hiff

/-- In a function, the text of a block has the same tokens exactly if none of them loses a blank at
the end of a line. None does if all comments and alternative literals keep in step with the count of
quotes. -/
theorem tokens_wrappedText_iff (mapping : Mapping) (options : Options) (t : Trigger)
    {ts : List Token} (hwrap : options.wrap = .function)
    (hts : Token.ofSource (blockText mapping options t) = .ok ts) :
    (trigger mapping options t).sql =
        textBefore options t.header (dollarQuote (blockText mapping options t)) ++
          wrappedText (blockText mapping options t) ++
          textAfter mapping options t (dollarQuote (blockText mapping options t)) ∧
      ((∃ us, Token.ofSource (wrappedText (blockText mapping options t)) = .ok us ∧
          pieces us = pieces ts) ↔
        spares none (lex (blockText mapping options t).toList).lexemes = true) ∧
      ((∀ lexeme ∈ (lex (blockText mapping options t).toList).lexemes,
          isQuotation lexeme = true ∨ steady lexeme = true) →
        ∃ us, Token.ofSource (wrappedText (blockText mapping options t)) = .ok us ∧
          pieces us = pieces ts) := by
  refine ⟨sql_function hwrap, sameTokens_iff hts, fun hsteady => ?_⟩
  exact (sameTokens_iff hts).2 (spares_of_steady_others hsteady)

/-- The options of a function. -/
def functionOptions : Options := { Options.standard with wrap := .function }

/-- The text of the block that a source is read as. -/
def blockText? (source : String) : Option String :=
  (Grammar.trigger source).toOption.map fun outcome =>
    blockText .empty functionOptions outcome.value

theorem exists_of_blockText? {source text : String} (h : blockText? source = some text) :
    ∃ outcome, Grammar.trigger source = .ok outcome ∧
      blockText .empty functionOptions outcome.value = text := by
  unfold blockText? at h
  cases hread : Grammar.trigger source with
  | error fault =>
    rw [hread] at h
    cases h
  | ok outcome =>
    rw [hread] at h
    exact ⟨outcome, rfl, Option.some.inj h⟩

/-- A literal over two lines after a comment that holds two apostrophes. -/
def inStep : String := "DECLARE PRAGMA p('q'); BEGIN v := 'a  \nb'; END;"

theorem tokens_wrappedText_inStep :
    ∃ outcome ts us, Grammar.trigger inStep = .ok outcome ∧
      Token.ofSource (blockText .empty functionOptions outcome.value) = .ok ts ∧
      ⟨.stringLiteral, "'a  \nb'"⟩ ∈ pieces ts ∧
      Token.ofSource (wrappedText (blockText .empty functionOptions outcome.value)) = .ok us ∧
      pieces us = pieces ts := by
  have hread : ∃ text ∈ blockText? inStep, (lex text.toList).unfinished = none ∧
      ⟨.stringLiteral, "'a  \nb'"⟩ ∈ pieces (lex text.toList).tokens ∧
      ∀ lexeme ∈ (lex text.toList).lexemes,
        isQuotation lexeme ∨ steady lexeme := by
    decide +kernel
  obtain ⟨_, htext, hfinished, hmem, hsteady⟩ := hread
  obtain ⟨outcome, houtcome, rfl⟩ := exists_of_blockText? htext
  have hts := ofSource_eq_ok hfinished
  obtain ⟨_, _, hkept⟩ := tokens_wrappedText_iff .empty functionOptions outcome.value rfl hts
  obtain ⟨us, hus, hpieces⟩ := hkept hsteady
  exact ⟨outcome, _, us, houtcome, hts, hmem, hus, hpieces⟩

/-- The same literal after a comment that holds three apostrophes. -/
def outOfStep : String := "DECLARE PRAGMA p(q'[']'); BEGIN v := 'a  \nb'; END;"

/-- After an odd number of apostrophes in a comment, a literal loses its blanks. -/
theorem tokens_wrappedText_outOfStep :
    ∃ outcome ts, Grammar.trigger outOfStep = .ok outcome ∧
      Token.ofSource (blockText .empty functionOptions outcome.value) = .ok ts ∧
      ⟨.stringLiteral, "'a  \nb'"⟩ ∈ pieces ts ∧
      wrappedText (blockText .empty functionOptions outcome.value) =
        "DECLARE\n    -- untranslated declaration: PRAGMA p(q'[']')\n" ++
          "BEGIN\n    v := 'a\nb';\n    RETURN NEW;\nEND;\n" ∧
      ¬∃ us,
        Token.ofSource (wrappedText (blockText .empty functionOptions outcome.value)) = .ok us ∧
          pieces us = pieces ts := by
  have hread : ∃ text ∈ blockText? outOfStep, (lex text.toList).unfinished = none ∧
      ⟨.stringLiteral, "'a  \nb'"⟩ ∈ pieces (lex text.toList).tokens ∧
      wrappedText text = "DECLARE\n    -- untranslated declaration: PRAGMA p(q'[']')\n" ++
        "BEGIN\n    v := 'a\nb';\n    RETURN NEW;\nEND;\n" ∧
      spares none (lex text.toList).lexemes = false := by
    decide +kernel
  obtain ⟨_, htext, hfinished, hmem, hwrapped, hspares⟩ := hread
  obtain ⟨outcome, houtcome, rfl⟩ := exists_of_blockText? htext
  have hts := ofSource_eq_ok hfinished
  refine ⟨outcome, _, houtcome, hts, hmem, hwrapped, ?_⟩
  rw [sameTokens_iff hts, hspares]
  exact Bool.false_ne_true

end Generate

end TriggerDialect
