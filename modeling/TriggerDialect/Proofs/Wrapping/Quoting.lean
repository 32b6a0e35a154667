import TriggerDialect.Proofs.Wrapping.Function

/-!
# Dollar quotes around a function

The text of a trigger function stands between two dollar quotes: `$$`, or `$body$` where the text of
the block holds `$$`. Where the text holds the quote too, the function ends there and what follows
is read as SQL. Main statement: the quote stands again first on the closing line exactly if the
block does not hold both quotes (`closingQuote_first_iff`).
-/

namespace TriggerDialect

open List

/-- One text stands somewhere in another. -/
def Text.Holds (text part : String) : Prop := part.toList <:+: text.toList

instance (text part : String) : Decidable (Text.Holds text part) :=
  inferInstanceAs (Decidable (part.toList <:+: text.toList))

/-! ### Parts without blanks -/

namespace Layout

variable {cs rest part : List Char}

/-- A text without blanks stands at the start of what is left exactly if it stood there before. -/
theorem isPrefix_trimmed_iff (h : part.all (!Text.isBlank ·)) (quote : Option Char) :
    part <+: trimmed quote cs rest ↔ part <+: cs := by
  induction cs generalizing quote part with
  | nil => rfl
  | cons c cs ih =>
    cases part with
    | nil => simp
    | cons d part =>
      rw [all_cons, Bool.and_eq_true, Bool.not_eq_true'] at h
      cases hdrops : drops quote c (cs ++ rest) with
      | false => rw [trimmed_kept hdrops, cons_prefix_cons, cons_prefix_cons, ih h.2]
      | true =>
        -- Both sides are false: one text starts with a line feed, the other with the lost blank.
        obtain ⟨_, hblank, hends⟩ := drops_iff.1 hdrops
        have hne : ∀ e, Text.isBlank e → d ≠ e := by
          rintro e he rfl
          rw [h.1] at he
          cases he
        rw [trimmed_dropped hdrops]
        refine iff_of_false (fun hpart => ?_) fun hpart => ?_
        · obtain ⟨more, hmore⟩ := hpart
          exact hne '\n' rfl (head?_trimmed_of_endsLine hends (by rw [← hmore]; rfl))
        · exact hne c (isLineBlank_iff.1 hblank).1 (cons_prefix_cons.1 hpart).1

/-- Texts without blanks are neither lost nor formed where blanks at the ends of lines go. -/
theorem isInfix_trimmed_iff (h : part.all (!Text.isBlank ·)) (quote : Option Char) :
    part <:+: trimmed quote cs rest ↔ part <:+: cs := by
  induction cs generalizing quote with
  | nil => rfl
  | cons c cs ih =>
    have hstart : part <+: trimmed quote (c :: cs) rest ↔ part <+: c :: cs :=
      isPrefix_trimmed_iff h quote
    rw [infix_cons_iff, ← hstart]
    cases hdrops : drops quote c (cs ++ rest) with
    | false => rw [trimmed_kept hdrops, infix_cons_iff, ih]
    | true =>
      rw [trimmed_dropped hdrops, ← ih none]
      exact ⟨.inr, fun hpart => hpart.elim List.IsPrefix.isInfix id⟩

end Layout

/-! ### The first place of a mark -/

/-- A mark after a text stands first behind it exactly if the text does not hold the mark, where the
text ends in a character that the mark does not have. -/
theorem first_iff_not_isInfix {front mark : List Char} {c : Char} (hmark : mark ≠ [])
    (hc : c ∉ mark) (rest : List Char) :
    (∀ before behind, front ++ [c] ++ rest = before ++ mark ++ behind →
        (front ++ [c]).length ≤ before.length) ↔
      ¬mark <:+: front ++ [c] := by
  constructor
  · rintro hfirst ⟨before, behind, hheld⟩
    have hle := hfirst before (behind ++ rest) (by rw [← hheld, append_assoc])
    have hpos := length_pos_iff.2 hmark
    rw [← hheld, length_append, length_append] at hle
    omega
  · intro hnot before behind heq
    rcases append_eq_append_iff.1 heq with ⟨tail, htail, _⟩ | ⟨more, hmore, _⟩
    · rcases append_eq_append_iff.1 htail with ⟨inside, hinside, hsplit⟩ | ⟨past, hpast, _⟩
      · -- The mark starts in the text and runs over its last character, unless nothing is inside.
        rcases eq_nil_or_concat inside with rfl | ⟨inner, d, rfl⟩
        · rw [hinside, append_nil]
        · rw [concat_eq_append, ← append_assoc] at hinside
          obtain ⟨_, hlast⟩ := append_inj' hinside rfl
          cases hlast
          exact absurd (by simp [hsplit]) hc
      · rw [hpast]
        exact (prefix_append _ past).length_le
    · exact absurd ⟨before, more, hmore.symm⟩ hnot

theorem Text.first_iff_not_holds {text mark rest : String} {front : List Char} {c : Char}
    (htext : text.toList = front ++ [c]) (hmark : mark.toList ≠ []) (hc : c ∉ mark.toList) :
    (∀ before behind, text ++ rest = before ++ mark ++ behind → text.length ≤ before.length) ↔
      ¬Holds text mark := by
  rw [Holds, htext, ← first_iff_not_isInfix hmark hc rest.toList, ← htext]
  constructor
  · intro hfirst before behind heq
    have hle := hfirst (String.ofList before) (String.ofList behind) (by
      rw [← String.toList_inj]
      simpa using heq)
    rwa [String.length_ofList, ← String.length_toList] at hle
  · intro hfirst before behind heq
    have hle := hfirst before.toList behind.toList (by
      rw [← String.toList_append, heq, String.toList_append, String.toList_append])
    rwa [String.length_toList, String.length_toList] at hle

namespace Generate

/-! ### The quotes of a function -/

theorem holdsDollars_iff {cs : List Char} : holdsDollars cs ↔ "$$".toList <:+: cs := by
  change _ ↔ ['$', '$'] <:+: cs
  fun_induction holdsDollars cs with
  | case1 rest => exact iff_of_true rfl ⟨[], rest, rfl⟩
  | case2 c rest hne ih =>
    have hstart : ¬['$', '$'] <+: c :: rest := by
      rintro ⟨more, hmore⟩
      cases hmore
      exact hne more rfl rfl
    rw [ih, infix_cons_iff, or_iff_right hstart]
  | case3 => simp

/-- A function holds the quote around it exactly if its block holds both quotes. -/
theorem holds_dollarQuote_iff (mapping : Mapping) (options : Options) (t : Trigger) :
    Text.Holds (wrappedText (blockText mapping options t))
        (dollarQuote (blockText mapping options t)) ↔
      Text.Holds (blockText mapping options t) "$$" ∧
        Text.Holds (blockText mapping options t) "$body$" := by
  unfold Text.Holds
  rw [toList_wrappedText, dollarQuote, ← holdsDollars_iff]
  cases hdollars : holdsDollars (blockText mapping options t).toList with
  | true =>
    rw [if_pos rfl, Layout.isInfix_trimmed_iff rfl, and_iff_right rfl]
  | false =>
    rw [if_neg Bool.false_ne_true, Layout.isInfix_trimmed_iff rfl, ← holdsDollars_iff, hdollars]
    simp

theorem toList_wrappedText_newline (text : String) :
    (wrappedText text).toList =
      Layout.trimmed none (Text.trimEnd text).toList [] ++ ['\n'] := by
  rw [wrappedText, String.toList_ofList, Layout.lineChars_zero]

/-- In a function, the quote of the opening line stands again first on the closing line, and its
text does not hold the quote, exactly if the block does not hold both quotes. -/
theorem closingQuote_first_iff (mapping : Mapping) (options : Options) (t : Trigger)
    (hwrap : options.wrap = .function) :
    (trigger mapping options t).sql =
        textBefore options t.header (dollarQuote (blockText mapping options t)) ++
          wrappedText (blockText mapping options t) ++
          textAfter mapping options t (dollarQuote (blockText mapping options t)) ∧
      (¬Text.Holds (wrappedText (blockText mapping options t))
          (dollarQuote (blockText mapping options t)) ↔
        ¬(Text.Holds (blockText mapping options t) "$$" ∧
          Text.Holds (blockText mapping options t) "$body$")) ∧
      ((∀ before behind,
          wrappedText (blockText mapping options t) ++
              textAfter mapping options t (dollarQuote (blockText mapping options t)) =
            before ++ dollarQuote (blockText mapping options t) ++ behind →
          (wrappedText (blockText mapping options t)).length ≤ before.length) ↔
        ¬(Text.Holds (blockText mapping options t) "$$" ∧
          Text.Holds (blockText mapping options t) "$body$")) := by
  refine ⟨sql_function hwrap, not_congr (holds_dollarQuote_iff mapping options t), ?_⟩
  rw [← holds_dollarQuote_iff]
  have hquote : (dollarQuote (blockText mapping options t)).toList ≠ [] ∧
      '\n' ∉ (dollarQuote (blockText mapping options t)).toList := by
    unfold dollarQuote
    split <;> decide
  exact Text.first_iff_not_holds (toList_wrappedText_newline _) hquote.1 hquote.2

/-- A block that holds `$$`. -/
def dollars : String := "BEGIN v := '$$'; END;"

theorem closingQuote_first_dollars :
    ∃ outcome, Grammar.trigger dollars = .ok outcome ∧
      dollarQuote (blockText .empty functionOptions outcome.value) = "$body$" ∧
      ¬Text.Holds (wrappedText (blockText .empty functionOptions outcome.value)) "$body$" ∧
      ∀ before behind,
        wrappedText (blockText .empty functionOptions outcome.value) ++
            textAfter .empty functionOptions outcome.value "$body$" =
          before ++ "$body$" ++ behind →
        (wrappedText (blockText .empty functionOptions outcome.value)).length ≤ before.length := by
  have hread : blockText? dollars = some "BEGIN\n    v := '$$';\n    RETURN NEW;\nEND;\n" := by
    decide +kernel
  obtain ⟨outcome, houtcome, htext⟩ := exists_of_blockText? hread
  have hquote : dollarQuote (blockText .empty functionOptions outcome.value) = "$body$" ∧
      ¬(Text.Holds (blockText .empty functionOptions outcome.value) "$$" ∧
        Text.Holds (blockText .empty functionOptions outcome.value) "$body$") := by
    rw [htext]
    decide +kernel
  obtain ⟨_, hheld, hfirst⟩ := closingQuote_first_iff .empty functionOptions outcome.value rfl
  rw [hquote.1] at hheld hfirst
  exact ⟨outcome, houtcome, hquote.1, hheld.2 hquote.2, hfirst.2 hquote.2⟩

/-- A block that holds both quotes. -/
def bothQuotes : String := "BEGIN v := '$$ $body$'; END;"

/-- Of a block with both quotes, the function ends inside a literal. -/
theorem closingQuote_inside_bothQuotes :
    ∃ outcome behind, Grammar.trigger bothQuotes = .ok outcome ∧
      dollarQuote (blockText .empty functionOptions outcome.value) = "$body$" ∧
      Text.Holds (wrappedText (blockText .empty functionOptions outcome.value)) "$body$" ∧
      wrappedText (blockText .empty functionOptions outcome.value) ++
          textAfter .empty functionOptions outcome.value "$body$" =
        "BEGIN\n    v := '$$ " ++ "$body$" ++ behind ∧
      "BEGIN\n    v := '$$ ".length <
        (wrappedText (blockText .empty functionOptions outcome.value)).length := by
  have hread : blockText? bothQuotes =
      some "BEGIN\n    v := '$$ $body$';\n    RETURN NEW;\nEND;\n" := by
    decide +kernel
  obtain ⟨outcome, houtcome, htext⟩ := exists_of_blockText? hread
  have hwrapped : wrappedText (blockText .empty functionOptions outcome.value) =
      "BEGIN\n    v := '$$ " ++ "$body$" ++ "';\n    RETURN NEW;\nEND;\n" := by
    rw [htext]
    decide +kernel
  refine ⟨outcome, "';\n    RETURN NEW;\nEND;\n" ++
    textAfter .empty functionOptions outcome.value "$body$", houtcome, ?_, ?_, ?_, ?_⟩
  · rw [htext]
    decide +kernel
  · rw [hwrapped]
    decide +kernel
  · rw [hwrapped, String.append_assoc]
  · rw [hwrapped]
    decide +kernel

end Generate

end TriggerDialect
