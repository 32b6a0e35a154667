import TriggerDialect.Proofs.Lexing.Rendering
import TriggerDialect.Recast.Basic
import TriggerDialect.Tree.Declarations

/-!
# Values of string literals

A string value can be spelled in three ways: between apostrophes, the same after an `N`, and
between delimiters of the writer's choice after a `q`. `Spells` lists them, and every string literal
of a text is one of them (`exists_spells`). Reading a literal gives its value back
(`contentsChars_of_spells`), and recasting writes that value in the first way (`literal_of_spells`).
So values are kept from the source to the output (`value_kept`).
-/

namespace TriggerDialect

open List Scan

namespace Literal

variable {c : Char} {cs text value : List Char}

/-! ### Doubled apostrophes -/

theorem double_cons_of_ne (h : c ≠ '\'') (cs : List Char) : double (c :: cs) = c :: double cs := by
  rw [double, if_neg h]

theorem double_quote (cs : List Char) : double ('\'' :: cs) = '\'' :: '\'' :: double cs := by
  rw [double, if_pos rfl]

theorem undouble_cons_of_ne (h : c ≠ '\'') (cs : List Char) :
    undouble (c :: cs) = c :: undouble cs := by
  cases cs with
  | nil => rfl
  | cons d cs => rw [undouble, if_neg fun hpair => h hpair.1]

theorem undouble_double (cs : List Char) : undouble (double cs) = cs := by
  induction cs with
  | nil => rfl
  | cons c cs ih =>
    by_cases hc : c = '\''
    · subst hc
      rw [double_quote, undouble, if_pos ⟨rfl, rfl⟩, ih]
    · rw [double_cons_of_ne hc, undouble_cons_of_ne hc, ih]

theorem closesQuote_cons_of_ne {quote : Char} (h : c ≠ quote) (hne : cs ≠ []) :
    closesQuote quote (c :: cs) = closesQuote quote cs := by
  obtain ⟨d, cs, rfl⟩ := exists_cons_of_ne_nil hne
  rw [closesQuote, if_neg h]

theorem closesQuote_double (cs : List Char) : closesQuote '\'' (double cs ++ ['\'']) := by
  induction cs with
  | nil => rfl
  | cons c cs ih =>
    by_cases hc : c = '\''
    · subst hc
      rw [double_quote, cons_append, cons_append, closesQuote, if_pos rfl, ih]
      rfl
    · rw [double_cons_of_ne hc, cons_append, closesQuote_cons_of_ne hc (by simp), ih]

/-- What ends at its first single apostrophe is a value with its apostrophes doubled. -/
theorem exists_double (h : closesQuote '\'' cs) : ∃ value, cs = double value ++ ['\''] := by
  fun_induction closesQuote '\'' cs with
  | case1 => cases h
  | case2 c =>
    rw [beq_iff_eq] at h
    exact ⟨[], by rw [h]; rfl⟩
  | case3 d cs ih =>
    obtain ⟨hd, hcloses⟩ := Bool.and_eq_true_iff.1 h
    obtain ⟨value, rfl⟩ := ih hcloses
    refine ⟨'\'' :: value, ?_⟩
    rw [beq_iff_eq.1 hd, double_quote, cons_append, cons_append]
  | case4 c d cs hc ih =>
    obtain ⟨value, hvalue⟩ := ih h
    exact ⟨c :: value, by rw [hvalue, double_cons_of_ne hc, cons_append]⟩

/-- What ends at its first closing delimiter with an apostrophe is a value before the two. -/
theorem exists_delimited {close : Char} (h : closesPair close '\'' cs) :
    ∃ value, cs = value ++ [close, '\''] := by
  fun_induction closesPair close '\'' cs with
  | case1 => cases h
  | case2 => cases h
  | case3 c d cs hpair =>
    obtain ⟨rfl, rfl⟩ := hpair
    rw [isEmpty_iff.1 h]
    exact ⟨[], rfl⟩
  | case4 c d cs _ ih =>
    obtain ⟨value, hvalue⟩ := ih h
    exact ⟨c :: value, by rw [hvalue, cons_append]⟩

/-! ### Spellings -/

/-- The ways to spell a value as a literal. -/
inductive Spells (value : List Char) : List Char → Prop
  | plain : Spells value (quoteChars value)
  | national {mark : Char} (hmark : mark = 'n' ∨ mark = 'N') :
      Spells value (mark :: quoteChars value)
  | alternative {mark : Char} (hmark : mark = 'q' ∨ mark = 'Q') (opening : Char) :
      Spells value
        (mark :: '\'' :: opening :: (value ++ [closingDelimiter opening, '\'']))

/-- The class of a lexeme that is a string literal. -/
theorem start_of_munches {rest xs : List Char} (h : Scan.Munches .stringLiteral c xs rest) :
    start c (xs ++ rest) = .string ∨ opensLiteral c (xs ++ rest) := by
  have hshape := announces_start c (xs ++ rest)
  have hclass := start_mem_classes h
  simp only [classes, mem_cons, not_mem_nil, or_false] at hclass
  rcases hclass with hstart | hstart | hstart
  · exact .inl hstart
  · rw [hstart] at hshape
    exact .inr (Bool.or_eq_true_iff.2 (.inl hshape))
  · rw [hstart] at hshape
    right
    simp only [opensLiteral, Bool.or_eq_true, Bool.and_eq_true, beq_iff_eq]
    exact .inr hshape

/-- Every string literal of a text spells a value. -/
theorem exists_spells {rest xs : List Char} (h : Scan.Munches .stringLiteral c xs rest) :
    ∃ value, Spells value (c :: xs) := by
  rcases start_of_munches h with hstart | hopens
  · have hannounces := announces_start c (xs ++ rest)
    rw [hstart] at hannounces
    obtain rfl : c = '\'' := hannounces
    obtain ⟨value, rfl⟩ := exists_double (munches_quote_iff.1 h).2.1
    exact ⟨value, .plain⟩
  · rcases exists_of_munches_literal h hopens with ⟨opening, ys, rfl, hc⟩ | ⟨ys, rfl, hc⟩
    · obtain ⟨value, rfl⟩ := exists_delimited ((munches_alternative_iff hc).1 h).2.2
      exact ⟨value, .alternative hc opening⟩
    · obtain ⟨value, rfl⟩ := exists_double ((munches_national_iff hc).1 h).2.1
      exact ⟨value, .national hc⟩

/-! ### Reading -/

theorem dropSuffix_concat (c : Char) (cs : List Char) : dropSuffix c (cs ++ [c]) = some cs := by
  rw [dropSuffix, getLast?_concat, if_pos rfl, dropLast_concat]

theorem dropNational_of_ne (hlower : c ≠ 'n') (hupper : c ≠ 'N') (cs : List Char) :
    dropNational (c :: cs) = c :: cs := by
  rw [dropNational, if_neg fun h => h.1.elim hlower hupper]

theorem contentsChars_quoteChars (value : List Char) :
    contentsChars (quoteChars value) = some value := by
  have hbetween : between ('\'' :: (double value ++ ['\''])) = some (double value) := by
    rw [between, if_pos rfl, dropSuffix_concat]
  have hnational : dropNational (quoteChars value) = '\'' :: (double value ++ ['\'']) :=
    dropNational_of_ne (by decide) (by decide) _
  rw [contentsChars, hnational]
  simp [hbetween, undouble_double]

/-- Reading a literal gives its value. -/
theorem contentsChars_of_spells (h : Spells value text) : contentsChars text = some value := by
  cases h with
  | plain => exact contentsChars_quoteChars value
  | @national mark hmark =>
    have hnational : dropNational (mark :: quoteChars value) = quoteChars value := by
      rw [dropNational, if_pos ⟨hmark, rfl⟩]
    have hplain : dropNational (quoteChars value) = quoteChars value :=
      dropNational_of_ne (by decide) (by decide) _
    rw [contentsChars, hnational, ← contentsChars_quoteChars value, contentsChars, hplain]
  | @alternative mark hmark opening =>
    have hnational := dropNational_of_ne (c := mark) (by rcases hmark with rfl | rfl <;> decide)
      (by rcases hmark with rfl | rfl <;> decide)
      ('\'' :: opening :: (value ++ [closingDelimiter opening, '\'']))
    have hbetween : between ('\'' :: opening :: (value ++ [closingDelimiter opening, '\''])) =
        some (opening :: (value ++ [closingDelimiter opening])) := by
      have hlast : opening :: (value ++ [closingDelimiter opening, '\'']) =
          opening :: (value ++ [closingDelimiter opening]) ++ ['\''] := by simp
      rw [between, if_pos rfl, hlast, dropSuffix_concat]
    have hdelimited : delimited (opening :: (value ++ [closingDelimiter opening])) =
        some value := dropSuffix_concat _ value
    rw [contentsChars, hnational]
    simp [hmark, hbetween, hdelimited]

theorem contents?_quote (value : String) : contents? (quote value) = some value := by
  rw [contents?, quote, String.toList_ofList, contentsChars_quoteChars, Option.map_some,
    String.ofList_toList]

/-! ### Writing -/

/-- The text is one string literal and nothing else. -/
def IsWhole (text : String) : Prop := Token.ofSource text = .ok [⟨⟨.stringLiteral, text⟩, 0⟩]

/-- A value in apostrophes is one literal. -/
theorem isWhole_quote (value : String) : IsWhole (quote value) := by
  have hmunch : munch '\'' (double value.toList ++ ['\'']) =
      .ok ⟨⟨.token .stringLiteral, quoteChars value.toList⟩, []⟩ := by
    have hmunches : Scan.Munches .stringLiteral '\'' (double value.toList ++ ['\'']) [] :=
      munches_quote_iff.2 ⟨rfl, closesQuote_double _, rfl⟩
    rw [Scan.Munches, append_nil] at hmunches
    exact hmunches
  have hlex : lex (quote value).toList =
      ⟨[⟨.token .stringLiteral, quoteChars value.toList⟩], none⟩ := by
    rw [quote, String.toList_ofList, quoteChars, cons_append, lex_cons_ok hmunch, lex_nil]
    rfl
  have hunfinished : (lex (quote value).toList).unfinished = none := by rw [hlex]
  rw [IsWhole, ofSource_eq_ok hunfinished, hlex]
  rfl

/-- Recasting writes the value of a literal in plain quotes, however it was spelled. -/
theorem literal_of_spells {text value : String} (h : Spells value.toList text.toList) :
    Recast.literal text = quote value := by
  have hcontents : contents? text = some value := by
    rw [contents?, contentsChars_of_spells h, Option.map_some, String.ofList_toList]
  unfold Recast.literal
  split
  next => rw [hcontents]
  next hmarked =>
    generalize hchars : text.toList = chars at h
    cases h with
    | plain => rw [quote, ← hchars, String.ofList_toList]
    | national hmark | alternative hmark =>
      refine absurd ?_ hmarked
      rw [Recast.isMarkedLiteral, hchars]
      rcases hmark with rfl | rfl <;> rfl

theorem recast_literal {t : Token} {value : String} (hkind : t.kind = .stringLiteral)
    (h : Spells value.toList t.text.toList) (ctx : Recast.Context) (afterInto : Bool)
    (rest : List Token) :
    Recast.recast ctx afterInto (t :: rest) =
      (Recast.recast ctx false rest).after [⟨.stringLiteral, quote value⟩] [] := by
  apply Recast.recast_write
  simp only [Recast.step, hkind, literal_of_spells h]

/-- The value of an initializer is read back from the one literal that is written for it. Every
string literal of a source has a value, and recasting puts that value in plain quotes in its place,
which again is one literal with the same value. -/
theorem value_kept :
    (∀ value, IsWhole (Initializer.string value).sql ∧
      contents? (Initializer.string value).sql = some value) ∧
    ∀ source ts, Token.ofSource source = .ok ts → ∀ t ∈ ts, t.kind = .stringLiteral →
      ∃ value, contents? t.text = some value ∧
        (∀ ctx afterInto rest, Recast.recast ctx afterInto (t :: rest) =
          (Recast.recast ctx false rest).after [⟨.stringLiteral, quote value⟩] []) ∧
        IsWhole (quote value) ∧ contents? (quote value) = some value := by
  refine ⟨fun value => ⟨isWhole_quote value, contents?_quote value⟩, ?_⟩
  intro source ts hsource t ht hkind
  have hscanned := (reads_iff_ofSource.2 ⟨ts, hsource, rfl⟩).scanned _ (mem_map_of_mem ht)
  obtain ⟨c, xs, rest, htext, hmunches⟩ := hscanned
  rw [hkind] at hmunches
  obtain ⟨value, hspells⟩ := exists_spells hmunches
  rw [← htext, ← String.toList_ofList (l := value)] at hspells
  refine ⟨String.ofList value, ?_, recast_literal hkind hspells, isWhole_quote _, contents?_quote _⟩
  rw [contents?, contentsChars_of_spells hspells, Option.map_some, String.ofList_toList]

/-- Apostrophes as delimiters, before other delimiters, and doubled at both ends. -/
def edgedLiterals : String := "q''it'' || Q'!'s'!' || N'''x'''"

theorem value_kept_edged :
    ∃ ts, Token.ofSource edgedLiterals = .ok ts ∧
      (ts.filter (·.kind == .stringLiteral)).map (contents? ·.text) =
        [some "it", some "'s'", some "'x'"] ∧
      ∀ t ∈ ts, t.kind = .stringLiteral → ∃ value, contents? t.text = some value ∧
        Recast.tokens (.plain .empty) [t] = (quote value, []) := by
  have hsource := ofSource_eq_ok
    (by decide +kernel : (lex edgedLiterals.toList).unfinished = none)
  refine ⟨_, hsource, by decide +kernel, fun t ht hkind => ?_⟩
  obtain ⟨value, hvalue, hrecast, _⟩ := value_kept.2 _ _ hsource t ht hkind
  refine ⟨value, hvalue, ?_⟩
  simp [Recast.tokens, hrecast, Recast.Result.after, Piece.render, Piece.renderChars,
    Piece.renderAfter]

end Literal

end TriggerDialect
