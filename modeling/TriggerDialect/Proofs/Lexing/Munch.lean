import TriggerDialect.Proofs.Lexing.Runs

/-!
# What ends a token

A token that was cut from one text is cut from another one that starts with it exactly if it does
not run into the rest of that text (`munches_iff_runsInto`). Whether it does is said class by class
in `runsInto`.
-/

namespace TriggerDialect.Scan

open List

variable {c : Char} {cs xs rest : List Char} {taken : Option (List Char × List Char)} {d : Char}
  {lead chars : List Char} {fault : Unterminated} {shape : Shape} {step : Cut} {kind' : Kind}

/-! ### Starts -/

/-- What is known of a text from the class of the lexeme that starts it. -/
def Announces (c : Char) (cs : List Char) : Start → Prop
  | .blank => Text.isAsciiBlank c = true
  | .lineComment => c = '-' ∧ cs.head? = some '-'
  | .blockComment => c = '/' ∧ cs.head? = some '*'
  | .string => c = '\''
  | .alternativeString => opensAlternative c cs = true
  | .nationalString => (c = 'n' ∨ c = 'N') ∧ cs.head? = some '\''
  | .quotedName => c = '"'
  | .number => c.isDigit = true ∨ (c = '.' ∧ startsWith Char.isDigit cs)
  | .word => isNameStart c = true
  | .bindVariable => c = ':' ∧ startsWith isNameStart cs
  | .mark => isMark c = true
  | .operator =>
    (Text.isAsciiBlank c || c == '\'' || c == '"' || c.isDigit || isNameStart c) = false ∧
      (isMark c = true → c = '.' ∧ cs.head? = some '.')

theorem announces_start (c : Char) (cs : List Char) : Announces c cs (start c cs) := by
  unfold start
  refine iteInduction (motive := Announces c cs) id fun hblank => ?_
  refine iteInduction (motive := Announces c cs) (fun h => ?_) fun _ => ?_
  · exact (Bool.and_eq_true_iff.1 h).imp beq_iff_eq.1 beq_iff_eq.1
  refine iteInduction (motive := Announces c cs) (fun h => ?_) fun _ => ?_
  · exact (Bool.and_eq_true_iff.1 h).imp beq_iff_eq.1 beq_iff_eq.1
  refine iteInduction (motive := Announces c cs) beq_iff_eq.1 fun hquote => ?_
  refine iteInduction (motive := Announces c cs) id fun _ => ?_
  refine iteInduction (motive := Announces c cs) (fun h => ?_) fun _ => ?_
  · simpa only [Announces, Bool.and_eq_true, Bool.or_eq_true, beq_iff_eq] using h
  refine iteInduction (motive := Announces c cs) beq_iff_eq.1 fun hdouble => ?_
  refine iteInduction (motive := Announces c cs) (fun h => ?_) fun hnumber => ?_
  · simpa only [Announces, Bool.and_eq_true, Bool.or_eq_true, beq_iff_eq] using h
  refine iteInduction (motive := Announces c cs) id fun hname => ?_
  refine iteInduction (motive := Announces c cs) (fun h => ?_) fun _ => ?_
  · exact (Bool.and_eq_true_iff.1 h).imp beq_iff_eq.1 id
  refine iteInduction (motive := Announces c cs) (fun h => ?_) fun hmark => ?_
  · exact (Bool.and_eq_true_iff.1 h).1
  simp only [Bool.or_eq_true, not_or, Bool.not_eq_true] at hblank hquote hdouble hnumber hname
  refine ⟨by rw [hblank, hquote, hdouble, hnumber.1, hname]; rfl, fun h => ?_⟩
  simpa [h] using hmark

theorem not_isDigit_of_isNameStart (h : isNameStart c) : c.isDigit = false := by
  delta isNameStart Char.isAlpha Char.isUpper Char.isLower at h
  simp only [Char.isDigit, Bool.or_eq_true, Bool.and_eq_true, decide_eq_true_eq, beq_iff_eq,
    Bool.and_eq_false_iff, decide_eq_false_iff_not, UInt32.le_iff_toNat_le, Char.toNat] at h ⊢
  rcases h with ((h | h) | rfl) | h
  · grind
  · grind
  · decide
  · grind

theorem start_quote : start '\'' cs = .string := rfl

theorem start_doubleQuote : start '"' cs = .quotedName := rfl

theorem start_digit (h : c.isDigit) : start c cs = .number := by
  have hne : ∀ d : Char, d.isDigit = false → c ≠ d := by
    rintro d hd rfl
    rw [h] at hd
    cases hd
  simp [start, Text.isAsciiBlank, opensAlternative, h, hne ' ', hne '\t', hne '\n', hne '\x0c',
    hne '\r', hne '-', hne '/', hne '\'', hne 'q', hne 'Q', hne 'n', hne 'N', hne '"']

theorem start_point (h : startsWith Char.isDigit cs) : start '.' cs = .number := by
  change (if (Char.isDigit '.' || startsWith Char.isDigit cs) = true then Start.number else _) = _
  rw [h]
  rfl

theorem start_bind (h : startsWith isNameStart cs) : start ':' cs = .bindVariable := by
  change (if startsWith isNameStart cs = true then Start.bindVariable else _) = _
  rw [h]
  rfl

/-- Whether an apostrophe after the character starts a literal together with it. -/
def opensLiteral (c : Char) (cs : List Char) : Bool :=
  opensAlternative c cs || ((c == 'n' || c == 'N') && cs.head? == some '\'')

theorem start_alternative (h : opensAlternative c cs) : start c cs = .alternativeString := by
  have hc : c = 'q' ∨ c = 'Q' := by
    simp only [opensAlternative, Bool.and_eq_true, Bool.or_eq_true, beq_iff_eq] at h
    exact h.1.1
  rcases hc with rfl | rfl
  all_goals
    change (if opensAlternative _ cs = true then Start.alternativeString else _) = _
    exact if_pos h

theorem start_national (hc : c = 'n' ∨ c = 'N') (h : cs.head? = some '\'') :
    start c cs = .nationalString := by
  have hhead : (cs.head? == some '\'') := beq_iff_eq.2 h
  rcases hc with rfl | rfl
  all_goals
    change (if (cs.head? == some '\'') = true then Start.nationalString else _) = _
    exact if_pos hhead

theorem start_word (h : isNameStart c) (hliteral : opensLiteral c cs = false) :
    start c cs = .word := by
  have hne : ∀ d : Char, isNameStart d = false → c ≠ d := by
    rintro d hd rfl
    rw [h] at hd
    cases hd
  rw [opensLiteral, Bool.or_eq_false_iff] at hliteral
  simp only [start, Text.isAsciiBlank, hliteral.1, hliteral.2, h, not_isDigit_of_isNameStart h,
    beq_eq_false_iff_ne.2 (hne ' ' rfl), beq_eq_false_iff_ne.2 (hne '\t' rfl),
    beq_eq_false_iff_ne.2 (hne '\n' rfl), beq_eq_false_iff_ne.2 (hne '\x0c' rfl),
    beq_eq_false_iff_ne.2 (hne '\r' rfl), beq_eq_false_iff_ne.2 (hne '-' rfl),
    beq_eq_false_iff_ne.2 (hne '/' rfl), beq_eq_false_iff_ne.2 (hne '\'' rfl),
    beq_eq_false_iff_ne.2 (hne '"' rfl), beq_eq_false_iff_ne.2 (hne '.' rfl), Bool.or_false,
    Bool.false_and, Bool.false_eq_true, if_false, if_true]

theorem start_mark (h : isMark c)
    (hpoint : c = '.' → startsWith (fun d => d.isDigit || d == '.') cs = false) :
    start c cs = .mark := by
  simp only [isMark, Bool.or_eq_true, beq_iff_eq] at h
  rcases h with (((rfl | rfl) | rfl) | rfl) | rfl
  · rfl
  · rfl
  · rfl
  · rfl
  · cases cs with
    | nil => rfl
    | cons d cs =>
      have hd := hpoint rfl
      simp only [startsWith_cons, Bool.or_eq_false_iff, beq_eq_false_iff_ne] at hd
      simp [start, Text.isAsciiBlank, opensAlternative, isNameStart, isMark, hd.1, hd.2]

/-- Whether an operator of the first character takes or changes the second one. -/
def joinsOperator (c d : Char) : Bool :=
  pairOperators.contains (c, d) || (c == '-' && d == '-') || (c == '/' && d == '*') ||
    (c == ':' && isNameStart d)

theorem start_operator
    (h : (Text.isAsciiBlank c || c == '\'' || c == '"' || c.isDigit || isNameStart c) = false)
    (hmark : isMark c = false) (hrest : startsWith (joinsOperator c) cs = false) :
    start c cs = .operator := by
  simp only [Bool.or_eq_false_iff] at h
  obtain ⟨⟨⟨⟨hblank, hquote⟩, hname⟩, hdigit⟩, hstart⟩ := h
  have hne : ∀ d : Char, isNameStart d → (c == d) = false := by
    intro d hd
    rw [beq_eq_false_iff_ne]
    rintro rfl
    rw [hd] at hstart
    cases hstart
  have hpoint : (c == '.') = false := by
    rw [isMark, Bool.or_eq_false_iff] at hmark
    exact hmark.2
  simp only [start, opensAlternative, hblank, hquote, hname, hdigit, hstart, hmark, hpoint,
    hne 'q' rfl, hne 'Q' rfl, hne 'n' rfl, hne 'N' rfl, Bool.or_false, Bool.false_and,
    Bool.false_eq_true, if_false]
  cases cs with
  | nil => simp
  | cons d cs =>
    simp only [startsWith_cons, joinsOperator, Bool.or_eq_false_iff] at hrest
    obtain ⟨⟨⟨_, hline⟩, hblock⟩, hbind⟩ := hrest
    have hsome : ∀ e : Char, (some d == some e) = (d == e) := fun e => rfl
    simp only [head?_cons, startsWith_cons, hsome, hline, hblock, hbind, Bool.false_eq_true,
      if_false]

/-- Only the next character matters for the class, unless it is an apostrophe. -/
theorem start_cons_congr (h : d ≠ '\'') (cs cs' : List Char) :
    start c (d :: cs) = start c (d :: cs') := by
  simp [start, opensAlternative, h]

theorem closed_iff {shape' : Shape} :
    closed fault shape lead taken = .ok ⟨⟨shape', chars⟩, rest⟩ ↔
      shape = shape' ∧ ∃ inner, taken = some (inner, rest) ∧ chars = lead ++ inner := by
  cases taken with
  | none => simp [closed]
  | some taken =>
    obtain ⟨inner, rest'⟩ := taken
    simp only [closed, cut, after, Except.ok.injEq, Cut.mk.injEq, Lexeme.mk.injEq,
      Option.some.injEq, Prod.mk.injEq]
    constructor
    · rintro ⟨⟨hshape, hchars⟩, hrest⟩
      exact ⟨hshape, inner, ⟨rfl, hrest⟩, hchars.symm⟩
    · rintro ⟨hshape, _, ⟨rfl, hrest⟩, hchars⟩
      exact ⟨⟨hshape, hchars.symm⟩, hrest⟩

theorem closed_shape (h : closed fault shape lead taken = .ok step) :
    step.lexeme.shape = shape := by
  obtain ⟨⟨shape', chars⟩, rest⟩ := step
  exact (closed_iff.1 h).1.symm

theorem cut_iff {kind : Kind} {taken : List Char × List Char} :
    (.ok (cut (.token kind) taken) : Except Unterminated Cut) = .ok ⟨⟨.token kind', chars⟩, rest⟩ ↔
      kind' = kind ∧ taken = (chars, rest) := by
  obtain ⟨chars', rest'⟩ := taken
  simp [cut, and_assoc, eq_comm (a := kind)]

theorem after_iff {inner : List Char} {taken : List Char × List Char} :
    after [c] taken = (c :: inner, rest) ↔ taken = (inner, rest) := by
  simp [after, Prod.ext_iff]

/-- The classes whose lexemes can have a shape. -/
def classes : Shape → List Start
  | .blank => [.blank]
  | .comment => [.lineComment, .blockComment]
  | .token .stringLiteral => [.string, .alternativeString, .nationalString]
  | .token .identifier => [.quotedName, .word]
  | .token .keyword => [.word]
  | .token .numericLiteral => [.number]
  | .token .bindVariable => [.bindVariable]
  | .token .punctuation => [.mark]
  | .token .operator => [.operator]
  | .token .trailing => []

theorem start_mem_classes (h : munch c cs = .ok step) : start c cs ∈ classes step.lexeme.shape := by
  rw [munch] at h
  cases hstart : start c cs with
  | blank | lineComment | number | bindVariable | mark | operator =>
    rw [hstart] at h
    cases h
    simp [cut, classes]
  | word =>
    rw [hstart] at h
    cases h
    simp only [word, cut]
    split <;> simp [classes]
  | blockComment | string | alternativeString | nationalString | quotedName =>
    rw [hstart] at h
    simp [closed_shape h, classes]

/-! ### What a token runs into -/

/-- Whether a word goes on with the text, or starts a literal together with it. -/
def extendsWord (word rest : List Char) : Bool :=
  startsWith isNamePart rest ||
    match word with
    | [c] => opensLiteral c rest
    | _ => false

theorem extendsWord_iff :
    extendsWord (c :: xs) rest = false ↔
      startsWith isNamePart rest = false ∧ (xs = [] → opensLiteral c rest = false) := by
  cases xs <;> simp [extendsWord]

/-- Whether an operator goes on with the text, or starts something else together with it. -/
def extendsOperator (operator rest : List Char) : Bool :=
  match operator with
  | [c] => startsWith (joinsOperator c) rest
  | _ => false

/-- Whether a token directly before the text takes part of it, or becomes something else. -/
def runsInto (kind : Kind) (text rest : List Char) : Bool :=
  match kind with
  | .stringLiteral =>
    !startsWith (fun c => c == 'q' || c == 'Q') text && startsWith (· == '\'') rest
  | .identifier =>
    if startsWith (· == '"') text then startsWith (· == '"') rest else extendsWord text rest
  | .keyword => extendsWord text rest
  | .numericLiteral => extendsNumber text rest
  | .bindVariable => extendsBind rest
  | .punctuation => text == ['.'] && startsWith (fun d => d.isDigit || d == '.') rest
  | .operator => extendsOperator text rest
  | .trailing => false

variable {rest' : List Char} {kind : Kind}

/-- Whether the first lexeme of the text is this token, with this rest after it. -/
def Munches (kind : Kind) (c : Char) (xs rest : List Char) : Prop :=
  munch c (xs ++ rest) = .ok ⟨⟨.token kind, c :: xs⟩, rest⟩

theorem closed_throughQuote_iff {quote : Char} :
    closed .string (.token kind') lead (throughQuote quote (xs ++ rest)) =
        .ok ⟨⟨.token kind, lead ++ xs⟩, rest⟩ ↔
      kind = kind' ∧ closesQuote quote xs ∧ startsWith (· == quote) rest = false := by
  simp only [closed_iff, throughQuote_iff, Shape.token.injEq, append_cancel_left_eq]
  constructor
  · rintro ⟨rfl, _, ⟨_, hcloses, hrest⟩, rfl⟩
    exact ⟨rfl, hcloses, hrest⟩
  · rintro ⟨rfl, hcloses, hrest⟩
    exact ⟨rfl, xs, ⟨rfl, hcloses, hrest⟩, rfl⟩

theorem munches_quote_iff :
    Munches kind '\'' xs rest ↔
      kind = .stringLiteral ∧ closesQuote '\'' xs ∧ startsWith (· == '\'') rest = false := by
  rw [Munches, munch, start_quote]
  exact closed_throughQuote_iff

theorem munches_doubleQuote_iff :
    Munches kind '"' xs rest ↔
      kind = .identifier ∧ closesQuote '"' xs ∧ startsWith (· == '"') rest = false := by
  rw [Munches, munch, start_doubleQuote]
  exact closed_throughQuote_iff

theorem munches_national_iff (hc : c = 'n' ∨ c = 'N') :
    Munches kind c ('\'' :: xs) rest ↔
      kind = .stringLiteral ∧ closesQuote '\'' xs ∧ startsWith (· == '\'') rest = false := by
  have hstart : start c ('\'' :: (xs ++ rest)) = .nationalString := start_national hc rfl
  rw [Munches, munch, cons_append, hstart]
  exact closed_throughQuote_iff

theorem munches_alternative_iff (hc : c = 'q' ∨ c = 'Q') :
    Munches kind c ('\'' :: d :: xs) rest ↔
      kind = .stringLiteral ∧ d.toNat < 128 ∧ closesPair (closingDelimiter d) '\'' xs := by
  have hopens : opensAlternative c ('\'' :: d :: (xs ++ rest)) := by
    rcases hc with rfl | rfl <;> simp [opensAlternative]
  simp only [Munches, munch, start_alternative hopens, closed_iff, cons_append, take_succ_cons,
    take_zero, drop_succ_cons, drop_zero, getD_cons_succ, getD_cons_zero, throughDelimiter,
    Shape.token.injEq, nil_append, cons.injEq, true_and]
  constructor
  · rintro ⟨rfl, _, htaken, rfl⟩
    split at htaken
    · rename_i hascii
      exact ⟨rfl, hascii, (throughPair_iff.1 htaken).2⟩
    · cases htaken
  · rintro ⟨rfl, hascii, hcloses⟩
    refine ⟨rfl, xs, ?_, rfl⟩
    rw [if_pos hascii]
    exact throughPair_iff.2 ⟨rfl, hcloses⟩

theorem munches_number_iff (hc : c.isDigit ∨ (c = '.' ∧ startsWith Char.isDigit xs)) :
    Munches kind c xs rest ↔ kind = .numericLiteral ∧ number c (xs ++ rest) = (c :: xs, rest) := by
  have hstart : start c (xs ++ rest) = .number := by
    rcases hc with hc | ⟨rfl, hxs⟩
    · exact start_digit hc
    · refine start_point ?_
      rwa [startsWith_append]
      rintro rfl
      cases hxs
  rw [Munches, munch, hstart]
  exact cut_iff

/-- The class of a name. -/
def wordKind (word : List Char) : Kind :=
  if isReserved (String.ofList word) then .keyword else .identifier

theorem opensLiteral_append (hall : xs.all isNamePart)
    (hrest : extendsWord (c :: xs) rest = false) : opensLiteral c (xs ++ rest) = false := by
  cases xs with
  | nil => exact (extendsWord_iff.1 hrest).2 rfl
  | cons x xs =>
    rw [all_cons, Bool.and_eq_true] at hall
    have hx : x ≠ '\'' := by
      rintro rfl
      exact absurd hall.1 (by decide)
    simp [opensLiteral, opensAlternative, hx]

theorem munches_word_iff (hc : isNameStart c) (hkind : kind ≠ .stringLiteral) :
    Munches kind c xs rest ↔
      kind = wordKind (c :: xs) ∧ xs.all isNamePart ∧
        extendsWord (c :: xs) rest = false := by
  constructor
  · intro h
    have hliteral : opensLiteral c (xs ++ rest) = false := by
      rw [← Bool.not_eq_true]
      intro hliteral
      simp only [opensLiteral, Bool.or_eq_true, Bool.and_eq_true, beq_iff_eq] at hliteral
      rcases hliteral with hopens | ⟨hcn, hhead⟩
      · rw [Munches, munch, start_alternative hopens] at h
        exact hkind (Shape.token.inj (closed_iff.1 h).1).symm
      · rw [Munches, munch, start_national hcn hhead] at h
        exact hkind (Shape.token.inj (closed_iff.1 h).1).symm
    rw [Munches, munch, start_word hc hliteral] at h
    obtain ⟨rfl, htaken⟩ := cut_iff.1 h
    obtain ⟨hname, hdrop⟩ := Prod.mk.inj htaken
    obtain ⟨_, hall, hrest⟩ := takeWhile_iff.1 ⟨(cons.inj hname).2, hdrop⟩
    refine ⟨by rw [wordKind, hname], hall, extendsWord_iff.2 ⟨hrest, ?_⟩⟩
    rintro rfl
    exact hliteral
  · rintro ⟨rfl, hall, hrest⟩
    obtain ⟨htake, hdrop⟩ := takeWhile_iff.2 ⟨rfl, hall, (extendsWord_iff.1 hrest).1⟩
    simp only [Munches, munch, start_word hc (opensLiteral_append hall hrest), word, htake, hdrop]
    rfl

theorem munches_bind_iff (hxs : startsWith isNameStart xs) :
    Munches kind ':' xs rest ↔
      kind = .bindVariable ∧ isDotted xs ∧ extendsBind rest = false := by
  have hstart : start ':' (xs ++ rest) = .bindVariable := by
    refine start_bind ?_
    rwa [startsWith_append]
    rintro rfl
    cases hxs
  rw [Munches, munch, hstart, cut_iff, after_iff, dottedName_iff]
  simp

theorem munches_mark_iff (hc : isMark c) :
    Munches .punctuation c [] rest ↔
      (c = '.' → startsWith (fun d => d.isDigit || d == '.') rest = false) := by
  constructor
  · rintro h rfl
    cases rest with
    | nil => rfl
    | cons d rest =>
      simp only [startsWith_cons, ← Bool.not_eq_true, Bool.or_eq_true, beq_iff_eq]
      rintro (hdigit | rfl)
      · have hstart : start '.' (d :: rest) = .number := start_point hdigit
        rw [Munches, munch, nil_append, hstart] at h
        cases h
      · cases h
  · intro hrest
    rw [Munches, munch, nil_append, start_mark hc hrest]
    rfl

theorem start_of_munches_operator (h : Munches .operator c xs rest) :
    start c (xs ++ rest) = .operator := mem_singleton.1 (start_mem_classes h)

theorem operator_pair (h : pairOperators.contains (c, d)) :
    operator c (d :: cs) = ([c, d], cs) := if_pos h

theorem operator_single (h : pairOperators.contains (c, d) = false) :
    operator c (d :: cs) = ([c], d :: cs) := if_neg (by rw [h]; exact Bool.false_ne_true)

theorem munches_operator_iff
    (hc : (Text.isAsciiBlank c || c == '\'' || c == '"' || c.isDigit || isNameStart c) = false)
    (hmark : isMark c = false) :
    Munches .operator c [] rest ↔ startsWith (joinsOperator c) rest = false := by
  constructor
  · intro h
    have hstart := start_of_munches_operator h
    rw [Munches, munch, hstart, nil_append] at h
    cases rest with
    | nil => rfl
    | cons d rest =>
      rw [nil_append] at hstart
      have hpair : pairOperators.contains (c, d) = false := by
        rw [← Bool.not_eq_true]
        intro hpair
        simp [operator_pair hpair, cut] at h
      rw [startsWith_cons, joinsOperator, hpair, ← Bool.not_eq_true]
      simp only [Bool.false_or, Bool.or_eq_true, Bool.and_eq_true, beq_iff_eq]
      rintro ((⟨rfl, rfl⟩ | ⟨rfl, rfl⟩) | ⟨rfl, hname⟩)
      · cases hstart
      · cases hstart
      · have hbind : start ':' (d :: rest) = .bindVariable := start_bind hname
        rw [hbind] at hstart
        cases hstart
  · intro hrest
    rw [Munches, munch, nil_append, start_operator hc hmark hrest]
    cases rest with
    | nil => rfl
    | cons d rest =>
      have hpair : pairOperators.contains (c, d) = false := by
        simp only [startsWith_cons, joinsOperator, Bool.or_eq_false_iff] at hrest
        exact hrest.1.1.1
      simp [operator_single hpair, cut]

theorem ne_quote_of_pairOperators (h : pairOperators.contains (c, d)) : d ≠ '\'' := by
  rintro rfl
  simp [pairOperators] at h

theorem munches_pair (hpair : pairOperators.contains (c, d))
    (h : start c (d :: rest') = .operator) : Munches .operator c [d] rest := by
  rw [Munches, munch, singleton_append, start_cons_congr (ne_quote_of_pairOperators hpair) _ rest',
    h]
  simp [operator_pair hpair, cut]

/-- What was cut as a literal with a mark before its apostrophe has both in it. -/
theorem exists_of_munches_literal (h : Munches kind c xs rest')
    (hliteral : opensLiteral c (xs ++ rest')) :
    (∃ d ys, xs = '\'' :: d :: ys ∧ (c = 'q' ∨ c = 'Q')) ∨
      ∃ ys, xs = '\'' :: ys ∧ (c = 'n' ∨ c = 'N') := by
  simp only [opensLiteral, Bool.or_eq_true, Bool.and_eq_true, beq_iff_eq] at hliteral
  rcases hliteral with hopens | ⟨hc, hhead⟩
  · rw [Munches, munch, start_alternative hopens] at h
    obtain ⟨_, inner, _, hchars⟩ := closed_iff.1 h
    simp only [opensAlternative, Bool.and_eq_true, Bool.or_eq_true, beq_iff_eq,
      decide_eq_true_eq] at hopens
    obtain ⟨⟨hc, hhead⟩, hlength⟩ := hopens
    generalize xs ++ rest' = cs at hchars hhead hlength
    obtain _ | ⟨a, _ | ⟨d, cs⟩⟩ := cs
    · cases hhead
    · simp at hlength
    · cases hhead
      cases hchars
      exact .inl ⟨d, inner, rfl, hc⟩
  · rw [Munches, munch, start_national hc hhead] at h
    obtain ⟨_, inner, _, hchars⟩ := closed_iff.1 h
    generalize xs ++ rest' = cs at hchars hhead
    cases cs with
    | nil => cases hhead
    | cons a cs =>
      cases hhead
      cases hchars
      exact .inr ⟨inner, rfl, hc⟩

theorem munches_literal_iff (h : Munches kind c xs rest')
    (hliteral : opensLiteral c (xs ++ rest')) :
    Munches kind c xs rest ↔ runsInto kind (c :: xs) rest = false := by
  rcases exists_of_munches_literal h hliteral with ⟨d, ys, rfl, hc⟩ | ⟨ys, rfl, hc⟩
  · obtain ⟨rfl, hascii, hcloses⟩ := (munches_alternative_iff hc).1 h
    rw [munches_alternative_iff hc]
    rcases hc with rfl | rfl <;> simp [hascii, hcloses, runsInto]
  · obtain ⟨rfl, hcloses, _⟩ := (munches_national_iff hc).1 h
    rw [munches_national_iff hc]
    rcases hc with rfl | rfl <;> simp [hcloses, runsInto]

theorem munches_numeric_iff (h : Munches kind c xs rest')
    (hc : c.isDigit ∨ (c = '.' ∧ startsWith Char.isDigit (xs ++ rest'))) :
    Munches kind c xs rest ↔ runsInto kind (c :: xs) rest = false := by
  have hmunch := h
  have hstart : start c (xs ++ rest') = .number := by
    rcases hc with hc | ⟨rfl, hdigit⟩
    · exact start_digit hc
    · exact start_point hdigit
  have hc' : c.isDigit ∨ c = '.' := hc.imp id And.left
  rw [Munches, munch, hstart] at hmunch
  obtain ⟨rfl, htaken⟩ := cut_iff.1 hmunch
  obtain ⟨_, hends, hparts⟩ := (number_iff hc').1 htaken
  have hxs : c.isDigit ∨ (c = '.' ∧ startsWith Char.isDigit xs) := by
    refine hc.imp id fun hpoint => ⟨hpoint.1, ?_⟩
    obtain ⟨_, hdigit⟩ := hpoint
    cases xs with
    | cons x xs => exact hdigit
    | nil =>
      rw [extendsNumber, Bool.or_eq_false_iff] at hends
      rw [nil_append, hends.1] at hdigit
      cases hdigit
  rw [munches_number_iff hxs, number_iff hc', runsInto]
  exact ⟨fun h => h.2.2.1, fun h => ⟨rfl, rfl, h, hparts⟩⟩

/-- A token that was cut from one text is cut from another exactly if it does not run into what
follows it there. -/
theorem munches_iff_runsInto (h : Munches kind c xs rest') :
    Munches kind c xs rest ↔ runsInto kind (c :: xs) rest = false := by
  have hknown := announces_start c (xs ++ rest')
  have hmunch := h
  rw [Munches, munch] at hmunch
  have hshape := start_mem_classes h
  cases hstart : start c (xs ++ rest') with
  | blank | lineComment | blockComment =>
    rw [hstart] at hshape
    cases kind <;> simp [classes] at hshape
  | string =>
    rw [hstart] at hknown
    obtain rfl : c = '\'' := hknown
    obtain ⟨rfl, hcloses, _⟩ := munches_quote_iff.1 h
    simp [munches_quote_iff, hcloses, runsInto]
  | alternativeString =>
    rw [hstart] at hknown
    have hopens : opensAlternative c (xs ++ rest') := hknown
    exact munches_literal_iff h (by rw [opensLiteral, hopens, Bool.true_or])
  | nationalString =>
    rw [hstart] at hknown
    obtain ⟨hc, hhead⟩ : (c = 'n' ∨ c = 'N') ∧ (xs ++ rest').head? = some '\'' := hknown
    exact munches_literal_iff h (by rcases hc with rfl | rfl <;> simp [opensLiteral, hhead])
  | quotedName =>
    rw [hstart] at hknown
    obtain rfl : c = '"' := hknown
    obtain ⟨rfl, hcloses, _⟩ := munches_doubleQuote_iff.1 h
    simp [munches_doubleQuote_iff, hcloses, runsInto]
  | number =>
    rw [hstart] at hknown
    exact munches_numeric_iff h hknown
  | word =>
    rw [hstart] at hknown hmunch
    have hc : isNameStart c := hknown
    have hkind : kind ≠ .stringLiteral := by
      rintro rfl
      simp [classes, hstart] at hshape
    obtain ⟨rfl, hall, _⟩ := (munches_word_iff hc hkind).1 h
    have hquoted : startsWith (· == '"') (c :: xs) = false := by
      rw [startsWith_cons, beq_eq_false_iff_ne]
      rintro rfl
      exact absurd hc (by decide)
    have hruns : runsInto (wordKind (c :: xs)) (c :: xs) rest = extendsWord (c :: xs) rest := by
      unfold wordKind
      split
      · rfl
      · simp only [runsInto, hquoted, Bool.false_eq_true, if_false]
    rw [munches_word_iff hc hkind, hruns]
    exact ⟨fun h => h.2.2, fun h => ⟨rfl, hall, h⟩⟩
  | bindVariable =>
    rw [hstart] at hknown hmunch
    obtain ⟨rfl, hname⟩ : c = ':' ∧ startsWith isNameStart (xs ++ rest') := hknown
    obtain ⟨rfl, htaken⟩ := cut_iff.1 hmunch
    obtain ⟨_, hdotted, hends⟩ := dottedName_iff.1 (after_iff.1 htaken)
    have hxs : startsWith isNameStart xs := by
      cases xs with
      | cons x xs => exact hname
      | nil =>
        cases rest' with
        | nil => cases hname
        | cons d rest' =>
          rw [extendsBind, isNamePart_of_isNameStart hname] at hends
          cases hends
    rw [munches_bind_iff hxs, runsInto]
    exact ⟨fun h => h.2.2, fun h => ⟨rfl, hdotted, h⟩⟩
  | mark =>
    rw [hstart] at hknown hmunch
    cases hmunch
    rw [munches_mark_iff hknown, runsInto]
    by_cases hpoint : c = '.' <;> simp [hpoint]
  | operator =>
    rw [hstart] at hknown hmunch
    obtain ⟨hclass, hmark⟩ := hknown
    obtain ⟨rfl, hchars⟩ := cut_iff.1 hmunch
    cases xs with
    | cons d xs =>
      rw [cons_append] at hchars hstart
      cases hpair : pairOperators.contains (c, d) with
      | false => simp [operator_single hpair] at hchars
      | true =>
        rw [operator_pair hpair] at hchars
        cases hchars
        exact iff_of_true (munches_pair hpair hstart) rfl
    | nil =>
      rw [nil_append] at hchars hmark
      have hnone : isMark c = false := by
        rw [← Bool.not_eq_true]
        intro hc
        obtain ⟨rfl, hhead⟩ := hmark hc
        cases rest' with
        | nil => cases hhead
        | cons d rest' =>
          cases hhead
          cases hchars
      exact munches_operator_iff hclass hnone

end TriggerDialect.Scan
