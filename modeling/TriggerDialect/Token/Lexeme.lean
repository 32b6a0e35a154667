import TriggerDialect.Token.Basic

/-!
# Lexemes

The scanner cuts a text into lexemes: runs of blanks, comments and tokens. One step looks at the
first character and what follows it and takes the longest lexeme of the class that it starts.
Main statements: what a step takes and what it leaves make up the text (`munch_append`), and a
step always takes something (`munch_taken_ne_nil`).
-/

namespace TriggerDialect

open List

variable {cs : List Char} {c : Char}

/-- The classes of lexemes. -/
inductive Shape where
  | blank
  | comment
  | token (kind : Kind)
deriving Repr, DecidableEq

/-- What can be left open at the end of a text. -/
inductive Unterminated where
  | string
  | comment
deriving Repr, DecidableEq

/-- A classified run of characters. -/
structure Lexeme where
  shape : Shape
  chars : List Char
deriving Repr, DecidableEq

/-- One lexeme and the text after it. -/
structure Cut where
  lexeme : Lexeme
  rest : List Char
deriving Repr, DecidableEq

namespace Scan

variable {cs : List Char} {taken : List Char × List Char} {result : Cut} {c : Char}

/-- A character that can start a name. Every character beyond ASCII can. -/
def isNameStart (c : Char) : Bool := c.isAlpha || c == '_' || 128 ≤ c.toNat

/-- A character that can stand inside a name. -/
def isNamePart (c : Char) : Bool :=
  c.isAlphanum || c == '_' || c == '$' || c == '#' || 128 ≤ c.toNat

/-- Whether the text starts with a character that satisfies `p`. -/
def startsWith (p : Char → Bool) : List Char → Bool
  | [] => false
  | c :: _ => p c

/-- Through the first `quote` that is not doubled. A doubled one stands for itself. -/
def throughQuote (quote : Char) : List Char → Option (List Char × List Char)
  | [] => none
  | [c] => if c = quote then some ([c], []) else none
  | c :: d :: rest =>
    if c = quote then
      if d = quote then (throughQuote quote rest).map fun cut => (c :: d :: cut.1, cut.2)
      else some ([c], d :: rest)
    else (throughQuote quote (d :: rest)).map fun cut => (c :: cut.1, cut.2)

/-- Through the first `first` that is directly followed by `second`. -/
def throughPair (first second : Char) : List Char → Option (List Char × List Char)
  | [] => none
  | [_] => none
  | c :: d :: rest =>
    if c = first ∧ d = second then some ([c, d], rest)
    else (throughPair first second (d :: rest)).map fun cut => (c :: cut.1, cut.2)

/-- The character that closes an alternative quotation opened by `opening`. -/
def closingDelimiter (opening : Char) : Char :=
  if opening = '[' then ']'
  else if opening = '\x7b' then '\x7d'
  else if opening = '(' then ')'
  else if opening = '<' then '>'
  else opening

/-- Through the end of an alternative quotation whose delimiter is `opening`. A delimiter beyond
ASCII never closes one. -/
def throughDelimiter (opening : Char) (cs : List Char) : Option (List Char × List Char) :=
  if opening.toNat < 128 then throughPair (closingDelimiter opening) '\'' cs else none

/-- A decimal point and the digits after it, if there are any. -/
def fraction : List Char → List Char × List Char
  | '.' :: rest =>
    if startsWith Char.isDigit rest then
      ('.' :: rest.takeWhile Char.isDigit, rest.dropWhile Char.isDigit)
    else ([], '.' :: rest)
  | cs => ([], cs)

/-- An exponent mark, an optional sign and digits, if all of it is there. -/
def exponent : List Char → List Char × List Char
  | [] => ([], [])
  | e :: cs =>
    if e = 'e' ∨ e = 'E' then
      if startsWith Char.isDigit cs then
        (e :: cs.takeWhile Char.isDigit, cs.dropWhile Char.isDigit)
      else match cs with
        | [] => ([], [e])
        | sign :: rest =>
          if (sign = '+' ∨ sign = '-') ∧ startsWith Char.isDigit rest then
            (e :: sign :: rest.takeWhile Char.isDigit, rest.dropWhile Char.isDigit)
          else ([], e :: sign :: rest)
    else ([], e :: cs)

/-- The number whose first character is `c`, a digit or a decimal point: digits, a fraction where
there was no point yet, and an exponent. Two dots in a row are no decimal point. -/
def number (c : Char) (cs : List Char) : List Char × List Char :=
  let digits := cs.takeWhile Char.isDigit
  let left := cs.dropWhile Char.isDigit
  let part := if c = '.' then ([], left) else fraction left
  let power := exponent part.2
  (c :: digits ++ part.1 ++ power.1, power.2)

/-- The rest of a bind variable: name characters, and dots that a further name follows. -/
def dottedName : List Char → List Char × List Char
  | [] => ([], [])
  | c :: cs =>
    if isNamePart c || (c == '.' && startsWith isNameStart cs) then
      let cut := dottedName cs
      (c :: cut.1, cut.2)
    else ([], c :: cs)

/-- The operators of two characters. -/
def pairOperators : List (Char × Char) :=
  [(':', '='), ('=', '>'), ('<', '>'), ('!', '='), ('^', '='), ('~', '='), ('<', '='), ('>', '='),
    ('|', '|'), ('.', '.'), ('<', '<'), ('>', '>'), ('*', '*')]

/-- An operator, of two characters where they make one. -/
def operator (c : Char) : List Char → List Char × List Char
  | [] => ([c], [])
  | d :: cs => if pairOperators.contains (c, d) then ([c, d], cs) else ([c], d :: cs)

/-- A single character that is a token of its own. -/
def isMark (c : Char) : Bool := c == '(' || c == ')' || c == ',' || c == ';' || c == '.'

/-- A lexeme of the given shape, out of what was taken and what is left. -/
def cut (shape : Shape) (taken : List Char × List Char) : Cut := ⟨⟨shape, taken.1⟩, taken.2⟩

/-- Puts characters before what was taken. -/
def after (lead : List Char) (taken : List Char × List Char) : List Char × List Char :=
  (lead ++ taken.1, taken.2)

/-- A lexeme that a closing mark must end, or the fault that it is missing. -/
def closed (fault : Unterminated) (shape : Shape) (lead : List Char)
    (taken : Option (List Char × List Char)) : Except Unterminated Cut :=
  match taken with
  | none => .error fault
  | some taken => .ok (cut shape (after lead taken))

/-- The name at the start of the text, reserved or not. -/
def word (c : Char) (cs : List Char) : Cut :=
  let name := c :: cs.takeWhile isNamePart
  let kind := if isReserved (String.ofList name) then Kind.keyword else Kind.identifier
  cut (.token kind) (name, cs.dropWhile isNamePart)

/-- Whether the text opens an alternative quotation: `q`, an apostrophe and a delimiter. -/
def opensAlternative (c : Char) (cs : List Char) : Bool :=
  (c == 'q' || c == 'Q') && cs.head? == some '\'' && 2 ≤ cs.length

/-- What the start of a text announces. -/
inductive Start where
  | blank
  | lineComment
  | blockComment
  | string
  | alternativeString
  | nationalString
  | quotedName
  | number
  | word
  | bindVariable
  | mark
  | operator
deriving Repr, DecidableEq

/-- The class of the lexeme that starts the text `c :: cs`. -/
def start (c : Char) (cs : List Char) : Start :=
  if Text.isAsciiBlank c then .blank
  else if c == '-' && cs.head? == some '-' then .lineComment
  else if c == '/' && cs.head? == some '*' then .blockComment
  else if c == '\'' then .string
  else if opensAlternative c cs then .alternativeString
  else if (c == 'n' || c == 'N') && cs.head? == some '\'' then .nationalString
  else if c == '"' then .quotedName
  else if c.isDigit || (c == '.' && startsWith Char.isDigit cs) then .number
  else if isNameStart c then .word
  else if c == ':' && startsWith isNameStart cs then .bindVariable
  else if isMark c && !(c == '.' && cs.head? == some '.') then .mark
  else .operator

/-- The first lexeme of the text `c :: cs`. -/
def munch (c : Char) (cs : List Char) : Except Unterminated Cut :=
  match start c cs with
  | .blank =>
    .ok (cut .blank (c :: cs.takeWhile Text.isAsciiBlank, cs.dropWhile Text.isAsciiBlank))
  | .lineComment =>
    .ok (cut .comment (c :: cs.takeWhile (· != '\n'), cs.dropWhile (· != '\n')))
  | .blockComment => closed .comment .comment (c :: cs.take 1) (throughPair '*' '/' (cs.drop 1))
  | .string => closed .string (.token .stringLiteral) [c] (throughQuote '\'' cs)
  | .alternativeString =>
    closed .string (.token .stringLiteral) (c :: cs.take 2)
      (throughDelimiter (cs.getD 1 '\'') (cs.drop 2))
  | .nationalString =>
    closed .string (.token .stringLiteral) (c :: cs.take 1) (throughQuote '\'' (cs.drop 1))
  | .quotedName => closed .string (.token .identifier) [c] (throughQuote '"' cs)
  | .number => .ok (cut (.token .numericLiteral) (number c cs))
  | .word => .ok (word c cs)
  | .bindVariable => .ok (cut (.token .bindVariable) (after [c] (dottedName cs)))
  | .mark => .ok (cut (.token .punctuation) ([c], cs))
  | .operator => .ok (cut (.token .operator) (operator c cs))

/-! ### Nothing is lost -/

/-- A quoted run and the rest are the text. -/
theorem throughQuote_append {quote : Char} (h : throughQuote quote cs = some taken) :
    taken.1 ++ taken.2 = cs := by
  fun_induction throughQuote quote cs generalizing taken with
  | case1 => cases h
  | case2 => cases h; rfl
  | case3 => cases h
  | case4 rest ih =>
    obtain ⟨inner, hinner, rfl⟩ := Option.map_eq_some_iff.1 h
    simp [ih hinner]
  | case5 d rest => cases h; rfl
  | case6 c d rest _ ih =>
    obtain ⟨inner, hinner, rfl⟩ := Option.map_eq_some_iff.1 h
    simp [ih hinner]

/-- So it is with a run up to a pair. -/
theorem throughPair_append {first second : Char} (h : throughPair first second cs = some taken) :
    taken.1 ++ taken.2 = cs := by
  fun_induction throughPair first second cs generalizing taken with
  | case1 => cases h
  | case2 => cases h
  | case3 => cases h; rfl
  | case4 c d rest _ ih =>
    obtain ⟨inner, hinner, rfl⟩ := Option.map_eq_some_iff.1 h
    simp [ih hinner]

/-- So it is with a run up to a delimiter. -/
theorem throughDelimiter_append {opening : Char} (h : throughDelimiter opening cs = some taken) :
    taken.1 ++ taken.2 = cs := by
  unfold throughDelimiter at h
  split at h
  · exact throughPair_append h
  · cases h

/-- A fraction and the rest are the text. -/
theorem fraction_append (cs : List Char) : (fraction cs).1 ++ (fraction cs).2 = cs := by
  unfold fraction
  split
  · split <;> simp
  · simp

/-- An exponent and the rest are the text. -/
theorem exponent_append (cs : List Char) : (exponent cs).1 ++ (exponent cs).2 = cs := by
  unfold exponent
  repeat' split
  all_goals simp

/-- A number and the rest are the text. -/
theorem number_append (c : Char) (cs : List Char) :
    (number c cs).1 ++ (number c cs).2 = c :: cs := by
  have hpart : ∀ left : List Char,
      let part := if c = '.' then ([], left) else fraction left
      part.1 ++ part.2 = left := by
    intro left
    split
    · rfl
    · exact fraction_append left
  simp [number, exponent_append, hpart]

/-- A dotted name and the rest are the text. -/
theorem dottedName_append (cs : List Char) : (dottedName cs).1 ++ (dottedName cs).2 = cs := by
  induction cs with
  | nil => rfl
  | cons c cs ih =>
    unfold dottedName
    split
    · simpa using ih
    · rfl

/-- An operator takes its first character. -/
theorem operator_taken (c : Char) (cs : List Char) :
    ∃ xs, (operator c cs).1 = c :: xs ∧ xs ++ (operator c cs).2 = cs := by
  unfold operator
  repeat' split
  all_goals exact ⟨_, rfl, rfl⟩

/-- A lexeme that closes takes its first character. -/
theorem closed_taken {fault : Unterminated} {shape : Shape} {lead : List Char}
    {taken : Option (List Char × List Char)} (h : closed fault shape (c :: lead) taken = .ok result)
    (hcs : ∀ pair, taken = some pair → lead ++ (pair.1 ++ pair.2) = cs) :
    ∃ xs, result.lexeme.chars = c :: xs ∧ xs ++ result.rest = cs := by
  unfold closed at h
  split at h
  · cases h
  · cases h
    exact ⟨_, rfl, (append_assoc ..).trans (hcs _ rfl)⟩

/-- What a step takes starts with the first character of the text; what it leaves is the rest. -/
theorem munch_taken (h : munch c cs = .ok result) :
    ∃ xs, result.lexeme.chars = c :: xs ∧ xs ++ result.rest = cs := by
  rw [munch] at h
  split at h
  · cases h; exact ⟨_, rfl, takeWhile_append_dropWhile⟩
  · cases h; exact ⟨_, rfl, takeWhile_append_dropWhile⟩
  · exact closed_taken h fun _ hpair => by rw [throughPair_append hpair, take_append_drop]
  · exact closed_taken h fun _ => throughQuote_append
  · exact closed_taken h fun _ hpair => by
      rw [throughDelimiter_append hpair, take_append_drop]
  · exact closed_taken h fun _ hpair => by rw [throughQuote_append hpair, take_append_drop]
  · exact closed_taken h fun _ => throughQuote_append
  · cases h; exact ⟨_, rfl, (cons.inj (number_append c cs)).2⟩
  · cases h; exact ⟨_, rfl, takeWhile_append_dropWhile⟩
  · cases h; exact ⟨_, rfl, dottedName_append cs⟩
  · cases h; exact ⟨[], rfl, rfl⟩
  · cases h; exact operator_taken c cs

/-- What a step takes and what it leaves make up the text. -/
theorem munch_append (h : munch c cs = .ok result) :
    result.lexeme.chars ++ result.rest = c :: cs := by
  obtain ⟨xs, hchars, hrest⟩ := munch_taken h
  rw [hchars, cons_append, hrest]

/-- A step takes at least one character. -/
theorem munch_taken_ne_nil (h : munch c cs = .ok result) : result.lexeme.chars ≠ [] := by
  obtain ⟨xs, hchars, -⟩ := munch_taken h
  rw [hchars]
  exact cons_ne_nil c xs

/-- What a step leaves is shorter than the text it started from. -/
theorem munch_rest_lt (h : munch c cs = .ok result) : result.rest.length < (c :: cs).length := by
  obtain ⟨xs, -, rfl⟩ := munch_taken h
  simp only [length_cons, length_append]
  omega

end Scan

/-- A text as lexemes, with the construct that is still open at its end, if one is. -/
structure Lexing where
  lexemes : List Lexeme
  /-- What is left open and the text from its start. -/
  unfinished : Option (Unterminated × List Char)
deriving Repr, DecidableEq

/-- All lexemes of a text, up to one that is left open. -/
def lex : List Char → Lexing
  | [] => ⟨[], none⟩
  | c :: cs =>
    match h : Scan.munch c cs with
    | .error fault => ⟨[], some (fault, c :: cs)⟩
    | .ok step =>
      have : step.rest.length < (c :: cs).length := Scan.munch_rest_lt h
      let later := lex step.rest
      ⟨step.lexeme :: later.lexemes, later.unfinished⟩
termination_by cs => cs.length
decreasing_by
  all_goals
    simp only [length_cons] at *
    omega

/-- An empty text has no lexemes. -/
@[simp] theorem lex_nil : lex [] = ⟨[], none⟩ := by
  unfold lex
  rfl

/-- A text stops at a lexeme that does not close. -/
theorem lex_cons_error {fault : Unterminated} (h : Scan.munch c cs = .error fault) :
    lex (c :: cs) = ⟨[], some (fault, c :: cs)⟩ := by
  rw [lex]
  split <;> simp_all

/-- A text goes on after a lexeme. -/
theorem lex_cons_ok {step : Cut} (h : Scan.munch c cs = .ok step) :
    lex (c :: cs) =
      ⟨step.lexeme :: (lex step.rest).lexemes, (lex step.rest).unfinished⟩ := by
  rw [lex]
  split <;> simp_all

end TriggerDialect
