import TriggerDialect.Text.Hexadecimal

/-!
# Blanks, comments and strings of TOML

Each reader takes what stands at the start of the text and gives it with what follows. Strings come
in four kinds: with or without escapes, and on one line or on several.
-/

namespace TriggerDialect.Toml

/-- A space or a tab. -/
def isSpace (c : Char) : Bool := c == ' ' || c == '\t'

/-- The text after its leading spaces. -/
def skipSpaces (cs : List Char) : List Char := cs.dropWhile isSpace

/-- A character that may stand in comments and quoted text: no control character but the tab. -/
def isPrintable (c : Char) : Bool := c == '\t' || (32 ≤ c.toNat && c.toNat != 127)

/-- The text after a line end. -/
def afterNewline? : List Char → Option (List Char)
  | '\n' :: rest => some rest
  | '\r' :: '\n' :: rest => some rest
  | _ => none

/-- The text after an optional comment, up to the end of its line. -/
def skipComment : List Char → List Char
  | '#' :: rest => rest.dropWhile isPrintable
  | cs => cs

/-- The text after the rest of a line, on which nothing but a comment may stand. -/
def afterLine? (cs : List Char) : Option (List Char) :=
  match skipComment (skipSpaces cs) with
  | [] => some []
  | rest => afterNewline? rest

/-- The text after spaces, comments and line ends. -/
def skipLines : Nat → List Char → List Char
  | 0, cs => cs
  | fuel + 1, cs =>
    match afterNewline? (skipComment (skipSpaces cs)) with
    | some rest => skipLines fuel rest
    | none => skipSpaces cs

/-- The character that an escape stands for, after its backslash. -/
def escaped? : List Char → Option (Char × List Char)
  | [] => none
  | c :: rest =>
    if c = 'b' then some ('\x08', rest)
    else if c = 't' then some ('\t', rest)
    else if c = 'n' then some ('\n', rest)
    else if c = 'f' then some ('\x0c', rest)
    else if c = 'r' then some ('\r', rest)
    else if c = '"' ∨ c = '\\' then some (c, rest)
    else if c = 'u' then Text.hexChar? 4 rest
    else if c = 'U' then Text.hexChar? 8 rest
    else none

/-- A character put before what was read. -/
def prepend (c : Char) (read : List Char × List Char) : List Char × List Char :=
  (c :: read.1, read.2)

/-- The rest of a string on one line with escapes. -/
def basicRest : Nat → List Char → Option (List Char × List Char)
  | 0, _ => none
  | _, [] => none
  | fuel + 1, c :: rest =>
    if c = '"' then some ([], rest)
    else if c = '\\' then
      (escaped? rest).bind fun (d, rest) => (basicRest fuel rest).map (prepend d)
    else if isPrintable c then (basicRest fuel rest).map (prepend c)
    else none

/-- The rest of a string on one line without escapes. -/
def literalRest : List Char → Option (List Char × List Char)
  | [] => none
  | c :: rest =>
    if c = '\'' then some ([], rest)
    else if isPrintable c then (literalRest rest).map (prepend c)
    else none

/-- The end of a string on several lines, when at least three quotes lead. Up to two more quotes
before the last three belong to the text. -/
def closing? (quote : Char) (cs : List Char) : Option (List Char × List Char) :=
  let count := (cs.takeWhile (· == quote)).length
  if count < 3 then none
  else
    let extra := min (count - 3) 2
    some (List.replicate extra quote, cs.drop (extra + 3))

/-- The text after the line ends and spaces that a backslash at the end of a line joins. -/
def skipJoined : List Char → List Char
  | '\r' :: '\n' :: rest => skipJoined rest
  | c :: rest => if isSpace c || c == '\n' then skipJoined rest else c :: rest
  | [] => []

/-- The text after a backslash at the end of a line, if it stands there. -/
def joined? (cs : List Char) : Option (List Char) := (afterNewline? (skipSpaces cs)).map skipJoined

/-- The rest of a string on several lines with escapes. -/
def multiBasicRest : Nat → List Char → Option (List Char × List Char)
  | 0, _ => none
  | _, [] => none
  | fuel + 1, c :: rest =>
    match closing? '"' (c :: rest) with
    | some found => some found
    | none =>
      if c = '\\' then
        match joined? rest with
        | some rest => multiBasicRest fuel rest
        | none => (escaped? rest).bind fun (d, rest) => (multiBasicRest fuel rest).map (prepend d)
      else match afterNewline? (c :: rest) with
        | some rest => (multiBasicRest fuel rest).map (prepend '\n')
        | none => if isPrintable c then (multiBasicRest fuel rest).map (prepend c) else none

/-- The rest of a string on several lines without escapes. -/
def multiLiteralRest : Nat → List Char → Option (List Char × List Char)
  | 0, _ => none
  | _, [] => none
  | fuel + 1, c :: rest =>
    match closing? '\'' (c :: rest) with
    | some found => some found
    | none =>
      match afterNewline? (c :: rest) with
      | some rest => (multiLiteralRest fuel rest).map (prepend '\n')
      | none => if isPrintable c then (multiLiteralRest fuel rest).map (prepend c) else none

/-- The text after the line end that may follow the opening quotes. -/
def skipFirstNewline (cs : List Char) : List Char := (afterNewline? cs).getD cs

/-- A string on one line. -/
def lineString? (cs : List Char) : Option (List Char × List Char) :=
  match cs with
  | '"' :: rest => basicRest (rest.length + 1) rest
  | '\'' :: rest => literalRest rest
  | _ => none

/-- A string of any kind. -/
def string? (cs : List Char) : Option (List Char × List Char) :=
  match cs with
  | '"' :: '"' :: '"' :: rest => multiBasicRest (rest.length + 1) (skipFirstNewline rest)
  | '\'' :: '\'' :: '\'' :: rest => multiLiteralRest (rest.length + 1) (skipFirstNewline rest)
  | cs => lineString? cs

end TriggerDialect.Toml
