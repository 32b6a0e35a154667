import TriggerDialect.Token.Lexeme

/-!
# String literals

A string value is written between apostrophes with each apostrophe in it doubled. Reading also
accepts the national form `N'...'` and the alternative forms `q'[...]'`.
-/

namespace TriggerDialect.Literal

/-- Every apostrophe twice. -/
def double : List Char → List Char
  | [] => []
  | c :: cs => if c = '\'' then c :: c :: double cs else c :: double cs

/-- Every doubled apostrophe once. -/
def undouble : List Char → List Char
  | [] => []
  | [c] => [c]
  | c :: d :: cs => if c = '\'' ∧ d = '\'' then c :: undouble cs else c :: undouble (d :: cs)

/-- A value as a plain literal. -/
def quoteChars (value : List Char) : List Char := '\'' :: double value ++ ['\'']

/-- A value as a plain literal. -/
def quote (value : String) : String := String.ofList (quoteChars value.toList)

/-- What stands before a last character equal to `c`, if that is the last one. -/
def dropSuffix (c : Char) (cs : List Char) : Option (List Char) :=
  if cs.getLast? = some c then some cs.dropLast else none

/-- What stands between an apostrophe at the start and a further one at the end. -/
def between : List Char → Option (List Char)
  | [] => none
  | c :: cs => if c = '\'' then dropSuffix '\'' cs else none

/-- The value between the delimiters of an alternative quotation. -/
def delimited : List Char → Option (List Char)
  | [] => none
  | opening :: cs => dropSuffix (Scan.closingDelimiter opening) cs

/-- Without the mark of a national literal. -/
def dropNational : List Char → List Char
  | [] => []
  | c :: cs =>
    if (c = 'n' ∨ c = 'N') ∧ Scan.startsWith (fun d => d == '\'' || d == 'q' || d == 'Q') cs then cs
    else c :: cs

/-- The value of a literal in any of its forms. -/
def contentsChars (text : List Char) : Option (List Char) :=
  match dropNational text with
  | [] => none
  | c :: cs =>
    if c = 'q' ∨ c = 'Q' then (between cs).bind delimited
    else (between (c :: cs)).map undouble

/-- The value of a string literal; `none` for a text that is not one. -/
def contents? (text : String) : Option String := (contentsChars text.toList).map String.ofList

end TriggerDialect.Literal
