import TriggerDialect.Text.Ascii

/-!
# Writing TOML

A key is written bare if it can be. A text takes the first kind of string, from the plainest on,
that holds it without escapes, and is escaped only if there is none.
-/

namespace TriggerDialect.Toml

/-- The length of the longest run of a character. -/
def longestRun (c : Char) : Nat → List Char → Nat
  | run, [] => run
  | run, d :: rest => if d = c then longestRun c (run + 1) rest else max run (longestRun c 0 rest)

/-- Whether a character can only be written by an escape. -/
def needsCode (c : Char) : Bool :=
  (c.toNat < 32 && c != '\t' && c != '\n') || c.toNat == 127

/-- A hexadecimal digit in upper case. -/
def hexDigit (n : Nat) : Char :=
  if n < 10 then Char.ofNat (48 + n) else Char.ofNat (55 + n)

/-- The escape of a control character by its code. -/
def codeEscape (c : Char) : List Char :=
  ['\\', 'u', '0', '0', hexDigit (c.toNat / 16), hexDigit (c.toNat % 16)]

/-- A character of a string with escapes, line feeds apart. -/
def escapeChar (c : Char) : List Char :=
  if c = '\x08' then ['\\', 'b']
  else if c = '\t' then ['\\', 't']
  else if c = '\x0c' then ['\\', 'f']
  else if c = '\r' then ['\\', 'r']
  else if c = '\\' then ['\\', '\\']
  else if needsCode c then codeEscape c
  else [c]

/-- A character of a string on one line. -/
def escapeLineChar (c : Char) : List Char :=
  if c = '"' then ['\\', '"'] else if c = '\n' then ['\\', 'n'] else escapeChar c

/-- The characters of a string on several lines, of whose quotes at most two stand in a row; `run`
quotes stand before. -/
def escapeLines : Nat → List Char → List Char
  | _, [] => []
  | run, c :: rest =>
    if c = '"' then
      if run < 2 then c :: escapeLines (run + 1) rest else '\\' :: c :: escapeLines 0 rest
    else escapeChar c ++ escapeLines 0 rest

/-- A string on one line with escapes. -/
def basicString (cs : List Char) : List Char := '"' :: cs.flatMap escapeLineChar ++ ['"']

/-- A string on one line without escapes. -/
def literalString (cs : List Char) : List Char := '\'' :: cs ++ ['\'']

/-- The line feed after the opening quotes of a text that holds line feeds. -/
def firstNewline (cs : List Char) : List Char := if cs.contains '\n' then ['\n'] else []

/-- A string on several lines with escapes. -/
def multiBasicString (cs : List Char) : List Char :=
  "\"\"\"".toList ++ firstNewline cs ++ escapeLines 0 cs ++ "\"\"\"".toList

/-- A string on several lines without escapes. -/
def multiLiteralString (cs : List Char) : List Char :=
  "'''".toList ++ firstNewline cs ++ cs ++ "'''".toList

/-- A text as a string. -/
def stringChars (cs : List Char) : List Char :=
  let coded := cs.any needsCode
  let slashed := cs.contains '\\'
  let broken := cs.contains '\n'
  let doubles := longestRun '"' 0 cs
  let singles := longestRun '\'' 0 cs
  if !coded && !slashed && doubles == 0 && !broken then basicString cs
  else if !coded && singles == 0 && !broken then literalString cs
  else if !coded && !slashed && doubles ≤ 2 then multiBasicString cs
  else if !coded && singles ≤ 2 then multiLiteralString cs
  else if broken then multiBasicString cs
  else basicString cs

/-- A character of a bare key. -/
def isBareChar (c : Char) : Bool := c.isAlphanum || c == '_' || c == '-'

/-- A key. -/
def keyChars (cs : List Char) : List Char :=
  let coded := cs.any fun c => needsCode c || c == '\n'
  if !cs.isEmpty && cs.all isBareChar then cs
  else if !coded && !cs.contains '\\' && !cs.contains '"' then basicString cs
  else if !coded && !cs.contains '\'' then literalString cs
  else basicString cs

/-- A line with a key and a text. -/
def pairLine (entry : String × String) : String :=
  String.ofList (keyChars entry.1.toList ++ " = ".toList ++ stringChars entry.2.toList ++ ['\n'])

/-- A table of texts under its header. -/
def tableText (name : String) (entries : List (String × String)) : String :=
  s!"[{name}]\n" ++ Text.join "" (entries.map pairLine)

end TriggerDialect.Toml
