/-!
# Blanks, words and lines of a text

White space here is the Unicode property `White_Space`. Trimming removes it at the ends of a text,
words are the runs between it, and lines are what newlines end.
-/

namespace TriggerDialect.Text

/-- The Unicode property `White_Space`, by ranges of code points. -/
def blankRanges : List (Nat × Nat) :=
  [(0x9, 0xd), (0x20, 0x20), (0x85, 0x85), (0xa0, 0xa0), (0x1680, 0x1680), (0x2000, 0x200a),
    (0x2028, 0x2029), (0x202f, 0x202f), (0x205f, 0x205f), (0x3000, 0x3000)]

/-- Whether a character is white space. -/
def isBlank (c : Char) : Bool :=
  blankRanges.any fun range => range.1 ≤ c.toNat && c.toNat ≤ range.2

/-- The characters without their leading blanks. -/
def trimStartChars (cs : List Char) : List Char := cs.dropWhile isBlank

/-- The characters without their trailing blanks. -/
def trimEndChars (cs : List Char) : List Char := (cs.reverse.dropWhile isBlank).reverse

/-- The characters without the blanks at either end. -/
def trimChars (cs : List Char) : List Char := trimEndChars (trimStartChars cs)

/-- The text without the blanks at either end. -/
def trim (s : String) : String := String.ofList (trimChars s.toList)

/-- The text without its trailing blanks. -/
def trimEnd (s : String) : String := String.ofList (trimEndChars s.toList)

/-- The first word of the characters, empty when they are all blank, and what follows it. -/
def nextWord (cs : List Char) : List Char × List Char :=
  (trimStartChars cs).span (!isBlank ·)

/-- The first word of a text, empty when it is all blank. -/
def firstWord (s : String) : String := String.ofList (nextWord s.toList).1

/-- The second word of a text, empty when there is none. -/
def secondWord (s : String) : String := String.ofList (nextWord (nextWord s.toList).2).1

/-- Cut at every newline: one part more than there are newlines. -/
def splitNewlines : List Char → List (List Char)
  | [] => [[]]
  | c :: cs =>
    if c = '\n' then [] :: splitNewlines cs
    else match splitNewlines cs with
      | [] => [[c]]
      | line :: lines => (c :: line) :: lines

/-- The lines of a text. A final newline ends the last line and opens no further one. -/
def lines (cs : List Char) : List (List Char) :=
  let parts := splitNewlines cs
  if parts.getLast? = some [] then parts.dropLast else parts

end TriggerDialect.Text
