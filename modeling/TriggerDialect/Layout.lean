import TriggerDialect.Text.Blank
import TriggerDialect.Word

/-!
# Layout

Output is a list of steps: lines, comments and changes of the indentation. `Layout.write` turns
them into text. A line that holds line feeds becomes several lines, each indented, but what stands
inside quotes is written as it is.
-/

namespace TriggerDialect

/-- One step of the output. -/
inductive Layout where
  | line (text : String)
  | comment (text : String)
  | blank
  | indent
  | dedent
deriving Repr, DecidableEq

namespace Layout

/-- A part of a text between line feeds. -/
structure LinePart where
  chars : List Char
  /-- Whether a quote is open at the start. -/
  startsQuoted : Bool
  /-- Whether a quote is open at the end. -/
  endsQuoted : Bool
deriving Repr, DecidableEq

/-- The open quote after a character. A quote is closed by the mark that opened it. -/
def quoteAfter (quote : Option Char) (c : Char) : Option Char :=
  match quote with
  | none => if c = '\'' ∨ c = '"' then some c else none
  | some mark => if c = mark then none else some mark

/-- The parts between line feeds, where `quote` is open at the start. -/
def lineParts (quote : Option Char) : List Char → List LinePart
  | [] => [⟨[], quote.isSome, quote.isSome⟩]
  | c :: rest =>
    if c = '\n' then ⟨[], quote.isSome, quote.isSome⟩ :: lineParts quote rest
    else match lineParts (quoteAfter quote c) rest with
      | [] => [⟨[c], quote.isSome, quote.isSome⟩]
      | part :: parts =>
        { part with chars := c :: part.chars, startsQuoted := quote.isSome } :: parts

/-- The spaces of an indentation. -/
def spaces (n : Nat) : List Char := List.replicate n ' '

/-- One part of a line, indented unless it starts inside a quote. -/
def partChars (margin : Nat) (part : LinePart) : List Char :=
  let chars := if part.endsQuoted then part.chars else Text.trimEndChars part.chars
  if part.startsQuoted then chars ++ ['\n']
  else if (Text.trimChars chars).isEmpty then ['\n']
  else spaces margin ++ chars ++ ['\n']

/-- A line with this many spaces before it. -/
def lineChars (margin : Nat) (text : List Char) : List Char :=
  (lineParts none text).flatMap (partChars margin)

/-- A comment with this many spaces before each of its lines. -/
def commentChars (margin : Nat) (text : List Char) : List Char :=
  (Text.lines text).flatMap fun line =>
    spaces margin ++ "-- ".toList ++ Text.trimChars line ++ ['\n']

/-- The number of spaces at a level, which wraps around as a word does. -/
def indentation (width level : Nat) : Nat := level * width % wordBound

/-- Nothing is indented at the margin. -/
@[simp] theorem indentation_zero (width : Nat) : indentation width 0 = 0 := by simp [indentation]

/-- The text of a step at a level of indentation. -/
def chars (width level : Nat) : Layout → List Char
  | .line text => lineChars (indentation width level) text.toList
  | .comment text => commentChars (indentation width level) text.toList
  | .blank => ['\n']
  | .indent => []
  | .dedent => []

/-- The level of indentation after a step. -/
def levelAfter (level : Nat) : Layout → Nat
  | .indent => level + 1
  | .dedent => level - 1
  | _ => level

/-- The texts of the steps, from a level of indentation on. -/
def texts (width : Nat) : Nat → List Layout → List (List Char)
  | _, [] => []
  | level, step :: rest => step.chars width level :: texts width (step.levelAfter level) rest

/-- The text of a list of steps. -/
def write (width : Nat) (steps : List Layout) : String :=
  String.ofList (texts width 0 steps).flatten

/-- Steps one level deeper. -/
def nested (steps : List Layout) : List Layout := .indent :: steps ++ [.dedent]

end Layout

end TriggerDialect
