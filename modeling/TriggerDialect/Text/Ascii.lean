/-!
# ASCII letters and blanks

PL/SQL words compare without regard to the case of ASCII letters; all other characters compare
as they are. The blanks that separate tokens are the five ASCII ones named here.
-/

namespace TriggerDialect.Text

/-- The blanks between tokens: space, tab, line feed, form feed and carriage return. -/
def isAsciiBlank (c : Char) : Bool :=
  c == ' ' || c == '\t' || c == '\n' || c == '\x0c' || c == '\r'

/-- ASCII letters in upper case, all else as it is. -/
def upper (s : String) : String := String.ofList (s.toList.map Char.toUpper)

/-- ASCII letters in lower case, all else as it is. -/
def lower (s : String) : String := String.ofList (s.toList.map Char.toLower)

/-- Equality up to the case of ASCII letters. -/
def sameWord (a b : String) : Bool := upper a == upper b

/-- The texts in order, with `separator` between neighbours. -/
def join (separator : String) : List String → String
  | [] => ""
  | [s] => s
  | s :: t :: rest => s ++ separator ++ join separator (t :: rest)

/-- Letters are raised one by one. -/
@[simp] theorem toList_upper (s : String) : (upper s).toList = s.toList.map Char.toUpper := by
  simp [upper]

/-- A word is the same as itself. -/
@[simp] theorem sameWord_self (s : String) : sameWord s s := by simp [sameWord]

end TriggerDialect.Text
