import TriggerDialect.Text.Ascii
import TriggerDialect.Text.Blank
import TriggerDialect.Text.Letter

/-!
# Declared types

A type is a qualified name, further words, modifiers in brackets, more words and the mark of a
type taken over from a column or a row, as in `NUMBER(10, 2)`, `TIMESTAMP(6) WITH TIME ZONE` or
`emp.sal%TYPE`. Its name is the words in order, wherever the modifiers stand.
-/

namespace TriggerDialect

/-- The marks of a type taken over from a column or a row. -/
inductive Anchor where
  /-- `%TYPE` -/
  | ofColumn
  /-- `%ROWTYPE` -/
  | ofRow
deriving Repr, DecidableEq

/-- A type as declared. -/
structure DeclaredType where
  /-- All words of the name, with one space between them. -/
  name : String
  /-- The modifiers between brackets, without the blanks around them. -/
  modifiers : List String
  anchor : Option Anchor
deriving Repr, DecidableEq

namespace DeclaredType

/-- The name in upper case, which is how tables know the type. -/
def key (type : DeclaredType) : String := Text.upper type.name

/-- Whether the type is taken over from a column or a row. -/
def isAnchored (type : DeclaredType) : Bool := type.anchor.isSome

/-- The mark as written after a type. -/
def anchorText : Option Anchor → String
  | none => ""
  | some .ofColumn => "%TYPE"
  | some .ofRow => "%ROWTYPE"

/-- The modifiers as written after a type. -/
def modifiersText (modifiers : List String) : String :=
  if modifiers.isEmpty then "" else "(" ++ Text.join ", " modifiers ++ ")"

/-- The type as a text. -/
def shown (type : DeclaredType) : String :=
  type.name ++ modifiersText type.modifiers ++ anchorText type.anchor

/-! ### Reading -/

/-- The blanks between the parts of a type. -/
def isGap (c : Char) : Bool := c == ' ' || c == '\t' || c == '\r' || c == '\n'

/-- Without leading gaps. -/
def skipGap (cs : List Char) : List Char := cs.dropWhile isGap

/-- A gap leaves no more than was there. -/
theorem skipGap_length (cs : List Char) : (skipGap cs).length ≤ cs.length :=
  (List.dropWhile_sublist isGap (l := cs)).length_le

/-- A character that starts a plain name. -/
def isNameHead (c : Char) : Bool := Text.isLetter c || c == '_'

/-- A character inside a plain name. -/
def isNameTail (c : Char) : Bool :=
  Text.isLetter c || Text.isNumeral c || c == '_' || c == '$' || c == '#'

/-- A quoted or plain name and what follows it. -/
def takeName : List Char → Option (List Char × List Char)
  | [] => none
  | c :: cs =>
    if c = '"' then
      match cs.dropWhile (· != '"') with
      | [] => none
      | close :: rest => some (c :: cs.takeWhile (· != '"') ++ [close], rest)
    else if isNameHead c then some (c :: cs.takeWhile isNameTail, cs.dropWhile isNameTail)
    else none

/-- A name is gone after it is read. -/
theorem takeName_length {cs name rest : List Char} (h : takeName cs = some (name, rest)) :
    rest.length < cs.length := by
  cases cs with
  | nil => cases h
  | cons c cs =>
    simp only [takeName] at h
    split at h
    · split at h
      · cases h
      · rename_i close tail heq
        cases h
        have hle := (List.dropWhile_sublist (· != '"') (l := cs)).length_le
        rw [heq] at hle
        simp only [List.length_cons] at hle ⊢
        omega
    · split at h
      · cases h
        have := (List.dropWhile_sublist isNameTail (l := cs)).length_le
        simp only [List.length_cons]
        omega
      · cases h

/-- The further parts of a qualified name, each after a dot. -/
def dottedNames (cs : List Char) : List Char × List Char :=
  match cs with
  | '.' :: after =>
    match h : takeName after with
    | none => ([], '.' :: after)
    | some (name, rest) =>
      have : rest.length < after.length + 1 := Nat.lt_succ_of_lt (takeName_length h)
      let later := dottedNames rest
      ('.' :: name ++ later.1, later.2)
  | cs => ([], cs)
termination_by cs.length

/-- A qualified name. -/
def qualifiedName (cs : List Char) : Option (List Char × List Char) :=
  (takeName cs).map fun (name, rest) =>
    let later := dottedNames rest
    (name ++ later.1, later.2)

/-- Words, each after at least one gap. -/
def words (cs : List Char) : List (List Char) × List Char :=
  match cs with
  | [] => ([], [])
  | c :: after =>
    if isGap c then
      match h : takeName (skipGap after) with
      | none => ([], c :: after)
      | some (name, rest) =>
        have : rest.length < (c :: after).length :=
          Nat.lt_succ_of_le (Nat.le_trans (Nat.le_of_lt (takeName_length h)) (skipGap_length after))
        let later := words rest
        (name :: later.1, later.2)
    else ([], c :: after)
termination_by cs.length
decreasing_by
  all_goals
    simp only [List.length_cons] at *
    omega

/-- A character inside a modifier. -/
def isModifierChar (c : Char) : Bool := c != ',' && c != ')'

/-- Less is left after a modifier. -/
theorem afterModifier_length {cs rest : List Char} {c : Char}
    (h : cs.dropWhile isModifierChar = c :: rest) : rest.length < cs.length := by
  have hle := (List.dropWhile_sublist isModifierChar (l := cs)).length_le
  rw [h, List.length_cons] at hle
  exact hle

/-- Modifiers up to the closing bracket, none of them empty. -/
def modifierList (cs : List Char) : Option (List (List Char) × List Char) :=
  let modifier := cs.takeWhile isModifierChar
  if modifier.isEmpty then none
  else match h : cs.dropWhile isModifierChar with
    | ',' :: rest =>
      have : (skipGap rest).length < cs.length :=
        Nat.lt_of_le_of_lt (skipGap_length rest) (afterModifier_length h)
      (modifierList (skipGap rest)).map fun (later, rest) => (modifier :: later, rest)
    | ')' :: rest => some ([modifier], rest)
    | _ => none
termination_by cs.length

/-- Modifiers between brackets. -/
def modifierGroup : List Char → Option (List (List Char) × List Char)
  | '(' :: rest => modifierList (skipGap rest)
  | _ => none

/-- Whether the text starts with an upper-case word, in any letter case. -/
def startsWithWord (word : List Char) (cs : List Char) : Bool :=
  word.isPrefixOf (cs.map Char.toUpper)

/-- The mark of an anchored type. -/
def anchorMark : List Char → Option (Anchor × List Char)
  | '%' :: rest =>
    if startsWithWord "ROWTYPE".toList rest then some (.ofRow, rest.drop 7)
    else if startsWithWord "TYPE".toList rest then some (.ofColumn, rest.drop 4)
    else none
  | _ => none

/-- The modifiers, if there are any, and what follows them. -/
def optionalModifiers (cs : List Char) : List (List Char) × List Char :=
  (modifierGroup (skipGap cs)).getD ([], cs)

/-- The mark, if there is one, and what follows it. -/
def optionalAnchor (cs : List Char) : Option Anchor × List Char :=
  match anchorMark (skipGap cs) with
  | some (anchor, rest) => (some anchor, rest)
  | none => (none, cs)

/-- The words of a name with one space between them. -/
def joinWords (head : List Char) (more : List (List Char)) : List Char :=
  more.foldl (fun name word => name ++ ' ' :: word) head

/-- The type that the characters spell from the first to the last. -/
def ofChars? (cs : List Char) : Option DeclaredType :=
  match qualifiedName cs with
  | none => none
  | some (head, rest) =>
    let lead := words rest
    let modifiers := optionalModifiers lead.2
    let tail := words modifiers.2
    let anchor := optionalAnchor tail.2
    if (skipGap anchor.2).isEmpty then
      some {
        name := String.ofList (joinWords head (lead.1 ++ tail.1))
        modifiers := modifiers.1.map fun modifier => String.ofList (Text.trimChars modifier)
        anchor := anchor.1 }
    else none

/-- The type that a text spells; `none` when it spells none. -/
def parse? (text : String) : Option DeclaredType := ofChars? (Text.trimChars text.toList)

end DeclaredType

end TriggerDialect
