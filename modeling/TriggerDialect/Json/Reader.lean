import TriggerDialect.Json.Value
import TriggerDialect.Text.Decimal
import TriggerDialect.Text.Hexadecimal

/-!
# Reading JSON

A reader for one JSON text. Each function takes the value at the start of the text and gives it with
what follows. Arrays and objects nest up to `depthLimit`. The recursion is bounded by the length of
the text.
-/

namespace TriggerDialect.Json

/-- The blanks between JSON tokens. -/
def isJsonBlank (c : Char) : Bool := c == ' ' || c == '\n' || c == '\r' || c == '\t'

/-- The text after its leading blanks. -/
def skipBlanks (cs : List Char) : List Char := cs.dropWhile isJsonBlank

/-- Four hexadecimal digits and the text after them. -/
def hexUnit : List Char → Option (Nat × List Char)
  | a :: b :: c :: d :: rest => do
    let a ← Text.hexValue? a
    let b ← Text.hexValue? b
    let c ← Text.hexValue? c
    let d ← Text.hexValue? d
    return (a * 4096 + b * 256 + c * 16 + d, rest)
  | _ => none

/-- The character of a unit escape, whose first unit has been read; a high surrogate takes the
low one that must follow it. -/
def escapedUnit (unit : Nat) (rest : List Char) : Option (Char × List Char) :=
  if 0xd800 ≤ unit ∧ unit < 0xdc00 then
    match rest with
    | '\\' :: 'u' :: rest => do
      let (low, rest) ← hexUnit rest
      if 0xdc00 ≤ low ∧ low < 0xe000 then
        let c ← Text.charOf? (0x10000 + (unit - 0xd800) * 0x400 + (low - 0xdc00))
        return (c, rest)
      else none
    | _ => none
  else do
    let c ← Text.charOf? unit
    return (c, rest)

/-- The character that a one-letter escape stands for. -/
def escapedLetter? (c : Char) : Option Char :=
  if c = '"' ∨ c = '\\' ∨ c = '/' then some c
  else if c = 'b' then some '\x08'
  else if c = 'f' then some '\x0c'
  else if c = 'n' then some '\n'
  else if c = 'r' then some '\r'
  else if c = 't' then some '\t'
  else none

/-- The characters of a string after its opening quote, and the text after its closing one. -/
def stringChars : Nat → List Char → Option (List Char × List Char)
  | 0, _ => none
  | _, [] => none
  | fuel + 1, c :: cs =>
    if c = '"' then some ([], cs)
    else if c = '\\' then
      match cs with
      | [] => none
      | e :: rest => do
        let (d, rest) ←
          if e = 'u' then (hexUnit rest).bind fun (unit, rest) => escapedUnit unit rest
          else (escapedLetter? e).map fun d => (d, rest)
        let (ds, rest) ← stringChars fuel rest
        return (d :: ds, rest)
    else if c.toNat < 32 then none
    else do
      let (ds, rest) ← stringChars fuel cs
      return (c :: ds, rest)

/-- The characters a number can be made of. -/
def isNumberChar (c : Char) : Bool :=
  c.isDigit || c == '-' || c == '+' || c == '.' || c == 'e' || c == 'E'

/-- The number at the start of the text. -/
def numberValue (cs : List Char) : Option (Json × List Char) :=
  let literal := cs.takeWhile isNumberChar
  let rest := cs.dropWhile isNumberChar
  if literal.isEmpty then none
  else if literal.all Char.isDigit then some (.nat (Text.value literal), rest)
  else some (.number (String.ofList literal), rest)

/-- The text after a fixed word. -/
def afterWord (word : String) (cs : List Char) : Option (List Char) :=
  if word.toList.isPrefixOf cs then some (cs.drop word.length) else none

/-- How deep arrays and objects may nest. -/
def depthLimit : Nat := 127

mutual

/-- The value at the start of the text, in which arrays and objects may nest to `depth`. -/
def readValue (depth : Nat) : Nat → List Char → Option (Json × List Char)
  | 0, _ => none
  | fuel + 1, cs =>
    match skipBlanks cs with
    | [] => none
    | c :: rest =>
      if c = '"' then (stringChars (rest.length + 1) rest).map fun (s, rest) =>
        (.str (String.ofList s), rest)
      else if depth = 0 && (c == '[' || c == '\x7b') then none
      else if c = '[' then
        match skipBlanks rest with
        | ']' :: rest => some (.arr [], rest)
        | rest => (readItems (depth - 1) fuel rest).map fun (items, rest) => (.arr items, rest)
      else if c = '\x7b' then
        match skipBlanks rest with
        | '\x7d' :: rest => some (.obj [], rest)
        | rest => (readFields (depth - 1) fuel rest).map fun (fields, rest) => (.obj fields, rest)
      else if c = 'n' then (afterWord "null" (c :: rest)).map fun rest => (.null, rest)
      else if c = 't' then (afterWord "true" (c :: rest)).map fun rest => (.bool true, rest)
      else if c = 'f' then (afterWord "false" (c :: rest)).map fun rest => (.bool false, rest)
      else numberValue (c :: rest)

/-- The items of an array up to its closing bracket. -/
def readItems (depth : Nat) : Nat → List Char → Option (List Json × List Char)
  | 0, _ => none
  | fuel + 1, cs =>
    match readValue depth fuel cs with
    | none => none
    | some (item, rest) =>
      match skipBlanks rest with
      | ',' :: rest => (readItems depth fuel rest).map fun (items, rest) => (item :: items, rest)
      | ']' :: rest => some ([item], rest)
      | _ => none

/-- The fields of an object up to its closing brace. -/
def readFields (depth : Nat) : Nat → List Char → Option (List (String × Json) × List Char)
  | 0, _ => none
  | fuel + 1, cs =>
    match skipBlanks cs with
    | '"' :: rest =>
      match stringChars (rest.length + 1) rest with
      | none => none
      | some (name, rest) =>
        match skipBlanks rest with
        | ':' :: rest =>
          match readValue depth fuel rest with
          | none => none
          | some (value, rest) =>
            let field := (String.ofList name, value)
            match skipBlanks rest with
            | ',' :: rest =>
              (readFields depth fuel rest).map fun (fields, rest) => (field :: fields, rest)
            | '\x7d' :: rest => some ([field], rest)
            | _ => none
        | _ => none
    | _ => none

end

/-- The value of a JSON text. -/
def read (text : String) : Option Json :=
  let cs := text.toList
  match readValue depthLimit (cs.length + 1) cs with
  | some (value, rest) => if (skipBlanks rest).isEmpty then some value else none
  | none => none

end TriggerDialect.Json
