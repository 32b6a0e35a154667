import TriggerDialect.Toml.Document
import TriggerDialect.Toml.Number
import TriggerDialect.Toml.Text

/-!
# Reading TOML

`Toml.read` takes a whole document. Values nest no deeper than the text is long, and a document has
no more lines than characters, which bounds the recursion.
-/

namespace TriggerDialect.Toml

/-- A character of a key without quotes. -/
def isKeyChar (c : Char) : Bool := c.isAlphanum || c == '_' || c == '-'

/-- One part of a key. -/
def keyPart? (cs : List Char) : Option (String × List Char) :=
  match lineString? cs with
  | some (text, rest) => some (String.ofList text, rest)
  | none =>
    let name := cs.takeWhile isKeyChar
    if name.isEmpty then none else some (String.ofList name, cs.dropWhile isKeyChar)

/-- The bound below which the number of parts of a key and the depth of values stay. -/
def nestingBound : Nat := 80

/-- At most `fuel` parts of a key with spaces around them: those before the last one, and the last
one. -/
def keyParts? : Nat → List Char → Option ((List String × String) × List Char)
  | 0, _ => none
  | fuel + 1, cs => do
    let (part, rest) ← keyPart? (skipSpaces cs)
    match skipSpaces rest with
    | '.' :: rest =>
      let ((path, last), rest) ← keyParts? fuel rest
      return ((part :: path, last), rest)
    | rest => return (([], part), rest)

/-- A key with the spaces around it. -/
def key? (cs : List Char) : Option ((List String × String) × List Char) :=
  keyParts? (nestingBound - 1) cs

/-- The text after a fixed word. -/
def afterWord? (word : String) (cs : List Char) : Option (List Char) :=
  if word.toList.isPrefixOf cs then some (cs.drop word.length) else none

/-- A value that holds no other values. -/
def scalar? (cs : List Char) : Option (Value × List Char) :=
  match cs with
  | [] => none
  | c :: _ =>
    if c = '"' ∨ c = '\'' then
      (string? cs).map fun (text, rest) => (.string (String.ofList text), rest)
    else if c = 't' then (afterWord? "true" cs).map fun rest => (.boolean true, rest)
    else if c = 'f' then (afterWord? "false" cs).map fun rest => (.boolean false, rest)
    else match dateTime? cs with
      | some found => some found
      | none => number? cs

mutual

/-- A value inside `depth` others. -/
def value? : Nat → Nat → List Char → Option (Value × List Char)
  | _, 0, _ => none
  | depth, fuel + 1, cs =>
    match cs with
    | '[' :: rest => do
      guard (depth + 1 < nestingBound)
      let (items, rest) ← items? (depth + 1) fuel (skipLines rest.length rest)
      return (.array items, rest)
    | '\x7b' :: rest => do
      guard (depth + 1 < nestingBound)
      match skipSpaces rest with
      | '\x7d' :: rest => return (.table [], rest)
      | rest =>
        let (pairs, rest) ← pairs? (depth + 1) fuel rest
        let table ← buildInline pairs
        return (table, rest)
    | cs => scalar? cs

/-- The items of an array up to its bracket. A comma may follow the last one. -/
def items? : Nat → Nat → List Char → Option (List Value × List Char)
  | _, 0, _ => none
  | depth, fuel + 1, cs =>
    match cs with
    | ']' :: rest => some ([], rest)
    | cs => do
      let (item, rest) ← value? depth fuel cs
      match skipLines rest.length rest with
      | ']' :: rest => return ([item], rest)
      | ',' :: rest =>
        let (items, rest) ← items? depth fuel (skipLines rest.length rest)
        return (item :: items, rest)
      | _ => none

/-- The pairs between braces up to the closing one. -/
def pairs? : Nat → Nat → List Char → Option (List (List String × String × Value) × List Char)
  | _, 0, _ => none
  | depth, fuel + 1, cs => do
    let ((path, key), rest) ← key? cs
    match rest with
    | '=' :: rest =>
      let (value, rest) ← value? depth fuel (skipSpaces rest)
      match skipSpaces rest with
      | '\x7d' :: rest => return ([(path, key, value)], rest)
      | ',' :: rest =>
        let (pairs, rest) ← pairs? depth fuel rest
        return ((path, key, value) :: pairs, rest)
      | _ => none
    | _ => none

end

/-- A header, after its opening brackets. -/
def headerKey? (closing : String) (cs : List Char) :
    Option ((List String × String) × List Char) := do
  let (key, rest) ← key? cs
  let rest ← afterWord? closing rest
  return (key, rest)

/-- A pair. -/
def pair? (cs : List Char) : Option (Expression × List Char) := do
  let ((path, key), rest) ← key? cs
  match rest with
  | '=' :: rest =>
    let (value, rest) ← value? 0 (cs.length + 1) (skipSpaces rest)
    return (.pair path key value, rest)
  | _ => none

/-- The expression of a line that holds one. -/
def expression? (cs : List Char) : Option (Expression × List Char) :=
  match cs with
  | '[' :: '[' :: rest =>
    (headerKey? "]]" rest).map fun ((path, key), rest) => (.arrayHeader path key, rest)
  | '[' :: rest => (headerKey? "]" rest).map fun ((path, key), rest) => (.header path key, rest)
  | cs => pair? cs

/-- The expressions of at most `fuel` lines. -/
def expressions? : Nat → List Char → Option (List Expression)
  | 0, _ => none
  | fuel + 1, cs =>
    match skipSpaces cs with
    | [] => some []
    | c :: rest =>
      match afterLine? (c :: rest) with
      | some rest => expressions? fuel rest
      | none => do
        let (expression, rest) ← expression? (c :: rest)
        let rest ← afterLine? rest
        let later ← expressions? fuel rest
        return expression :: later

/-- The text without a mark of its byte order. -/
def skipMark : List Char → List Char
  | '\ufeff' :: rest => rest
  | cs => cs

/-- The table that a document describes. -/
def read (text : String) : Option Value :=
  let cs := skipMark text.toList
  (expressions? (cs.length + 1) cs).bind build

end TriggerDialect.Toml
