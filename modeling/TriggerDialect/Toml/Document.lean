import TriggerDialect.Toml.Value

/-!
# TOML documents

A document is a list of expressions: headers and pairs of keys and values. Keys with dots and
headers both make tables on the way. `build` puts the expressions together and refuses what would
define a table or a key twice.
-/

namespace TriggerDialect.Toml

/-- What stands under a key while a document is put together. -/
inductive Item where
  | value (v : Value)
  /-- A table. It is implied as long as no header names it, and dotted when a key with dots made
  it. -/
  | table (implied dotted : Bool) (entries : List (String × Item))
  /-- The tables of an array, each with its entries. -/
  | tables (elements : List (List (String × Item)))
deriving Repr

/-- One line of a document. -/
inductive Expression where
  /-- A pair; `path` holds the parts of the key before the last one. -/
  | pair (path : List String) (key : String) (value : Value)
  /-- A header of a table. -/
  | header (path : List String) (key : String)
  /-- A header of a table in an array. -/
  | arrayHeader (path : List String) (key : String)
deriving Repr

/-- The entries of a table. -/
abbrev Entries := List (String × Item)

/-- The entries with another item under a key. -/
def replaceEntry (key : String) (item : Item) (entries : Entries) : Entries :=
  entries.map fun entry => if entry.1 == key then (key, item) else entry

/-- Changes the table at the end of a path by `f`, which sees whether it is dotted. Tables on the
way are made as needed. A path inside a key must not pass through a table that a header names. -/
def change (insideKey : Bool) (f : Bool → Entries → Option Entries) :
    List String → Bool → Entries → Option Entries
  | [], dotted, entries => f dotted entries
  | key :: path, _, entries =>
    match entries.lookup key with
    | none =>
      (change insideKey f path insideKey []).map fun inner =>
        entries ++ [(key, .table true insideKey inner)]
    | some (.value _) => none
    | some (.table implied dotted inner) =>
      if insideKey && !implied then none
      else (change insideKey f path dotted inner).map fun inner =>
        replaceEntry key (.table implied dotted inner) entries
    | some (.tables elements) =>
      match elements.getLast? with
      | none => none
      | some last =>
        (change insideKey f path false last).map fun last =>
          replaceEntry key (.tables (elements.dropLast ++ [last])) entries

/-- Adds a pair to a table. A path makes dotted tables, and only those take pairs by a path. -/
def addPair (path : List String) (key : String) (value : Value) (entries : Entries) :
    Option Entries :=
  change true (fun dotted entries =>
    if dotted == path.isEmpty || (entries.lookup key).isSome then none
    else some (entries ++ [(key, .value value)])) path false entries

/-- Opens a table by its header. -/
def addHeader (path : List String) (key : String) (entries : Entries) : Option Entries :=
  change false (fun _ entries =>
    match entries.lookup key with
    | none => some (entries ++ [(key, .table false false [])])
    | some (.table true false inner) => some (replaceEntry key (.table false false inner) entries)
    | some _ => none) path false entries

/-- Opens one more table of an array by its header. -/
def addArrayHeader (path : List String) (key : String) (entries : Entries) : Option Entries :=
  change false (fun _ entries =>
    match entries.lookup key with
    | none => some (entries ++ [(key, .tables [[]])])
    | some (.tables elements) => some (replaceEntry key (.tables (elements ++ [[]])) entries)
    | some _ => none) path false entries

/-- Puts expressions together; `current` is the path of the open table. -/
def buildFrom (current : List String) (entries : Entries) : List Expression → Option Entries
  | [] => some entries
  | .pair path key value :: rest => do
    let entries ← change false (fun _ table => addPair path key value table) current false entries
    buildFrom current entries rest
  | .header path key :: rest => do
    let entries ← addHeader path key entries
    buildFrom (path ++ [key]) entries rest
  | .arrayHeader path key :: rest => do
    let entries ← addArrayHeader path key entries
    buildFrom (path ++ [key]) entries rest

mutual

/-- A finished item as a value. -/
def Item.toValue : Item → Value
  | .value v => v
  | .table _ _ entries => .table (entryValues entries)
  | .tables elements => .array (elementValues elements)

/-- Finished entries as values. -/
def entryValues : List (String × Item) → List (String × Value)
  | [] => []
  | (key, item) :: rest => (key, item.toValue) :: entryValues rest

/-- The finished tables of an array as values. -/
def elementValues : List (List (String × Item)) → List Value
  | [] => []
  | entries :: rest => .table (entryValues entries) :: elementValues rest

end

/-- The table of a list of expressions. -/
def build (expressions : List Expression) : Option Value :=
  (buildFrom [] [] expressions).map fun entries => .table (entryValues entries)

/-- The table of a list of pairs between braces. -/
def buildInline (pairs : List (List String × String × Value)) : Option Value :=
  build (pairs.map fun pair => .pair pair.1 pair.2.1 pair.2.2)

end TriggerDialect.Toml
