/-!
# Tables

A table holds one value per key, in the order of the keys, which is the order of their characters.
-/

namespace TriggerDialect

/-- Values by key. -/
structure Table (α : Type) where
  entries : List (String × α)
deriving Repr, DecidableEq

namespace Table

variable {α β : Type}

/-- No entries. -/
def empty : Table α := ⟨[]⟩

/-- Puts an entry into its place, or in the place of one with the same key. -/
def insertEntry (key : String) (value : α) : List (String × α) → List (String × α)
  | [] => [(key, value)]
  | (k, v) :: rest =>
    if key < k then (key, value) :: (k, v) :: rest
    else if key = k then (key, value) :: rest
    else (k, v) :: insertEntry key value rest

/-- The table with one more entry, which replaces one with the same key. -/
def insert (t : Table α) (key : String) (value : α) : Table α := ⟨insertEntry key value t.entries⟩

/-- The value of a key. -/
def get? (t : Table α) (key : String) : Option α := t.entries.lookup key

/-- The number of entries. -/
def size (t : Table α) : Nat := t.entries.length

/-- Applies `f` to each value. -/
def map (f : α → β) (t : Table α) : Table β := ⟨t.entries.map fun entry => (entry.1, f entry.2)⟩

/-- The table of a list of entries, where later ones replace earlier ones. -/
def ofList (entries : List (String × α)) : Table α :=
  entries.foldl (fun t entry => t.insert entry.1 entry.2) empty

/-- The different texts of a list, in order. -/
def sortedTexts (texts : List String) : List String :=
  (ofList (texts.map fun text => (text, ()))).entries.map Prod.fst

end Table

end TriggerDialect
