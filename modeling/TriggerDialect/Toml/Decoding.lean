import TriggerDialect.Toml.Value

/-!
# Records, choices and tables of TOML values

What readers of TOML documents share. A record is a table, or an array of its fields in their order.
A choice is its name, or a table whose only key is that name and whose value is empty. A date counts
as a table with one entry. Each reader gives `none` where the value has another shape.
-/

namespace TriggerDialect.Toml

/-- The key of a date that is read as a table. -/
def dateKey : String := "$__toml_private_datetime"

namespace Value

variable {α : Type}

/-- The text of a string. -/
def text? : Value → Option String
  | .string text => some text
  | _ => none

/-- The truth value of a boolean. -/
def bool? : Value → Option Bool
  | .boolean b => some b
  | _ => none

/-- An integer that is not negative. -/
def nat? : Value → Option Nat
  | .integer (.ofNat n) => some n
  | _ => none

/-- The entries of a table. -/
def entries? : Value → Option (List (String × Value))
  | .table entries => some entries
  | .dateTime text => some [(dateKey, .string text)]
  | _ => none

/-- The entries of a record with these fields. An array may leave out the last of them, and items
beyond them are passed over. -/
def record? (names : List String) : Value → Option (List (String × Value))
  | .array items => some (names.zip items)
  | value => value.entries?

/-- The entries of a table whose values are texts. -/
def texts? (value : Value) : Option (List (String × String)) := do
  (← value.entries?).mapM fun entry => entry.2.text?.map fun text => (entry.1, text)

/-- Whether a value is a table or an array that holds nothing. -/
def isVoid : Value → Bool
  | .table [] => true
  | .array [] => true
  | _ => false

/-- The name of a choice. -/
def choiceName? : Value → Option String
  | .string name => some name
  | .table [(name, value)] => if value.isVoid then some name else none
  | _ => none

/-- One of the values with the name that stands here. -/
def oneOf (name : α → String) (choices : List α) (value : Value) : Option α :=
  value.choiceName?.bind fun text => choices.find? fun choice => name choice == text

end Value

/-- The value of an entry that has a default where it is missing. -/
def fallback {α : Type} (entries : List (String × Value)) (key : String) (default : α)
    (decode : Value → Option α) : Option α :=
  match entries.lookup key with
  | none => some default
  | some value => decode value

end TriggerDialect.Toml
