/-!
# TOML values

Numbers with a fraction are kept as they are written, since nothing here computes with them. Dates
and times are kept in one spelling.
-/

namespace TriggerDialect.Toml

/-- A TOML value. -/
inductive Value where
  | string (text : String)
  | integer (n : Int)
  | float (literal : String)
  | boolean (b : Bool)
  /-- A date, a time or both, in the spelling that `dateTime?` gives them. -/
  | dateTime (text : String)
  | array (items : List Value)
  | table (entries : List (String × Value))
deriving Repr

end TriggerDialect.Toml
