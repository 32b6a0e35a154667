import TriggerDialect.Word

/-!
# JSON values

Objects keep their fields in order. Natural numbers are a case of their own, since they are the
only numbers that trees and reports hold; every other number keeps its literal.
-/

namespace TriggerDialect

/-- A JSON value. -/
inductive Json where
  | null
  | bool (value : Bool)
  | nat (value : Nat)
  /-- A number that is not written as digits alone. -/
  | number (literal : String)
  | str (value : String)
  | arr (items : List Json)
  | obj (fields : List (String × Json))
deriving Repr

namespace Json

/-- The field of an object with this name. -/
def field? (name : String) : Json → Option Json
  | .obj fields => fields.lookup name
  | _ => none

/-- The items of an array. -/
def items? : Json → Option (List Json)
  | .arr items => some items
  | _ => none

/-- The text of a string. -/
def str? : Json → Option String
  | .str s => some s
  | _ => none

/-- The truth value of a boolean. -/
def bool? : Json → Option Bool
  | .bool b => some b
  | _ => none

/-- A natural number below `wordBound`. -/
def word? : Json → Option Nat
  | .nat n => if n < wordBound then some n else none
  | _ => none

/-- A list of texts. -/
def strings (texts : List String) : Json := .arr (texts.map .str)

/-- A value that may be missing, as `null`. -/
def orNull {α : Type} (encode : α → Json) : Option α → Json
  | none => .null
  | some a => encode a

/-- A field that is left out when there is no value for it. -/
def optional {α : Type} (name : String) (encode : α → Json) : Option α → List (String × Json)
  | none => []
  | some a => [(name, encode a)]

/-- A field that is left out when the list is empty. -/
def unlessEmpty {α : Type} (name : String) (encode : α → Json) (items : List α) :
    List (String × Json) :=
  if items.isEmpty then [] else [(name, .arr (items.map encode))]

end Json

end TriggerDialect
