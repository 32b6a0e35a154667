import TriggerDialect.Json.Value

/-!
# Records, choices and lists of JSON values

What readers of records, choices and lists share. A record is an object, or an array of its fields
in their order. A choice is its name, or an object whose only field has that name and says nothing
more. Each reader gives `none` where the value has another shape.
-/

namespace TriggerDialect

namespace Json

variable {α : Type}

/-- How much freedom a value has. Values inside a statement are read in the lax way. -/
inductive Reading where
  | strict
  | lax
deriving Repr, DecidableEq

/-- The value as an object with these fields. An array may leave out the last of them, and holds
nothing beyond them. -/
def record? (names : List String) : Json → Option Json
  | .obj fields => some (.obj fields)
  | .arr items => if items.length ≤ names.length then some (.obj (names.zip items)) else none
  | _ => none

/-- A field that has to be there. -/
def require (j : Json) (name : String) (decode : Json → Option α) : Option α :=
  (j.field? name).bind decode

/-- A field that may be missing or `null`. -/
def maybe (j : Json) (name : String) (decode : Json → Option α) : Option (Option α) :=
  match j.field? name with
  | none => some none
  | some .null => some none
  | some value => (decode value).map some

/-- A field that has a default where it is missing. -/
def fallback (j : Json) (name : String) (default : α) (decode : Json → Option α) : Option α :=
  match j.field? name with
  | none => some default
  | some value => decode value

/-- A list of values. -/
def list (decode : Json → Option α) (j : Json) : Option (List α) := j.items?.bind (·.mapM decode)

/-- Whether a value says nothing: it is `null` or, in the lax way, an object without fields. -/
def isVoid : Reading → Json → Bool
  | _, .null => true
  | .lax, .obj [] => true
  | _, _ => false

/-- The name of a choice. -/
def choiceName? (reading : Reading) : Json → Option String
  | .str name => some name
  | .obj [(name, value)] => if isVoid reading value then some name else none
  | _ => none

/-- One of the values with the name that stands here. -/
def oneOf (reading : Reading) (name : α → String) (choices : List α) (j : Json) : Option α :=
  (choiceName? reading j).bind fun text => choices.find? fun choice => name choice == text

/-- The fields of an object whose values are texts. -/
def texts? (j : Json) : Option (List (String × String)) :=
  match j with
  | .obj fields => fields.mapM fun field => field.2.str?.map fun text => (field.1, text)
  | _ => none

mutual

/-- The number of arrays and objects around the innermost value. -/
def depth : Json → Nat
  | .arr items => depthItems items + 1
  | .obj fields => depthFields fields + 1
  | _ => 0

/-- The depth of the deepest item. -/
def depthItems : List Json → Nat
  | [] => 0
  | j :: rest => max j.depth (depthItems rest)

/-- The depth of the deepest field. -/
def depthFields : List (String × Json) → Nat
  | [] => 0
  | (_, j) :: rest => max j.depth (depthFields rest)

end

end Json

end TriggerDialect
