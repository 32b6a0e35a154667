import TriggerDialect.Text.Decimal

/-!
# Statement paths

A path names a statement by its place: `2` is the second statement of the body, `2.then.1` the
first one of its first branch, `handler1.3` the third one of the first handler.
-/

namespace TriggerDialect.Path

/-- The path of a part named `part` inside `path`; the empty path is the body of the unit. -/
def inside (path part : String) : String := if path.isEmpty then part else path ++ "." ++ part

/-- The path of the statement with this index, counted from zero, inside `path`. -/
def child (path : String) (index : Nat) : String := inside path (Text.decimal (index + 1))

/-- A branch name with its number, counted from zero. -/
def numbered (name : String) (index : Nat) : String := name ++ Text.decimal (index + 1)

/-- A path for reports, absent for the body of the unit. -/
def named? (path : String) : Option String := if path.isEmpty then none else some path

end TriggerDialect.Path
