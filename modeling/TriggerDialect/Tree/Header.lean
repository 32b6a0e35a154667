import TriggerDialect.Tree.Fragment

/-!
# Trigger headers

What stands between `CREATE TRIGGER` and the block: name, timing, events, table and conditions.
-/

namespace TriggerDialect

/-- When a trigger fires, relative to its event. -/
inductive Timing where
  | before
  | after
  | insteadOf
deriving Repr, DecidableEq

/-- The kinds of events. -/
inductive EventKind where
  | insert
  | update
  | delete
deriving Repr, DecidableEq

/-- The timing in SQL. -/
def Timing.sql : Timing → String
  | .before => "BEFORE"
  | .after => "AFTER"
  | .insteadOf => "INSTEAD OF"

/-- The event in SQL. -/
def EventKind.sql : EventKind → String
  | .insert => "INSERT"
  | .update => "UPDATE"
  | .delete => "DELETE"

/-- An event, with the columns of `UPDATE OF`. -/
structure Event where
  kind : EventKind
  columns : List String
deriving Repr, DecidableEq

/-- The header of a trigger. -/
structure Header where
  name : String
  orReplace : Bool
  timing : Timing
  events : List Event
  table : String
  forEachRow : Bool
  /-- The name of the new row, where `REFERENCING` gives one. -/
  newAlias : Option String
  /-- The name of the old row, where `REFERENCING` gives one. -/
  oldAlias : Option String
  condition : Option Fragment
deriving Repr, DecidableEq

/-- Whether the trigger fires on events of a kind. -/
def Header.firesOn (header : Header) (kind : EventKind) : Bool :=
  header.events.any fun event => event.kind == kind

end TriggerDialect
