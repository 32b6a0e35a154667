import TriggerDialect.Json.Printer
import TriggerDialect.Tree.Trigger

/-!
# Trees as JSON

Fields come in a fixed order, `kind` first in statements. Optional values and most lists are left
out when there is nothing to say.
-/

namespace TriggerDialect

open Json Fragment

/-- A text and its offset. -/
def Fragment.toJson (f : Fragment) : Json := .obj [("text", .str f.text), ("offset", .nat f.offset)]

/-- The name of an anchor. -/
def Anchor.jsonName : Anchor → String
  | .ofColumn => "Type"
  | .ofRow => "RowType"

/-- A type. -/
def DeclaredType.toJson (t : DeclaredType) : Json :=
  .obj (("name", .str t.name) :: unlessEmpty "modifiers" .str t.modifiers ++
    optional "attribute" (fun a => .str a.jsonName) t.anchor)

/-- A value of a declaration. -/
def Initializer.toJson : Initializer → Json
  | .string value => .obj [("kind", .str "string"), ("value", .str value)]
  | .expression text => .obj [("kind", .str "expr"), ("value", text.toJson)]

/-- A variable. -/
def Variable.toJson (v : Variable) : Json :=
  .obj ([("name", .str v.name), ("declared_type", v.type.toJson)] ++
    optional "default" Initializer.toJson v.default ++
    [("not_null", .bool v.notNull), ("offset", .nat v.offset)])

/-- A constant. -/
def Constant.toJson (c : Constant) : Json :=
  .obj [("name", .str c.name), ("declared_type", c.type.toJson), ("value", c.value.toJson),
    ("offset", .nat c.offset)]

/-- An exception name. -/
def ExceptionName.toJson (e : ExceptionName) : Json :=
  .obj [("name", .str e.name), ("offset", .nat e.offset)]

/-- A parameter of a cursor. -/
def CursorParameter.toJson (p : CursorParameter) : Json :=
  .obj [("name", .str p.name), ("declared_type", p.type.toJson)]

/-- A cursor. -/
def Cursor.toJson (c : Cursor) : Json :=
  .obj (("name", .str c.name) :: unlessEmpty "parameters" CursorParameter.toJson c.parameters ++
    [("query", c.query.toJson), ("offset", .nat c.offset)])

/-- The declarations of a block. -/
def Declarations.toJson (d : Declarations) : Json :=
  .obj ([("variables", .arr (d.vars.map Variable.toJson)),
      ("constants", .arr (d.constants.map Constant.toJson)),
      ("exceptions", .arr (d.exceptions.map ExceptionName.toJson))] ++
    unlessEmpty "cursors" Cursor.toJson d.cursors ++
    unlessEmpty "raw" (fun f => .obj [("text", f.toJson)]) d.raw)

/-- The name of a timing. -/
def Timing.jsonName : Timing → String
  | .before => "before"
  | .after => "after"
  | .insteadOf => "instead_of"

/-- The name of an event kind. -/
def EventKind.jsonName : EventKind → String
  | .insert => "insert"
  | .update => "update"
  | .delete => "delete"

/-- An event. -/
def Event.toJson (e : Event) : Json :=
  .obj (("kind", .str e.kind.jsonName) :: unlessEmpty "columns" .str e.columns)

/-- A header. -/
def Header.toJson (h : Header) : Json :=
  .obj ([("name", .str h.name), ("or_replace", .bool h.orReplace),
      ("timing", .str h.timing.jsonName), ("events", .arr (h.events.map Event.toJson)),
      ("table", .str h.table), ("for_each_row", .bool h.forEachRow)] ++
    optional "new_alias" .str h.newAlias ++ optional "old_alias" .str h.oldAlias ++
    optional "when" Fragment.toJson h.condition)

/-- The table, columns and values of an `INSERT`. -/
def InsertTarget.toJson (t : InsertTarget) : Json :=
  .obj [("table", .str t.table), ("columns", strings t.columns),
    ("values", .arr (t.values.map Fragment.toJson))]

/-- The name of a cursor action. -/
def CursorAction.jsonName : CursorAction → String
  | .opening => "open"
  | .fetching => "fetch"
  | .closing => "close"

/-- The fields of `EXIT` and `CONTINUE`. -/
def exitFields (loop : Option String) (condition : Option Fragment) : List (String × Json) :=
  optional "label" .str loop ++ optional "condition" toJson condition

/-- The fields of a simple statement after its kind. -/
def Simple.fields : Simple → List (String × Json)
  | .select sql => [("sql", sql.toJson)]
  | .insert sql target => ("sql", sql.toJson) :: optional "target" InsertTarget.toJson target
  | .update sql => [("sql", sql.toJson)]
  | .delete sql => [("sql", sql.toJson)]
  | .assignment target value => [("target", target.toJson), ("expr", value.toJson)]
  | .exitLoop loop condition => exitFields loop condition
  | .continueLoop loop condition => exitFields loop condition
  | .returnValue value => optional "expr" toJson value
  | .call name arguments offset =>
    ("name", .str name) :: unlessEmpty "args" toJson arguments ++
      [("offset", .nat offset)]
  | .raise name offset => optional "exception_name" .str name ++ [("offset", .nat offset)]
  | .executeImmediate sql => [("sql", sql.toJson)]
  | .cursor action text => [("op", .str action.jsonName), ("text", text.toJson)]
  | .label name => [("name", .str name)]
  | .null => []
  | .raw text => [("text", text.toJson)]

/-- An arm whose body is a list of JSON values. -/
def Arm.toJson (arm : Arm (List Json)) : Json :=
  .obj [("condition", arm.condition.toJson), ("body", .arr arm.body)]

/-- A handler whose body is a list of JSON values. -/
def Handler.toJson (h : Handler (List Json)) : Json :=
  .obj (("exception_name", .str h.name) :: unlessEmpty "additional_names" .str h.moreNames ++
    [("body", .arr h.body), ("offset", .nat h.offset)])

/-- The fields of a statement after its kind. -/
def Form.fields : Form (List Json) → List (String × Json)
  | .simple s => s.fields
  | .conditional first others otherwise =>
    [("condition", first.condition.toJson), ("then_branch", .arr first.body)] ++
      unlessEmpty "elsif_branches" Arm.toJson others ++
      optional "else_branch" .arr otherwise
  | .selection selector arms otherwise =>
    optional "selector" toJson selector ++
      [("when_clauses", .arr (arms.map Arm.toJson))] ++ optional "else_branch" .arr otherwise
  | .queryLoop name query body =>
    [("loop_var", .str name), ("cursor_query", query.toJson), ("body", .arr body)]
  | .rangeLoop name reverse lower upper body =>
    [("loop_var", .str name), ("reverse", .bool reverse), ("lower", lower.toJson),
      ("upper", upper.toJson), ("body", .arr body)]
  | .whileLoop condition body => [("condition", condition.toJson), ("body", .arr body)]
  | .endlessLoop body => [("body", .arr body)]
  | .block b =>
    optional "declarations" Declarations.toJson b.declarations ++ [("body", .arr b.body)] ++
      unlessEmpty "handlers" Handler.toJson b.handlers ++
      unlessEmpty "unparsed_handlers" toJson b.unparsed

/-- A form whose inner lists hold JSON values. -/
def Form.toJson (form : Form (List Json)) : Json :=
  .obj (("kind", .str form.kindName) :: form.fields)

/-- A statement. -/
def Statement.toJson : Statement → Json := fold Form.toJson

/-- A handler of a trigger. -/
def Statement.handlerToJson (h : Handler (List Statement)) : Json :=
  (h.map (List.map toJson)).toJson

/-- A trigger. -/
def Trigger.toJson (t : Trigger) : Json :=
  .obj (optional "metadata" Header.toJson t.header ++
    [("declarations", t.declarations.toJson), ("body", .arr (t.body.map Statement.toJson)),
      ("exception_handlers", .arr (t.handlers.map Statement.handlerToJson))] ++
    unlessEmpty "unparsed_handlers" Fragment.toJson t.unparsed)

/-- A trigger as indented JSON text. -/
def Trigger.jsonText (t : Trigger) : String := t.toJson.pretty

end TriggerDialect
