import TriggerDialect.Json.Decoding
import TriggerDialect.Tree.Encoding

/-!
# Trees from JSON

Every field that the encoding leaves out may be missing, or `null` where a value is optional.
Unknown fields are passed over. A record may also be an array of its fields in their order, and a
statement an array of its kind and its fields. All that stands inside a statement is read in the lax
way, in which the kind of a statement may also be its number. Any other departure from the encoding
is refused.
-/

namespace TriggerDialect

open Json Fragment

/-- A text and its offset. -/
def Fragment.ofJson? (j : Json) : Option Fragment := do
  let j ← j.record? ["text", "offset"]
  return ⟨← j.require "text" str?, ← j.require "offset" word?⟩

/-- A type. -/
def DeclaredType.ofJson? (reading : Json.Reading) (j : Json) : Option DeclaredType := do
  let j ← j.record? ["name", "modifiers", "attribute"]
  return {
    name := ← j.require "name" str?
    modifiers := ← j.fallback "modifiers" [] (list str?)
    anchor := ← j.maybe "attribute" (oneOf reading Anchor.jsonName [.ofColumn, .ofRow]) }

/-- A value of a declaration. -/
def Initializer.ofJson? (reading : Json.Reading) (j : Json) : Option Initializer := do
  let j ← j.record? ["kind", "value"]
  match ← j.require "kind" (choiceName? reading) with
  | "string" => return .string (← j.require "value" str?)
  | "expr" => return .expression (← j.require "value" Fragment.ofJson?)
  | _ => none

/-- A variable. -/
def Variable.ofJson? (reading : Json.Reading) (j : Json) : Option Variable := do
  let j ← j.record? ["name", "declared_type", "default", "not_null", "offset"]
  return {
    name := ← j.require "name" str?
    type := ← j.require "declared_type" (DeclaredType.ofJson? reading)
    default := ← j.maybe "default" (Initializer.ofJson? reading)
    notNull := ← j.fallback "not_null" false bool?
    offset := ← j.require "offset" word? }

/-- A constant. -/
def Constant.ofJson? (reading : Json.Reading) (j : Json) : Option Constant := do
  let j ← j.record? ["name", "declared_type", "value", "offset"]
  return {
    name := ← j.require "name" str?
    type := ← j.require "declared_type" (DeclaredType.ofJson? reading)
    value := ← j.require "value" (Initializer.ofJson? reading)
    offset := ← j.require "offset" word? }

/-- An exception name. -/
def ExceptionName.ofJson? (j : Json) : Option ExceptionName := do
  let j ← j.record? ["name", "offset"]
  return ⟨← j.require "name" str?, ← j.require "offset" word?⟩

/-- A parameter of a cursor. -/
def CursorParameter.ofJson? (reading : Json.Reading) (j : Json) : Option CursorParameter := do
  let j ← j.record? ["name", "declared_type"]
  return ⟨← j.require "name" str?, ← j.require "declared_type" (DeclaredType.ofJson? reading)⟩

/-- A cursor. -/
def Cursor.ofJson? (reading : Json.Reading) (j : Json) : Option Cursor := do
  let j ← j.record? ["name", "parameters", "query", "offset"]
  return {
    name := ← j.require "name" str?
    parameters := ← j.fallback "parameters" [] (list (CursorParameter.ofJson? reading))
    query := ← j.require "query" Fragment.ofJson?
    offset := ← j.require "offset" word? }

/-- The text of a declaration that was not understood. -/
def Declarations.rawOfJson? (j : Json) : Option Fragment := do
  let j ← j.record? ["text"]
  j.require "text" ofJson?

/-- The declarations of a block. -/
def Declarations.ofJson? (reading : Json.Reading) (j : Json) : Option Declarations := do
  let j ← j.record? ["variables", "constants", "exceptions", "cursors", "raw"]
  return {
    vars := ← j.fallback "variables" [] (list (Variable.ofJson? reading))
    constants := ← j.fallback "constants" [] (list (Constant.ofJson? reading))
    exceptions := ← j.fallback "exceptions" [] (list ExceptionName.ofJson?)
    cursors := ← j.fallback "cursors" [] (list (Cursor.ofJson? reading))
    raw := ← j.fallback "raw" [] (list rawOfJson?) }

/-- An event. -/
def Event.ofJson? (j : Json) : Option Event := do
  let j ← j.record? ["kind", "columns"]
  return {
    kind := ← j.require "kind" (oneOf .strict EventKind.jsonName [.insert, .update, .delete])
    columns := ← j.fallback "columns" [] (list str?) }

/-- A header. -/
def Header.ofJson? (j : Json) : Option Header := do
  let j ← j.record? ["name", "or_replace", "timing", "events", "table", "for_each_row", "new_alias",
    "old_alias", "when"]
  return {
    name := ← j.require "name" str?
    orReplace := ← j.require "or_replace" bool?
    timing := ← j.require "timing" (oneOf .strict Timing.jsonName [.before, .after, .insteadOf])
    events := ← j.require "events" (list Event.ofJson?)
    table := ← j.require "table" str?
    forEachRow := ← j.require "for_each_row" bool?
    newAlias := ← j.maybe "new_alias" str?
    oldAlias := ← j.maybe "old_alias" str?
    condition := ← j.maybe "when" Fragment.ofJson? }

/-- The table, columns and values of an `INSERT`. -/
def InsertTarget.ofJson? (j : Json) : Option InsertTarget := do
  let j ← j.record? ["table", "columns", "values"]
  return {
    table := ← j.require "table" str?
    columns := ← j.require "columns" (list str?)
    values := ← j.require "values" (list Fragment.ofJson?) }

/-- A cursor action, which always stands inside a statement. -/
def CursorAction.ofJson? : Json → Option CursorAction :=
  oneOf .lax CursorAction.jsonName [.opening, .fetching, .closing]

/-- A simple statement of a kind. -/
def Simple.ofJson? (kind : String) (j : Json) : Option Simple := do
  match kind with
  | "select" => return .select (← j.require "sql" Fragment.ofJson?)
  | "insert" =>
    return .insert (← j.require "sql" Fragment.ofJson?) (← j.maybe "target" InsertTarget.ofJson?)
  | "update" => return .update (← j.require "sql" Fragment.ofJson?)
  | "delete" => return .delete (← j.require "sql" Fragment.ofJson?)
  | "assignment" =>
    return .assignment (← j.require "target" Fragment.ofJson?) (← j.require "expr" Fragment.ofJson?)
  | "exit" =>
    return .exitLoop (← j.maybe "label" str?) (← j.maybe "condition" Fragment.ofJson?)
  | "continue" =>
    return .continueLoop (← j.maybe "label" str?) (← j.maybe "condition" Fragment.ofJson?)
  | "return" => return .returnValue (← j.maybe "expr" Fragment.ofJson?)
  | "procedure_call" =>
    return .call (← j.require "name" str?)
      (← j.fallback "args" [] (list Fragment.ofJson?)) (← j.require "offset" word?)
  | "raise" =>
    return .raise (← j.maybe "exception_name" str?) (← j.require "offset" word?)
  | "execute_immediate" => return .executeImmediate (← j.require "sql" Fragment.ofJson?)
  | "cursor" =>
    return .cursor (← j.require "op" CursorAction.ofJson?) (← j.require "text" Fragment.ofJson?)
  | "label" => return .label (← j.require "name" str?)
  | "null" => return .null
  | "raw_statement" => return .raw (← j.require "text" Fragment.ofJson?)
  | _ => none

/-- An arm whose body is still JSON. -/
def Arm.ofJson? (j : Json) : Option (Arm (List Json)) := do
  let j ← j.record? ["condition", "body"]
  return ⟨← j.require "condition" Fragment.ofJson?, ← j.require "body" items?⟩

/-- A handler whose body is still JSON. -/
def Handler.ofJson? (j : Json) : Option (Handler (List Json)) := do
  let j ← j.record? ["exception_name", "additional_names", "body", "offset"]
  return {
    name := ← j.require "exception_name" str?
    moreNames := ← j.fallback "additional_names" [] (list str?)
    body := ← j.require "body" items?
    offset := ← j.require "offset" word? }

/-- A statement of a kind whose inner lists are still JSON. -/
def Form.ofKind? (kind : String) (j : Json) : Option (Form (List Json)) := do
  match kind with
  | "if" =>
    return .conditional
      ⟨← j.require "condition" ofJson?, ← j.require "then_branch" items?⟩
      (← j.fallback "elsif_branches" [] (list Arm.ofJson?))
      (← j.maybe "else_branch" items?)
  | "case" =>
    return .selection (← j.maybe "selector" ofJson?)
      (← j.require "when_clauses" (list Arm.ofJson?)) (← j.maybe "else_branch" items?)
  | "for_loop" =>
    return .queryLoop (← j.require "loop_var" str?)
      (← j.require "cursor_query" ofJson?) (← j.require "body" items?)
  | "numeric_for_loop" =>
    return .rangeLoop (← j.require "loop_var" str?) (← j.require "reverse" bool?)
      (← j.require "lower" ofJson?) (← j.require "upper" ofJson?)
      (← j.require "body" items?)
  | "while_loop" =>
    return .whileLoop (← j.require "condition" ofJson?) (← j.require "body" items?)
  | "loop" => return .endlessLoop (← j.require "body" items?)
  | "block" =>
    return .block {
      declarations := ← j.maybe "declarations" (Declarations.ofJson? .lax)
      body := ← j.require "body" items?
      handlers := ← j.fallback "handlers" [] (list Handler.ofJson?)
      unparsed := ← j.fallback "unparsed_handlers" [] (list ofJson?) }
  | _ => return .simple (← Simple.ofJson? kind j)

/-- The kinds of statements with the names of their fields, both in the order by which arrays and
numbers refer to them. -/
def Form.shapes : List (String × List String) := [
  ("select", ["sql"]),
  ("insert", ["sql", "target"]),
  ("update", ["sql"]),
  ("delete", ["sql"]),
  ("assignment", ["target", "expr"]),
  ("if", ["condition", "then_branch", "elsif_branches", "else_branch"]),
  ("case", ["selector", "when_clauses", "else_branch"]),
  ("for_loop", ["loop_var", "cursor_query", "body"]),
  ("numeric_for_loop", ["loop_var", "reverse", "lower", "upper", "body"]),
  ("while_loop", ["condition", "body"]),
  ("loop", ["body"]),
  ("exit", ["label", "condition"]),
  ("continue", ["label", "condition"]),
  ("return", ["expr"]),
  ("block", ["declarations", "body", "handlers", "unparsed_handlers"]),
  ("procedure_call", ["name", "args", "offset"]),
  ("raise", ["exception_name", "offset"]),
  ("execute_immediate", ["sql"]),
  ("cursor", ["op", "text"]),
  ("label", ["name"]),
  ("null", []),
  ("raw_statement", ["text"])]

/-- The name of a kind of statements. -/
def Form.kindOfJson? : Json.Reading → Json → Option String
  | _, .str kind => some kind
  | .lax, .nat n => shapes[n]?.map Prod.fst
  | _, _ => none

/-- A statement whose inner lists are still JSON. -/
def Form.ofJson? (reading : Json.Reading) : Json → Option (Form (List Json))
  | .arr (kind :: items) => do
    let kind ← kindOfJson? reading kind
    let names ← shapes.lookup kind
    ofKind? kind (← record? names (.arr items))
  | j => (j.require "kind" (kindOfJson? reading)).bind fun kind => ofKind? kind j

/-- A statement with at most `levels` levels of statements. -/
def Statement.ofJsonWithin? : Nat → Json.Reading → Json → Option Statement
  | 0, _, _ => none
  | levels + 1, reading, j => do
    let form ← Form.ofJson? reading j
    let form ← (form.map fun body => body.mapM (ofJsonWithin? levels .lax)).sequence
    return .node form

/-- A statement that stands in no other. Each level of statements is an object or an array, so the
depth of the value bounds them. -/
def Statement.ofJson? (j : Json) : Option Statement := ofJsonWithin? (j.depth + 1) .strict j

/-- A handler of a trigger. -/
def Statement.handlerOfJson? (j : Json) : Option (Handler (List Statement)) := do
  let h ← Handler.ofJson? j
  return { h with body := ← h.body.mapM ofJson? }

/-- A trigger. -/
def Trigger.ofJson? (j : Json) : Option Trigger := do
  let j ← j.record? ["metadata", "declarations", "body", "exception_handlers", "unparsed_handlers"]
  return {
    header := ← j.maybe "metadata" Header.ofJson?
    declarations := ← j.require "declarations" (Declarations.ofJson? .strict)
    body := ← j.require "body" (list Statement.ofJson?)
    handlers := ← j.fallback "exception_handlers" [] (list Statement.handlerOfJson?)
    unparsed := ← j.fallback "unparsed_handlers" [] (list Fragment.ofJson?) }

end TriggerDialect
