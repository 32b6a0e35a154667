import TriggerDialect.Generate.Statements
import TriggerDialect.Options
import TriggerDialect.Tree.Trigger

/-!
# Output of triggers

A trigger becomes a bare block, or a function and a `CREATE TRIGGER`. The function ends in a
`RETURN` wherever its body or one of its handlers does not leave by itself. Its text stands between
dollar quotes, and these are `$body$` where the text holds `$$`.
-/

namespace TriggerDialect.Generate

/-- SQL text and the reports on what was found. -/
structure Generated where
  sql : String
  diagnostics : List Diagnostic
deriving Repr, DecidableEq

/-- The row that a trigger function gives back. -/
def returnRow (header : Option Header) : String :=
  match header with
  | none => "NEW"
  | some h =>
    if !h.forEachRow || h.timing == .after then "NULL"
    else if h.firesOn .delete then
      if h.firesOn .insert || h.firesOn .update then "COALESCE(NEW, OLD)" else "OLD"
    else "NEW"

/-- Whether a template always raises an exception. -/
def raisesError (template : Template) : Bool :=
  Text.sameWord (Text.firstWord template.source) "RAISE" &&
    Text.sameWord (Text.secondWord template.source) "EXCEPTION"

/-- Whether control never passes the statement. -/
def leaves (mapping : Mapping) (s : Statement) : Bool :=
  match s.form with
  | .simple (.returnValue _) => true
  | .simple (.raise _ _) => true
  | .simple (.call name _ _) => (mapping.function? name).any raisesError
  | _ => false

/-- The `RETURN` after a body of a trigger function that does not leave by itself. -/
def trailingReturn (scope : Scope) (statements : List Statement) : List Layout :=
  match scope.returnRow with
  | none => []
  | some row =>
    if statements.getLast?.any (leaves scope.mapping) then [] else [.line s!"RETURN {row};"]

/-- The block of a trigger. -/
def triggerBlock (scope : Scope) (t : Trigger) : Output :=
  block scope (trailingReturn scope) {
    declarations := some t.declarations
    body := body "" t.body
    handlers := (labelHandlers "" t.handlers).map (Handler.map fun entry => body entry.1 entry.2)
    unparsed := t.unparsed }

/-- The cursors declared in a statement itself. -/
def blockCursors (s : Statement) : List Cursor :=
  match s.form with
  | .block b => (b.declarations.map Declarations.cursors).getD []
  | _ => []

/-- The names of all cursors of a trigger, in upper case. -/
def cursorNames (t : Trigger) : List String :=
  let cursors := t.declarations.cursors ++ t.walk.flatMap fun entry => blockCursors entry.2
  cursors.map fun c => Text.upper c.name

/-- The context for a header, without cursors. -/
def headerContext (mapping : Mapping) (header : Option Header) : Recast.Context :=
  let plain := Recast.Context.plain mapping
  { plain with
    newAlias := ((header.bind Header.newAlias).map Text.upper).getD plain.newAlias
    oldAlias := ((header.bind Header.oldAlias).map Text.upper).getD plain.oldAlias }

/-- The context of a trigger. -/
def contextOf (mapping : Mapping) (t : Trigger) : Recast.Context :=
  { headerContext mapping t.header with cursors := cursorNames t }

/-- The condition of a trigger, where rows are named without a colon. -/
def headerCondition (context : Recast.Context) (header : Header) : Option Draft :=
  header.condition.map fun f =>
    let (text, remarks) := Recast.fragment { context with bareRows := true } f
    ⟨text, Scope.findings none remarks⟩

/-- An event in SQL. -/
def eventText (e : Event) : String :=
  if e.columns.isEmpty then e.kind.sql else e.kind.sql ++ " OF " ++ Text.join ", " e.columns

/-- The last segment of a qualified name. -/
def lastSegment (name : String) : String :=
  String.ofList (name.toList.reverse.takeWhile (· != '.')).reverse

/-- The `CREATE TRIGGER` of a header. -/
def createTrigger (h : Header) (condition : Option String) : String :=
  let replacing := if h.orReplace then "OR REPLACE " else ""
  let each := if h.forEachRow then "ROW" else "STATEMENT"
  let test := match condition with
    | none => ""
    | some text => s!"\n    WHEN ({text})"
  s!"CREATE {replacing}TRIGGER {lastSegment h.name}\n    {h.timing.sql} " ++
    Text.join " OR " (h.events.map eventText) ++
    s!" ON {h.table}\n    FOR EACH {each}{test}\n    EXECUTE FUNCTION {h.name}_fn();"

/-- The `CREATE TRIGGER` of a header under a mapping. -/
def createTriggerText (mapping : Mapping) (h : Header) : String :=
  createTrigger h ((headerCondition (headerContext mapping (some h)) h).map Draft.text)

/-- Whether a text holds two dollar signs in a row. -/
def holdsDollars : List Char → Bool
  | '$' :: '$' :: _ => true
  | _ :: rest => holdsDollars rest
  | [] => false

/-- The dollar quote around the text of a function. -/
def dollarQuote (text : String) : String := if holdsDollars text.toList then "$body$" else "$$"

/-- The name of the function, with a finding when there is no header to name it. -/
def functionName (header : Option Header) : Draft :=
  match header with
  | some h => .ofText (h.name ++ "_fn")
  | none => ⟨"trigger_fn", [⟨.noHeader, 0, none⟩]⟩

/-- The `CREATE TRIGGER` after the function, if there is a header. -/
def triggerLines (context : Recast.Context) (header : Option Header) : Output :=
  match header with
  | none => .empty
  | some h =>
    let condition := headerCondition context h
    ⟨[.blank, .line (createTrigger h (condition.map Draft.text))],
      (condition.map Draft.findings).getD []⟩

/-- The function around the text of a block. -/
def functionLines (name text : String) : List Layout :=
  let quote := dollarQuote text
  [.line s!"CREATE OR REPLACE FUNCTION {name}()", .line "RETURNS trigger",
    .line "LANGUAGE plpgsql", .line s!"AS {quote}", .line (Text.trimEnd text), .line s!"{quote};"]

/-- A trigger as a function and a `CREATE TRIGGER`. -/
def triggerFunction (scope : Scope) (indent : Nat) (t : Trigger) : Output :=
  let name := functionName t.header
  let block := triggerBlock scope t
  ⟨functionLines name.text (Layout.write indent block.steps), name.findings ++ block.findings⟩ ++
    triggerLines scope.context t.header

/-- The scope of a whole trigger. -/
def scopeOf (mapping : Mapping) (options : Options) (t : Trigger) : Scope where
  context := contextOf mapping t
  annotateRaw := options.annotateRaw
  returnRow := match options.wrap with
    | .block => none
    | .function => some (returnRow t.header)
  exceptions := []

/-- The output of a trigger. -/
def output (mapping : Mapping) (options : Options) (t : Trigger) : Output :=
  let scope := scopeOf mapping options t
  match options.wrap with
  | .block => triggerBlock scope t
  | .function => triggerFunction scope options.indent t

/-- The PL/pgSQL text of a trigger. -/
def trigger (mapping : Mapping) (options : Options) (t : Trigger) : Generated :=
  let out := output mapping options t
  ⟨Layout.write options.indent out.steps, Finding.report out.findings⟩

end TriggerDialect.Generate
