import TriggerDialect.Generate.Scope
import TriggerDialect.Tree.Statement

/-!
# Output of declarations

Declarations come in source order. The variable of a loop over a query is a record in PL/pgSQL and
is declared in the innermost block around the loop, after the block's own declarations.
-/

namespace TriggerDialect

/-- The loop variable of a statement, if it is a loop over a query. -/
def Form.queryVariable {β : Type} : Form β → List String
  | .queryLoop name query _ =>
    let first := Text.firstWord query.text
    if Text.sameWord first "SELECT" || Text.sameWord first "WITH" then [name] else []
  | _ => []

/-- Whether the statement is a block. -/
def Form.isBlock {β : Type} : Form β → Bool
  | .block _ => true
  | _ => false

/-- The variables of the loops over queries in a statement, without those inside its blocks. -/
def Statement.queryVariables : Statement → List String :=
  fold fun form =>
    form.queryVariable ++ if form.isBlock then [] else form.bodies.flatten.flatten

namespace Generate

/-- A value. -/
def initializer (scope : Scope) : Initializer → Draft
  | .string value => .ofText (Initializer.string value).sql
  | .expression text => scope.recast none text

/-- The value of a variable, if it has one. -/
def defaultValue (scope : Scope) : Option Initializer → Draft
  | none => .ofText ""
  | some value => .ofText " := " ++ initializer scope value

/-- The parameters of a cursor, if it has any. -/
def parameters (scope : Scope) (c : Cursor) : Draft :=
  if c.parameters.isEmpty then .ofText ""
  else
    .ofText " (" ++
      .join ", "
        (c.parameters.map fun p => .ofText (p.name ++ " ") ++ scope.type p.type c.offset) ++
      .ofText ")"

/-- One declaration. Exceptions and what could not be read are comments. -/
def declaration (scope : Scope) : Declaration → Output
  | .ofVariable v =>
    (.ofText (v.name ++ " ") ++ scope.type v.type v.offset ++
      .ofText (if v.notNull then " NOT NULL" else "") ++ defaultValue scope v.default ++
      .ofText ";" : Draft).line
  | .ofConstant c =>
    (.ofText (c.name ++ " CONSTANT ") ++ scope.type c.type c.offset ++ .ofText " := " ++
      initializer scope c.value ++ .ofText ";" : Draft).line
  | .ofCursor c =>
    (.ofText (c.name ++ " CURSOR") ++ parameters scope c ++ .ofText " FOR " ++
      scope.recast none c.query ++ .ofText ";" : Draft).line
  | .ofException e =>
    .ofSteps [.comment s!"exception {e.name}: raised as SQLSTATE P0001 (raise_exception)"]
  | .ofRaw text => .ofSteps [.comment s!"untranslated declaration: {text.text}"]

/-- The loop variables that need a declaration, in order. -/
def recordNames (d : Declarations) (statements : List Statement) : List String :=
  let declared := d.vars.map fun v => Text.upper v.name
  (Table.sortedTexts (statements.flatMap Statement.queryVariables)).filter fun name =>
    !declared.contains (Text.upper name)

/-- The declarations of a block with these statements in its body and handlers. -/
def declareSection (scope : Scope) (d : Declarations) (statements : List Statement) : Output :=
  let items := d.toList
  let records := recordNames d statements
  if items.isEmpty && records.isEmpty then .empty
  else
    .line "DECLARE" ++
      (Output.concat (items.map (declaration scope)) ++
        .ofSteps (records.map fun name => .line s!"{name} RECORD;")).nested

end Generate

end TriggerDialect
