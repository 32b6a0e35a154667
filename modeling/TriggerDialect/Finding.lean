import TriggerDialect.Diagnostic
import TriggerDialect.Text.Ascii
import TriggerDialect.Text.Decimal

/-!
# Findings

What the conversion of a tree notices. Findings are told apart by the texts of their keys, and only
the first of those with the same text is reported.
-/

namespace TriggerDialect

/-- What a finding is about. Two findings with the same key are the same problem. -/
inductive FindingKey where
  | noHeader
  | type (name : String)
  | function (name : String)
  | arity (name : String)
  | bind (text : String)
  | outerJoin
  | rowCount
  | rowNumber
  | exception (name : String)
  | handler (name : String)
deriving Repr, DecidableEq

/-- The text by which keys are told apart. -/
def FindingKey.text : FindingKey → String
  | .noHeader => "no-header"
  | .type name => "type:" ++ name
  | .function name => "function:" ++ name
  | .arity name => "arity:" ++ name
  | .bind text => "bind:" ++ text
  | .outerJoin => "outer-join"
  | .rowCount => "sql-rowcount"
  | .rowNumber => "rownum"
  | .exception name => "exception:" ++ name
  | .handler name => "handler:" ++ name

/-- What was noticed. -/
inductive Cause where
  | noHeader
  | unmappedType (key name : String)
  | unmappedFunction (name : String)
  | unmappedProcedure (name : String)
  /-- A call with fewer arguments than its template needs. -/
  | missingArguments (name : String) (count : Nat) (template : String)
  | hostBind (text : String)
  | outerJoin
  | rowCount
  | rowNumber
  | unmappedRaise (name : String)
  | unmappedCondition (name : String)
  | userHandler (name : String)
deriving Repr, DecidableEq

/-- How serious the problems of a key are. -/
def FindingKey.severity : FindingKey → Severity
  | .bind _ => .error
  | .outerJoin => .error
  | .rowCount => .error
  | .rowNumber => .error
  | _ => .warning

namespace Cause

/-- What the cause is about. -/
def key : Cause → FindingKey
  | .noHeader => .noHeader
  | .unmappedType key _ => .type key
  | .unmappedFunction name => .function (Text.upper name)
  | .unmappedProcedure name => .function (Text.upper name)
  | .missingArguments name _ _ => .arity (Text.upper name)
  | .hostBind text => .bind (Text.upper text)
  | .outerJoin => .outerJoin
  | .rowCount => .rowCount
  | .rowNumber => .rowNumber
  | .unmappedRaise name => .exception (Text.upper name)
  | .unmappedCondition name => .exception (Text.upper name)
  | .userHandler name => .handler (Text.upper name)

/-- How serious the cause is. After an error the text written does not run as it is. -/
def severity : Cause → Severity
  | .hostBind _ => .error
  | .outerJoin => .error
  | .rowCount => .error
  | .rowNumber => .error
  | _ => .warning

/-- The key of a cause is as serious as the cause. -/
theorem severity_key (c : Cause) : c.key.severity = c.severity := by cases c <;> rfl

/-- The wording of the cause. -/
def message : Cause → String
  | .noHeader => "no CREATE TRIGGER header; emitting the function only"
  | .unmappedType _ name => s!"unmapped type {name} passed through"
  | .unmappedFunction name => s!"unmapped function {name} passed through"
  | .unmappedProcedure name => s!"unmapped procedure {name} called with PERFORM"
  | .missingArguments name count template =>
    s!"{name} called with {Text.decimal count} argument(s); template '{template}' needs more"
  | .hostBind text => s!"host bind variable {text} kept as written"
  | .outerJoin => "Oracle outer join (+) needs a manual rewrite to LEFT JOIN"
  | .rowCount => "SQL%ROWCOUNT needs GET DIAGNOSTICS <var> = ROW_COUNT"
  | .rowNumber => "ROWNUM has no PostgreSQL equivalent; use LIMIT or row_number()"
  | .unmappedRaise name => s!"unmapped exception {name} raised as SQLSTATE P0001"
  | .unmappedCondition name => s!"unmapped exception {name} passed through"
  | .userHandler name =>
    s!"handler for user exception {name} catches every RAISE EXCEPTION (raise_exception)"

end Cause

/-- A cause and where it shows. -/
structure Finding where
  cause : Cause
  offset : Nat
  path : Option String
deriving Repr, DecidableEq

namespace Finding

/-- What the finding is about. -/
def key (f : Finding) : FindingKey := f.cause.key

/-- The report on a finding. -/
def diagnostic (f : Finding) : Diagnostic :=
  ⟨f.cause.severity, .mapping, f.cause.message, some f.offset, f.path⟩

/-- The first finding of each key not yet seen, in order. -/
def firstOfEach (seen : List String) : List Finding → List Finding
  | [] => []
  | f :: rest =>
    if seen.contains f.key.text then firstOfEach seen rest
    else f :: firstOfEach (f.key.text :: seen) rest

/-- The reports on a list of findings, one per key. -/
def report (findings : List Finding) : List Diagnostic := (firstOfEach [] findings).map diagnostic

end Finding

end TriggerDialect
