/-!
# Diagnostics

What a conversion that succeeds still has to report: a severity, the stage that noticed it, the
wording, and where it stands in the source and in the tree.
-/

namespace TriggerDialect

/-- How serious a diagnostic is. -/
inductive Severity where
  | warning
  | error
deriving Repr, DecidableEq

/-- The stage of the conversion that reports. -/
inductive Stage where
  | sections
  | header
  | declaration
  | statement
  | handler
  | mapping
deriving Repr, DecidableEq

namespace Severity

/-- The name of a severity. -/
def name : Severity → String
  | .warning => "warning"
  | .error => "error"

/-- All severities. -/
def all : List Severity := [.warning, .error]

end Severity

namespace Stage

/-- The name of a stage. -/
def name : Stage → String
  | .sections => "structure"
  | .header => "header"
  | .declaration => "declaration"
  | .statement => "statement"
  | .handler => "handler"
  | .mapping => "mapping"

/-- All stages. -/
def all : List Stage := [.sections, .header, .declaration, .statement, .handler, .mapping]

end Stage

/-- One report. -/
structure Diagnostic where
  severity : Severity
  stage : Stage
  message : String
  /-- The byte offset in the source. -/
  offset : Option Nat
  /-- The path of the statement concerned. -/
  path : Option String
deriving Repr, DecidableEq

namespace Diagnostic

/-- A warning without a path. -/
def warning (stage : Stage) (offset : Option Nat) (message : String) : Diagnostic :=
  ⟨.warning, stage, message, offset, none⟩

/-- A warning about the statement at a path. -/
def warningAt (stage : Stage) (offset : Option Nat) (path message : String) : Diagnostic :=
  ⟨.warning, stage, message, offset, some path⟩

/-- An error, perhaps about the statement at a path. -/
def errorAt (stage : Stage) (offset : Option Nat) (path : Option String) (message : String) :
    Diagnostic :=
  ⟨.error, stage, message, offset, path⟩

/-- Whether the diagnostic is an error. -/
def isError (d : Diagnostic) : Bool := d.severity == .error

/-- The diagnostic on one line. -/
def shown (d : Diagnostic) : String :=
  let place := match d.offset with
    | none => ""
    | some offset => s!" @{offset}"
  let path := match d.path with
    | none => ""
    | some path => s!" ({path})"
  s!"{d.severity.name}[{d.stage.name}]{place}{path}: {d.message}"

end Diagnostic

/-- Whether a list of diagnostics holds an error. -/
def hasErrors (ds : List Diagnostic) : Bool := ds.any Diagnostic.isError

end TriggerDialect
