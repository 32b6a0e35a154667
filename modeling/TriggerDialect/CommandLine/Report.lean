import TriggerDialect.Conversion
import TriggerDialect.Diagnostic.Encoding
import TriggerDialect.Settings

/-!
# What a run reports

Why a run stops, the lines about diagnostics and tokens, and the report on a list of files.
-/

namespace TriggerDialect.CommandLine

/-- Why a run stops, or why a file is not converted. -/
inductive Failure where
  | settings (fault : LoadFault)
  /-- The mapping file, which has a name if the arguments give it. -/
  | mapping (name : Option String) (fault : LoadFault)
  | reading (name : String) (fault : FileFault)
  | source (fault : SourceFault)
  | creating (name : String) (fault : FileFault)
  | writing (name : String) (fault : FileFault)
  | reporting (fault : FileFault)
deriving Repr, DecidableEq

/-- The wording of a failure. -/
def Failure.message : Failure → String
  | .settings fault => s!"loading config: {fault.detailed}"
  | .mapping none fault => s!"loading mapping: {fault.detailed}"
  | .mapping (some name) fault => s!"loading mapping {name}: {fault.detailed}"
  | .reading name fault => s!"reading {name}: {fault.message}"
  | .source fault => fault.message
  | .creating name fault => s!"creating {name}: {fault.message}"
  | .writing name fault => s!"writing {name}: {fault.message}"
  | .reporting fault => fault.message

/-- What became of one file. -/
structure FileReport where
  file : String
  outcome : Except Failure Conversion

/-- Whether a file was converted. -/
def FileReport.isConverted (r : FileReport) : Bool := r.outcome.isOk

/-- The report on a file as JSON. -/
def FileReport.toJson (r : FileReport) : Json :=
  match r.outcome with
  | .ok conversion =>
    .obj [("file", .str r.file), ("sql", .str conversion.sql),
      ("statements_found", .nat conversion.found),
      ("raw_statements", .nat conversion.trigger.tally.raw),
      ("diagnostics", .arr (conversion.diagnostics.map Diagnostic.toJson))]
  | .error failure =>
    .obj [("file", .str r.file), ("error", .str failure.message), ("statements_found", .nat 0),
      ("raw_statements", .nat 0), ("diagnostics", .arr [])]

/-- How many files were converted. -/
def convertedCount (reports : List FileReport) : Nat := reports.countP FileReport.isConverted

/-- How many files were not. -/
def failedCount (reports : List FileReport) : Nat := reports.countP fun r => !r.isConverted

/-- The report on all files as JSON. -/
def reportToJson (time : String) (reports : List FileReport) : Json :=
  .obj [("generated_at", .str time), ("translated", .nat (convertedCount reports)),
    ("failed", .nat (failedCount reports)), ("units", .arr (reports.map FileReport.toJson))]

/-- The last line on all files. -/
def summary (reports : List FileReport) : String :=
  let mark := if failedCount reports = 0 then "✓" else "✗"
  let converted := Text.decimal (convertedCount reports)
  let failed := Text.decimal (failedCount reports)
  s!"{mark} {converted} translated, {failed} failed\n"

/-- The line about a diagnostic. -/
def diagnosticLine (file : String) (d : Diagnostic) : String :=
  let path := match d.path with
    | none => ""
    | some path => s!" ({path})"
  s!"{d.severity.name}[{d.stage.name}] {file}{path}: {d.message}\n"

/-- Spaces that fill a text up to a width. -/
def padding (width : Nat) (text : String) : String :=
  String.ofList (List.replicate (width - text.length) ' ')

/-- The line about a token. -/
def tokenLine (t : Token) : String :=
  let offset := Text.decimal t.offset
  padding 6 offset ++ offset ++ "  " ++ t.kind.name ++ padding 15 t.kind.name ++ " " ++ t.text ++
    "\n"

end TriggerDialect.CommandLine
