import TriggerDialect.Diagnostic
import TriggerDialect.Tree.Decoding

/-!
# Diagnostics as JSON

The offset and the path are left out when there is none.
-/

namespace TriggerDialect.Diagnostic

/-- A diagnostic. -/
def toJson (d : Diagnostic) : Json :=
  .obj ([("severity", .str d.severity.name), ("stage", .str d.stage.name),
      ("message", .str d.message)] ++
    Json.optional "offset" .nat d.offset ++ Json.optional "path" .str d.path)

/-- The diagnostic of a JSON value. -/
def ofJson? (j : Json) : Option Diagnostic := do
  let j ← j.record? ["severity", "stage", "message", "offset", "path"]
  return {
    severity := ← j.require "severity" (Json.oneOf .strict Severity.name Severity.all)
    stage := ← j.require "stage" (Json.oneOf .strict Stage.name Stage.all)
    message := ← j.require "message" Json.str?
    offset := ← j.maybe "offset" Json.word?
    path := ← j.maybe "path" Json.str? }

end TriggerDialect.Diagnostic
