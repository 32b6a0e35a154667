import TriggerDialect.Json.Decoding
import TriggerDialect.Options
import TriggerDialect.Toml.Decoding

/-!
# Options from JSON and TOML

A field that is missing keeps its standard value.
-/

namespace TriggerDialect.Options

/-- The names of the fields, in their order. -/
def fieldNames : List String := ["indent", "wrap", "annotate_raw"]

/-- The options of a JSON value. -/
def ofJson? (j : Json) : Option Options := do
  let j ← j.record? fieldNames
  return {
    indent := ← j.fallback "indent" standard.indent Json.word?
    wrap := ← j.fallback "wrap" standard.wrap (Json.oneOf .strict Wrap.name Wrap.all)
    annotateRaw := ← j.fallback "annotate_raw" standard.annotateRaw Json.bool? }

/-- The options of a TOML value. -/
def ofToml? (value : Toml.Value) : Option Options := do
  let entries ← value.record? fieldNames
  return {
    indent := ← Toml.fallback entries "indent" standard.indent Toml.Value.nat?
    wrap := ← Toml.fallback entries "wrap" standard.wrap (Toml.Value.oneOf Wrap.name Wrap.all)
    annotateRaw := ← Toml.fallback entries "annotate_raw" standard.annotateRaw Toml.Value.bool? }

end TriggerDialect.Options
