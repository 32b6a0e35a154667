import TriggerDialect.Json.Decoding
import TriggerDialect.Mapping.Defaults
import TriggerDialect.Toml.Decoding
import TriggerDialect.Toml.Reader
import TriggerDialect.Toml.Writer

/-!
# Mappings as files

A mapping file lists entries by table, and says whether they come on top of the Oracle mapping or
stand alone. The entries of a table are put in by the order of their keys, so that of two keys that
differ in letter case alone the later one stays.
-/

namespace TriggerDialect.Mapping

/-- The mapping of a file with these entries. -/
def ofEntries (isExtension : Bool) (types functions exceptions : List (String × String)) :
    Mapping :=
  let byKey (entries : List (String × String)) := (Table.ofList entries).entries
  (if isExtension then oracle else empty).extend (byKey types) (byKey functions) (byKey exceptions)

/-- The mapping that a JSON value describes. -/
def ofJson? (j : Json) : Option Mapping := do
  let j ← j.record? ["extends_defaults", "types", "functions", "exceptions"]
  return ofEntries (← j.fallback "extends_defaults" true Json.bool?)
    (← j.fallback "types" [] Json.texts?)
    (← j.fallback "functions" [] Json.texts?)
    (← j.fallback "exceptions" [] Json.texts?)

/-- The mapping that a TOML document describes. -/
def ofToml? (text : String) : Option Mapping := do
  let entries ← (← Toml.read text).entries?
  return ofEntries (← Toml.fallback entries "extends_defaults" true Toml.Value.bool?)
    (← Toml.fallback entries "types" [] Toml.Value.texts?)
    (← Toml.fallback entries "functions" [] Toml.Value.texts?)
    (← Toml.fallback entries "exceptions" [] Toml.Value.texts?)

/-- The mapping as a TOML document that stands alone. -/
def toToml (m : Mapping) : String :=
  let sources (t : Table Template) := (t.map Template.source).entries
  Text.join "\n" [
    "extends_defaults = false\n",
    Toml.tableText "types" (sources m.types),
    Toml.tableText "functions" (sources m.functions),
    Toml.tableText "exceptions" m.exceptions.entries]

end TriggerDialect.Mapping
