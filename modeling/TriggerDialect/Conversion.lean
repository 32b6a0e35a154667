import TriggerDialect.Generate.Trigger
import TriggerDialect.Grammar.Trigger

/-!
# Conversion

A source is read and written in PL/pgSQL. The reports of the reading come before those of the
writing.
-/

namespace TriggerDialect

/-- The outcome of a conversion. -/
structure Conversion where
  trigger : Trigger
  sql : String
  diagnostics : List Diagnostic
  /-- The number of statements that the reading found. -/
  found : Nat
deriving Repr

/-- Converts a source. -/
def convert (mapping : Mapping) (options : Options) (source : String) :
    Except SourceFault Conversion :=
  (Grammar.trigger source).map fun outcome =>
    let generated := Generate.trigger mapping options outcome.value
    ⟨outcome.value, generated.sql, outcome.notes ++ generated.diagnostics, outcome.found⟩

end TriggerDialect
