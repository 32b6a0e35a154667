import TriggerDialect.Grammar.Header
import TriggerDialect.Grammar.Statements
import TriggerDialect.Tree.Trigger

/-!
# Reading triggers

A source is cut into tokens, its header is read, the block is cut into sections, and the sections
are read in order. Only an unfinished literal or comment and a broken block stop the reading.
-/

namespace TriggerDialect

/-- Why a source cannot be read. -/
inductive SourceFault where
  | lexical (fault : LexFault)
  /-- A broken block, and where in the source it shows. -/
  | structural (fault : StructureFault) (position : Text.Position)
deriving Repr, DecidableEq

/-- The wording of the fault. -/
def SourceFault.message : SourceFault → String
  | .lexical fault => fault.message
  | .structural fault position =>
    s!"{fault.message} (line {Text.decimal position.line}, column {Text.decimal position.column})"

namespace Grammar

/-- The handlers at `path` with their bodies read. -/
def handlerOutcomes (path : String) (found : HandlerSection) :
    List (Handler (Outcome (List Statement))) :=
  (labelHandlers path found.handlers).map <| Handler.map fun entry =>
    .after entry.2.before (statements entry.1 entry.2.tokens)

/-- Reads an exception section at `path`: the handlers and the text that is none. -/
def handlerSection (path : String) (found : HandlerSection) :
    Outcome (List (Handler (List Statement)) × List Fragment) :=
  let outcomes := handlerOutcomes path found
  { value := (outcomes.map (Handler.map Outcome.value), found.unparsed)
    notes := outcomes.flatMap (fun h => h.body.notes) ++ found.after
    found := total (fun h => h.body.found) outcomes + found.unparsed.length }

/-- The reports on the structure of the outermost block. -/
def sectionNotes (sections : Sections) : List Diagnostic :=
  sections.warnings.map (fun fault => .warning .sections (some fault.offset) fault.message) ++
    match sections.trailing with
    | [] => []
    | t :: rest =>
      [.warning .sections (some t.offset)
        s!"ignored text after the terminal END: {render (t :: rest)}"]

/-- Reads the sections of a trigger with a header. -/
def triggerOf (header : HeaderReading) (sections : Sections) : Outcome Trigger :=
  let declared := (sections.declarations.map readDeclarations).getD (.empty, [])
  let body := statements "" sections.statements
  let handlers := handlerSection "" (blockHandlers "" sections.handlers)
  { value := {
      header := header.header
      declarations := declared.1
      body := body.value
      handlers := handlers.value.1
      unparsed := handlers.value.2 }
    notes := header.notes ++ sectionNotes sections ++ declared.2 ++ body.notes ++ handlers.notes
    found := body.found + handlers.found }

/-- Reads a trigger from tokens. -/
def triggerOfTokens (ts : List Token) : Except StructureFault (Outcome Trigger) :=
  let header := readHeader ts
  (Sections.split header.body).map (triggerOf header)

/-- Reads a trigger from its source. -/
def trigger (source : String) : Except SourceFault (Outcome Trigger) :=
  match Token.ofSource source with
  | .error fault => .error (.lexical fault)
  | .ok ts => (triggerOfTokens ts).mapError fun fault =>
      .structural fault (Text.position source fault.offset)

end Grammar

end TriggerDialect
