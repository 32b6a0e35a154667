import TriggerDialect.CommandLine.Arguments
import TriggerDialect.CommandLine.Report

/-!
# Running a command

A session writes to a console and may fail; what it wrote before a failure stays. The files are
those of any monad that offers access to files, so that a run can be followed on a workspace that is
a value.
-/

namespace TriggerDialect.CommandLine

/-- What a run has printed. -/
structure Console where
  output : String
  errors : String
deriving Repr, DecidableEq

/-- Nothing printed yet. -/
def Console.blank : Console := ⟨"", ""⟩

/-- A run in progress. -/
abbrev Session (m : Type → Type) := ExceptT Failure (StateT Console m)

/-- How a run ended. -/
structure Ending where
  code : Nat
  console : Console
deriving Repr, DecidableEq

variable {m : Type → Type} [Monad m]

/-- Prints to the output. -/
def print (text : String) : Session m Unit := modify fun c => { c with output := c.output ++ text }

/-- Prints to the errors. -/
def complain (text : String) : Session m Unit :=
  modify fun c => { c with errors := c.errors ++ text }

/-- An action on files, whatever its result. -/
def onFiles {α : Type} (action : m α) : Session m α := ExceptT.lift (StateT.lift action)

/-- An action on files whose fault fails the session. -/
def attempt {α ε : Type} (failure : ε → Failure) (action : m (Except ε α)) : Session m α := do
  match ← onFiles action with
  | .ok a => return a
  | .error fault => throw (failure fault)

/-- The text of a file. -/
def readSource (files : FileAccess m) (name : String) : Session m String :=
  attempt (.reading name) (files.read name)

/-- The lines about diagnostics. -/
def complainAbout (file : String) (ds : List Diagnostic) : Session m Unit :=
  complain (Text.join "" (ds.map (diagnosticLine file)))

/-- The file that takes the result for an input file. -/
def targetName (directory file : String) : String :=
  FileName.join directory ((FileName.stem? file).getD "trigger" ++ ".sql")

/-- Puts the result for a file into the directory for results, or prints it. -/
def deliver (files : FileAccess m) (output : Option String) (file sql : String) :
    Session m Unit :=
  match output with
  | none => print ("-- " ++ file ++ "\n" ++ sql ++ "\n")
  | some directory => do
    let target := targetName directory file
    attempt (.writing target) (files.write target sql)
    complain ("wrote " ++ target ++ "\n")

/-- Converts one file, without failing the session when the file cannot be read or converted. -/
def convertText (files : FileAccess m) (mapping : Mapping) (options : Options) (file : String) :
    m (Except Failure Conversion) := do
  match ← files.read file with
  | .error fault => return .error (.reading file fault)
  | .ok source => return (convert mapping options source).mapError .source

/-- Converts one file and delivers its result. -/
def convertFile (files : FileAccess m) (mapping : Mapping) (options : Options)
    (output : Option String) (format : Format) (quiet : Bool) (file : String) :
    Session m FileReport := do
  let outcome ← onFiles (convertText files mapping options file)
  match outcome with
  | .ok conversion =>
    unless quiet do complainAbout file conversion.diagnostics
    if format = .sql then deliver files output file conversion.sql
  | .error failure => complain ("error: " ++ file ++ ": " ++ failure.message ++ "\n")
  return ⟨file, outcome⟩

/-- Puts the report on all files into the directory for results, or prints it. -/
def deliverReport (files : FileAccess m) (time : String) (output : Option String)
    (reports : List FileReport) : Session m Unit := do
  let text := (reportToJson time reports).pretty ++ "\n"
  match output with
  | none => print text
  | some directory =>
    attempt .reporting (files.write (FileName.join directory "report.json") text)

/-- Converts files. -/
def convertFiles (files : FileAccess m) (time : String) (mapping : Mapping) (options : Options)
    (names : List String) (output : Option String) (format : Format) (quiet : Bool) :
    Session m Nat := do
  if let some directory := output then
    attempt (.creating directory) (files.makeDirectories directory)
  let reports ← names.mapM (convertFile files mapping options output format quiet)
  if format = .json then deliverReport files time output reports
  complain (summary reports)
  return if failedCount reports = 0 then 0 else 1

/-- Shows the tree of a file. -/
def showTree (files : FileAccess m) (file : String) : Session m Nat := do
  let source ← readSource files file
  match Grammar.trigger source with
  | .error fault => throw (.source fault)
  | .ok outcome =>
    print (outcome.value.jsonText ++ "\n")
    complainAbout file outcome.notes
    return 0

/-- Shows the tokens of a file. -/
def showTokens (files : FileAccess m) (file : String) : Session m Nat := do
  let (tokens, fault) := Token.recover (← readSource files file)
  print (Text.join "" (tokens.map tokenLine))
  match fault with
  | none => return 0
  | some fault =>
    complain ("error: " ++ fault.message ++ "\n")
    return 1

/-- The mapping that the arguments name, or else the settings. -/
def chooseMapping (files : FileAccess m) (settings : Settings) (asked : Option String) :
    Session m Mapping :=
  match asked with
  | some name => attempt (.mapping (some name)) (Settings.loadMapping files name)
  | none => attempt (.mapping none) (settings.effectiveMapping files)

/-- Carries out an invocation. The user's configuration directory is looked at for settings. -/
def perform (files : FileAccess m) (configuration : Option String) (time : String)
    (invocation : Invocation) : Session m Nat := do
  let settings ← attempt .settings (Settings.discover files configuration invocation.settings)
  let mapping ← chooseMapping files settings invocation.mapping
  match invocation.command with
  | .convert names output format wrap quiet =>
    let options := { settings.output with wrap := wrap.getD settings.output.wrap }
    convertFiles files time mapping options names output format quiet
  | .showTree file => showTree files file
  | .showTokens file => showTokens files file
  | .showMapping =>
    print mapping.toToml
    return 0

/-- Carries out an invocation to its end. -/
def invoke (files : FileAccess m) (configuration : Option String) (time : String)
    (invocation : Invocation) : m Ending := do
  match ← (perform files configuration time invocation).run.run Console.blank with
  | (.ok code, console) => return ⟨code, console⟩
  | (.error failure, console) =>
    return ⟨1, { console with errors := console.errors ++ "Error: " ++ failure.message ++ "\n" }⟩

/-- The text that explains the command line. -/
def helpText : String :=
  "Translate Oracle PL/SQL triggers into PostgreSQL PL/pgSQL

Usage: plsql2pg [OPTIONS] <COMMAND>

Commands:
  translate  Translate trigger files
  ast        Print the parsed tree as JSON
  tokens     Print the token stream
  mapping    Print the effective mapping table as TOML
  help       Print this message or the help of the given subcommand(s)

Options:
  -c, --config <CONFIG>    Config file (default: ./plsql2pg.toml, then the user config dir) [env: PLSQL2PG_CONFIG=]
  -m, --mapping <MAPPING>  Mapping TOML, overriding the configured one
  -h, --help               Print help
  -V, --version            Print version

EXAMPLES:
    plsql2pg translate trg_orders.sql
    plsql2pg translate src/*.sql --wrap function -o out/
    plsql2pg translate src/*.sql --format json > report.json
    plsql2pg mapping > mapping.toml
"

/-- The line that tells the version. -/
def versionText : String := "plsql2pg 0.3.0\n"

/-- Runs the program on its arguments. Arguments that make no sense end it with code 2. -/
def run (files : FileAccess m) (configuration environment : Option String) (time : String)
    (args : List String) : m Ending :=
  match Request.ofArguments environment args with
  | none => return ⟨2, "", helpText⟩
  | some .help => return ⟨0, helpText, ""⟩
  | some .version => return ⟨0, versionText, ""⟩
  | some (.invoke invocation) => invoke files configuration time invocation

end TriggerDialect.CommandLine
