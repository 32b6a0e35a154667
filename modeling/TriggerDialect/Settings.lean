import TriggerDialect.FileName
import TriggerDialect.Mapping.Encoding
import TriggerDialect.Options.Decoding
import TriggerDialect.Workspace.Access

/-!
# Settings

A settings file names a mapping file and gives the options of the output. The mapping file is looked
for from the directory of the settings file.
-/

namespace TriggerDialect

/-- The settings of the program. -/
structure Settings where
  /-- The mapping file, if one is named. -/
  mapping : Option String
  output : Options
  /-- The directory of the file that the settings come from. -/
  directory : Option String
deriving Repr, DecidableEq

/-- Why settings or a mapping could not be loaded. -/
inductive LoadFault where
  /-- The settings file cannot be read. -/
  | settingsUnreadable (name : String) (fault : FileFault)
  | settingsMalformed
  /-- The mapping file cannot be read. -/
  | mappingUnreadable (fault : FileFault)
  | mappingMalformed
deriving Repr, DecidableEq

/-- The wording of a fault. -/
def LoadFault.message : LoadFault → String
  | .settingsUnreadable name fault => s!"Configuration error: {name}: {fault.message}"
  | .settingsMalformed => "Configuration error: TOML parse error"
  | .mappingUnreadable fault => s!"IO error: {fault.message}"
  | .mappingMalformed => "Mapping error: TOML parse error"

/-- The wording of a fault together with its cause. -/
def LoadFault.detailed : LoadFault → String
  | .mappingUnreadable fault =>
    s!"{(LoadFault.mappingUnreadable fault).message}: {fault.message}"
  | fault => fault.message

namespace Settings

/-- The settings that hold unless others are given. -/
def standard : Settings := ⟨none, .standard, none⟩

/-- The settings that a TOML document describes. -/
def ofToml? (text : String) : Option Settings := do
  let entries ← (← Toml.read text).entries?
  return {
    mapping := ← Toml.fallback entries "mapping" none fun value => value.text?.map some
    output := ← Toml.fallback entries "output" Options.standard Options.ofToml?
    directory := none }

/-- The name of the mapping file, seen from the working directory. -/
def mappingFile? (s : Settings) : Option String :=
  s.mapping.map fun name =>
    match s.directory with
    | none => name
    | some directory => FileName.join directory name

/-- The name of the settings file in the working directory. -/
def localName : String := "plsql2pg.toml"

/-- The name of the settings file in a user's configuration directory. -/
def userName (configuration : String) : String :=
  FileName.join (FileName.join configuration "plsql2pg") "config.toml"

variable {m : Type → Type} [Monad m]

/-- Loads a settings file. -/
def load (files : FileAccess m) (name : String) : m (Except LoadFault Settings) := do
  match ← files.read name with
  | .error fault => return .error (.settingsUnreadable name fault)
  | .ok text =>
    match ofToml? text with
    | none => return .error .settingsMalformed
    | some s => return .ok { s with directory := FileName.parent? name }

/-- Loads the first of these files that is there, or the standard settings if none is. -/
def loadFirst (files : FileAccess m) : List String → m (Except LoadFault Settings)
  | [] => return .ok standard
  | name :: rest => do
    if ← files.isFile name then load files name else loadFirst files rest

/-- Loads the file that is asked for, or else the local one, or else the user's. -/
def discover (files : FileAccess m) (configuration asked : Option String) :
    m (Except LoadFault Settings) :=
  match asked with
  | some name => load files name
  | none => loadFirst files (localName :: (configuration.map userName).toList)

/-- Loads a mapping file. -/
def loadMapping (files : FileAccess m) (name : String) : m (Except LoadFault Mapping) := do
  match ← files.read name with
  | .error fault => return .error (.mappingUnreadable fault)
  | .ok text =>
    match Mapping.ofToml? text with
    | none => return .error .mappingMalformed
    | some mapping => return .ok mapping

/-- Loads the mapping that the settings name, which is the Oracle mapping if they name none. -/
def effectiveMapping (files : FileAccess m) (s : Settings) : m (Except LoadFault Mapping) :=
  match s.mappingFile? with
  | some name => loadMapping files name
  | none => return .ok .oracle

end Settings

end TriggerDialect
