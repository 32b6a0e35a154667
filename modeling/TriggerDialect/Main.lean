import Std.Time.DateTime.Timestamp
import TriggerDialect.CommandLine.Run
import TriggerDialect.Timestamp

/-!
# The program

Connects the command line to the files, the environment and the clock of the system.
-/

namespace TriggerDialect

/-- The fault that an error of the system stands for. -/
def FileFault.ofError (e : IO.Error) : FileFault :=
  match e with
  | .noFileOrDirectory _ _ _ => .notFound
  | .alreadyExists _ _ _ => .exists
  | .inappropriateType _ code _ =>
    -- Some operations of the system give their codes negated.
    if code = 20 ∨ 0 - code = 20 then .notADirectory else .isADirectory
  | .permissionDenied _ _ _ => .other "Permission denied (os error 13)"
  | e => .other (toString e)

/-- The result of an action on the system's files. -/
def FileFault.catching {α : Type} (action : IO α) : IO (Except FileFault α) := do
  match ← action.toBaseIO with
  | .ok a => return .ok a
  | .error e => return .error (FileFault.ofError e)

/-- The text of a file of the system. -/
def readSystemFile (name : String) : IO (Except FileFault String) := do
  match ← FileFault.catching (IO.FS.readBinFile name) with
  | .error fault => return .error fault
  | .ok bytes =>
    match String.fromUTF8? bytes with
    | none => return .error .notText
    | some text => return .ok text

/-- Access to the files of the system. -/
def systemFiles : FileAccess IO where
  read := readSystemFile
  isFile name := do
    match ← readSystemFile name with
    | .ok _ => return true
    | .error fault => return fault == .notText
  makeDirectories name := FileFault.catching (IO.FS.createDirAll name)
  write name text := FileFault.catching (IO.FS.writeFile name text)

/-- The user's configuration directory. -/
def configurationDirectory : IO (Option String) := do
  match ← IO.getEnv "XDG_CONFIG_HOME" with
  | some name => if FileName.isAbsolute name then return some name else fromHome
  | none => fromHome
where
  fromHome : IO (Option String) := do
    return (← IO.getEnv "HOME").map fun home => FileName.join home ".config"

end TriggerDialect

/-- Runs the program. -/
def main (args : List String) : IO UInt32 := do
  let moment ← Std.Time.Timestamp.now
  let time := TriggerDialect.Timestamp.text moment.toNanosecondsSinceUnixEpoch.val.toNat
  let ending ← TriggerDialect.CommandLine.run TriggerDialect.systemFiles
    (← TriggerDialect.configurationDirectory) (← IO.getEnv "PLSQL2PG_CONFIG") time args
  (← IO.getStdout).putStr ending.console.output
  (← IO.getStderr).putStr ending.console.errors
  return UInt32.ofNat ending.code
