import TriggerDialect.FileName
import TriggerDialect.Workspace.Access

/-!
# Workspaces

A workspace is a directory with all that it holds, as a value. Names are resolved part by part, as a
file system does it: every part but the last has to name a directory. Outside there are the
directories around it, up to the top of the file system, and what is put there.
-/

namespace TriggerDialect

/-- A place: the parts of its name from the workspace. Those of a place outside start with `..` for
each directory further out, or with `/` if it is given from the top of the file system. -/
abbrev Place := List String

/-- Whether a place is one of the directories around the workspace, or the workspace itself. -/
def Place.isAround (place : Place) : Bool := place == ["/"] || place.all (· == "..")

/-- Whether a place is in the workspace. -/
def Place.isInside (place : Place) : Bool := place.head? != some ".." && place.head? != some "/"

/-- The place one directory further out. -/
def Place.outward (place : Place) : Place :=
  if place == ["/"] then place
  else if place.isAround then place ++ [".."]
  else place.dropLast

/-- A directory with all that it holds. -/
structure Workspace where
  /-- The absolute name of the directory itself. -/
  name : String
  directories : List Place
  files : List (Place × String)
deriving Repr, DecidableEq

/-- What stands at a place. -/
inductive Node where
  | directory
  | file (text : String)
deriving Repr, DecidableEq

namespace Workspace

/-- What stands at a place, if anything does. -/
def node? (ws : Workspace) (place : Place) : Option Node :=
  if place.isAround || ws.directories.contains place then some .directory
  else (ws.files.lookup place).map .file

/-- The place that parts of a name lead to from a place. Only the last part may name nothing. -/
def follow (ws : Workspace) : Place → List String → Except FileFault Place
  | here, [] => .ok here
  | here, part :: rest =>
    match ws.node? here with
    | none => .error .notFound
    | some (.file _) => .error .notADirectory
    | some .directory =>
      if part == "" || part == "." then ws.follow here rest
      else if part == ".." then ws.follow here.outward rest
      else ws.follow (here ++ [part]) rest

/-- The place that a name stands for. The empty name stands for none. -/
def place (ws : Workspace) (name : String) : Except FileFault Place :=
  let own := FileName.parts ws.name
  let parts := FileName.parts name
  if name.isEmpty then .error .notFound
  else if own.isPrefixOf parts then ws.follow [] (parts.drop own.length)
  else if FileName.isAbsolute name then ws.follow ["/"] parts
  else ws.follow [] parts

/-- The text of a file. -/
def read (ws : Workspace) (name : String) : Except FileFault String := do
  match ws.node? (← ws.place name) with
  | none => .error .notFound
  | some .directory => .error .isADirectory
  | some (.file text) => .ok text

/-- Whether a name stands for a file. -/
def isFile (ws : Workspace) (name : String) : Bool := (ws.read name).isOk

/-- Whether a name stands for a directory. -/
def isDirectory (ws : Workspace) (name : String) : Bool :=
  match ws.place name with
  | .ok place => ws.node? place == some .directory
  | .error _ => false

/-- The name without the slashes at its end. -/
def withoutSlashes (name : String) : String :=
  String.ofList (name.toList.reverse.dropWhile (· == '/')).reverse

/-- Makes one directory, inside one that is there. -/
def makeDirectory (ws : Workspace) (name : String) : Except FileFault Workspace := do
  let place ← ws.place (withoutSlashes name)
  match ws.node? place with
  | none => .ok { ws with directories := ws.directories ++ [place] }
  | some _ => .error .exists

/-- Makes a directory, which may be there already. -/
def ensureDirectory (ws : Workspace) (name : String) : Except FileFault Workspace :=
  match ws.makeDirectory name with
  | .ok ws => .ok ws
  | .error fault => if ws.isDirectory name then .ok ws else .error fault

/-- Makes a directory and at most `fuel` around it. A directory that stays behind when a later step
fails is kept. -/
def makeFrom : Nat → Workspace → String → Workspace × Except FileFault Unit
  | 0, ws, _ => (ws, .error .notFound)
  | fuel + 1, ws, name =>
    if name.isEmpty then (ws, .ok ())
    else match ws.ensureDirectory name with
      | .ok ws => (ws, .ok ())
      | .error .notFound =>
        match FileName.parent? name with
        | none => (ws, .error .notFound)
        | some around =>
          match makeFrom fuel ws around with
          | (ws, .error fault) => (ws, .error fault)
          | (ws, .ok ()) =>
            match ws.ensureDirectory name with
            | .ok ws => (ws, .ok ())
            | .error fault => (ws, .error fault)
      | .error fault => (ws, .error fault)

/-- Makes a directory and those around it, as far as they are missing. -/
def makeDirectories (ws : Workspace) (name : String) : Workspace × Except FileFault Unit :=
  makeFrom (name.length + 1) ws name

/-- Puts a text at a place. -/
def put (ws : Workspace) (place : Place) (text : String) : Workspace :=
  if (ws.files.lookup place).isSome then
    { ws with files := ws.files.map fun file => if file.1 == place then (place, text) else file }
  else { ws with files := ws.files ++ [(place, text)] }

/-- Writes a file. -/
def write (ws : Workspace) (name text : String) : Except FileFault Workspace := do
  let place ← ws.place name
  match ws.node? place with
  | some .directory => .error .isADirectory
  | _ => .ok (ws.put place text)

/-- The places around a place, from the top, without the place itself. -/
def around (place : Place) : List Place :=
  (List.range (place.length - 1)).map fun n => place.take (n + 1)

/-- The place of a plain name. -/
def plainPlace (name : String) : Place :=
  (FileName.parts name).filter fun part => part != "" && part != "."

/-- The workspace with these files, and the directories that they need. -/
def ofFiles (name : String) (files : List (String × String)) : Workspace :=
  let placed := files.map fun file => (plainPlace file.1, file.2)
  { name
    directories := (placed.flatMap fun file => around file.1).eraseDups
    files := placed }

/-- The name of a place. -/
def nameOf (place : Place) : String := "/".intercalate place

/-- Access to a workspace as a state. -/
def access : FileAccess (StateM Workspace) where
  read name := do return (← get).read name
  isFile name := do return (← get).isFile name
  makeDirectories name := modifyGet fun ws =>
    let (ws, result) := ws.makeDirectories name
    (result, ws)
  write name text := modifyGet fun ws =>
    match ws.write name text with
    | .ok ws => (.ok (), ws)
    | .error fault => (.error fault, ws)

end Workspace

end TriggerDialect
