import TriggerDialect.Options

/-!
# Arguments of the command line

The arguments are read in two steps. `scan` turns them into signs by a list of known options,
whatever these mean. `Request.ofArguments` then takes the signs in order: those before the name of a
command, and those after it. The first thing that is wrong, or that asks for help or the version,
decides.
-/

namespace TriggerDialect.CommandLine

/-- An option that may stand among the arguments. -/
structure Switch where
  name : String
  short : Char
  /-- Which values are accepted, if the option takes a value. -/
  accepts : Option (String → Bool)

/-- What an argument turns out to be. -/
inductive Sign where
  /-- An option without a value. -/
  | flag (name : String)
  /-- An option with its value. -/
  | value (name text : String)
  /-- An argument that is no option. -/
  | plain (text : String)
  /-- Nothing that is known. -/
  | wrong
deriving Repr, DecidableEq

/-- What the next argument is taken for. -/
inductive Expectation where
  | anything
  /-- The value of an option. -/
  | valueOf (name : String)
  /-- No options any more. -/
  | plainOnly
deriving Repr, DecidableEq

/-- Whether an argument has the form of an option. -/
def looksLikeOption (arg : String) : Bool :=
  match arg.toList with
  | '-' :: _ :: _ => true
  | _ => false

/-- The value of an option behind its letter, which an equals sign may set off. -/
def attached : List Char → String
  | '=' :: rest => String.ofList rest
  | cs => String.ofList cs

/-- The signs of a run of option letters, and the option that still waits for its value. -/
def letters (switches : List Switch) : List Char → List Sign × Expectation
  | [] => ([], .anything)
  | c :: rest =>
    match switches.find? (·.short == c) with
    | none => ([.wrong], .anything)
    | some switch =>
      if switch.accepts.isSome then
        if rest.isEmpty then ([], .valueOf switch.name)
        else ([.value switch.name (attached rest)], .anything)
      else
        let later := letters switches rest
        (.flag switch.name :: later.1, later.2)

/-- The signs of an option written in full, after its hyphens. -/
def long (switches : List Switch) (cs : List Char) : List Sign × Expectation :=
  let name := String.ofList (cs.takeWhile (· != '='))
  match switches.find? (·.name == name), cs.dropWhile (· != '=') with
  | none, _ => ([.wrong], .anything)
  | some switch, [] =>
    if switch.accepts.isSome then ([], .valueOf name) else ([.flag name], .anything)
  | some switch, _ :: text =>
    if switch.accepts.isSome then ([.value name (String.ofList text)], .anything)
    else ([.wrong], .anything)

/-- The signs of an argument where anything may stand. -/
def signs (switches : List Switch) (arg : String) : List Sign × Expectation :=
  match arg.toList with
  | ['-', '-'] => ([], .plainOnly)
  | '-' :: '-' :: rest => long switches rest
  | '-' :: c :: rest => letters switches (c :: rest)
  | _ => ([.plain arg], .anything)

/-- The signs of a list of arguments. -/
def scan (switches : List Switch) : Expectation → List String → List Sign
  | .valueOf _, [] => [.wrong]
  | _, [] => []
  | .valueOf name, arg :: rest =>
    if looksLikeOption arg then [.wrong] else .value name arg :: scan switches .anything rest
  | .plainOnly, arg :: rest => .plain arg :: scan switches .plainOnly rest
  | .anything, arg :: rest =>
    let found := signs switches arg
    found.1 ++ scan switches found.2 rest

/-- The signs up to the first plain argument, and that argument with those after it. -/
def scanToPlain (switches : List Switch) : Expectation → List String → List Sign × List String
  | .valueOf _, [] => ([.wrong], [])
  | _, [] => ([], [])
  | .valueOf name, arg :: rest =>
    if looksLikeOption arg then ([.wrong], [])
    else
      let later := scanToPlain switches .anything rest
      (.value name arg :: later.1, later.2)
  | .plainOnly, _ :: _ => ([.wrong], [])
  | .anything, arg :: rest =>
    match signs switches arg with
    | ([.plain _], _) => ([], arg :: rest)
    | found =>
      let later := scanToPlain switches found.2 rest
      (found.1 ++ later.1, later.2)

/-! ### Taking signs in order -/

/-- What was given so far. -/
structure Given where
  flags : List String
  values : List (String × String)
  plain : List String

/-- Nothing yet. -/
def Given.nothing : Given := ⟨[], [], []⟩

/-- The value given for an option. -/
def Given.value? (given : Given) (name : String) : Option String := given.values.lookup name

/-- How a list of signs ends. -/
inductive Taken where
  | given (all : Given)
  /-- Something is wrong. -/
  | refused
  /-- A flag that stops the reading, such as one for help. -/
  | stopped (flag : String)

/-- Whether an option accepts a value. -/
def accepted (switches : List Switch) (name text : String) : Bool :=
  switches.any fun switch => switch.name == name && (switch.accepts.any fun accepts => accepts text)

/-- Takes signs in order. An option stands at most once, at most `limit` arguments are plain, and
none of them is empty. -/
def take (switches : List Switch) (stops : List String) (limit : Option Nat) :
    Given → List Sign → Taken
  | given, [] => .given given
  | given, .flag name :: rest =>
    if stops.contains name then .stopped name
    else if given.flags.contains name then .refused
    else take switches stops limit { given with flags := name :: given.flags } rest
  | given, .value name text :: rest =>
    if accepted switches name text && (given.value? name).isNone then
      take switches stops limit { given with values := (name, text) :: given.values } rest
    else .refused
  | given, .plain text :: rest =>
    if text.isEmpty || limit == some given.plain.length then .refused
    else take switches stops limit { given with plain := given.plain ++ [text] } rest
  | _, .wrong :: _ => .refused

/-! ### Requests -/

/-- The form of the result. -/
inductive Format where
  | sql
  | json
deriving Repr, DecidableEq

/-- The name of a form. -/
def Format.name : Format → String
  | .sql => "sql"
  | .json => "json"

/-- All forms. -/
def Format.all : List Format := [.sql, .json]

/-- What the program is told to do. -/
inductive Command where
  /-- Convert files. -/
  | convert (files : List String) (output : Option String) (format : Format) (wrap : Option Wrap)
      (quiet : Bool)
  /-- Show the tree of a file. -/
  | showTree (file : String)
  /-- Show the tokens of a file. -/
  | showTokens (file : String)
  /-- Show the mapping. -/
  | showMapping
deriving Repr, DecidableEq

/-- A command with the files that it is to use. -/
structure Invocation where
  settings : Option String
  mapping : Option String
  command : Command
deriving Repr, DecidableEq

/-- What the arguments ask for. -/
inductive Request where
  | invoke (invocation : Invocation)
  | help
  | version
deriving Repr, DecidableEq

/-- Values that name a file. -/
def isFileName (text : String) : Bool := !text.isEmpty

/-- The options that may stand anywhere. -/
def sharedSwitches : List Switch :=
  [⟨"config", 'c', some isFileName⟩, ⟨"mapping", 'm', some isFileName⟩, ⟨"help", 'h', none⟩]

/-- The options before the command. -/
def firstSwitches : List Switch := sharedSwitches ++ [⟨"version", 'V', none⟩]

/-- The options of a conversion. -/
def convertSwitches : List Switch :=
  sharedSwitches ++ [⟨"output", 'o', some isFileName⟩,
    ⟨"format", 'f', some fun text => Format.all.any (·.name == text)⟩,
    ⟨"wrap", 'w', some fun text => Wrap.all.any (·.name == text)⟩,
    ⟨"quiet", 'q', none⟩]

/-- The options after the name of a command, and how many plain arguments may follow it. -/
def shape? (command : String) : Option (List Switch × Option Nat) :=
  match command with
  | "translate" => some (convertSwitches, none)
  | "ast" => some (sharedSwitches, some 1)
  | "tokens" => some (sharedSwitches, some 1)
  | "mapping" => some (sharedSwitches, some 0)
  | _ => none

/-- The choice that was given for an option. -/
def choice {α : Type} (given : Given) (option : String) (name : α → String) (all : List α) :
    Option α :=
  (given.value? option).bind fun text => all.find? fun a => name a == text

/-- The command of a name with what was given for it. -/
def command? (name : String) (given : Given) : Option Command :=
  match name, given.plain with
  | "translate", file :: files =>
    some (.convert (file :: files) (given.value? "output")
      ((choice given "format" Format.name Format.all).getD .sql)
      (choice given "wrap" Wrap.name Wrap.all) (given.flags.contains "quiet"))
  | "ast", [file] => some (.showTree file)
  | "tokens", [file] => some (.showTokens file)
  | "mapping", [] => some .showMapping
  | _, _ => none

/-- The settings file asked for: after the command, before it, or by the environment. An empty name
in the environment is wrong where it is looked at, which is wherever no option stands. -/
def settingsFile (environment before after : Option String) : Option (Option String) :=
  if environment == some "" && (before.isNone || after.isNone) then none
  else some ((after.or before).or environment)

/-- The request of a command of this name and the arguments after it. -/
def requestAfter (environment : Option String) (before : Given) (name : String)
    (args : List String) : Option Request := do
  let (switches, limit) ← shape? name
  match take switches ["help"] limit .nothing (scan switches .anything args) with
  | .refused => none
  | .stopped _ => return .help
  | .given after =>
    let command ← command? name after
    let settings ← settingsFile environment (before.value? "config") (after.value? "config")
    return .invoke ⟨settings, (after.value? "mapping").or (before.value? "mapping"), command⟩

/-- Whether the arguments after `help` name a command, if there are any. -/
def isTopic : List String → Bool
  | [] => true
  | [name] => (shape? name).isSome || name == "help"
  | _ => false

/-- What the arguments ask for, with the settings file that the environment names. Arguments that
make no sense give `none`. -/
def Request.ofArguments (environment : Option String) (args : List String) : Option Request :=
  let (found, rest) := scanToPlain firstSwitches .anything args
  match take firstSwitches ["help", "version"] (some 0) .nothing found with
  | .refused => none
  | .stopped flag => if flag == "version" then some .version else some .help
  | .given before =>
    match rest with
    | [] => none
    | "help" :: topics => if isTopic topics then some .help else none
    | name :: args => requestAfter environment before name args

end TriggerDialect.CommandLine
