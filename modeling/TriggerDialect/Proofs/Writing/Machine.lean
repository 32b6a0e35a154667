import TriggerDialect.Proofs.Writing.Equations

/-!
# A generator with a state

The output of a trigger as actions on one state, each of which starts from what the one before it
left. Lines go to the end of what is written, at the level of the state. Levels are entered and
left. A block adds its exceptions to the state and puts the former ones back before its last line. A
function sets the row that a bare `RETURN` gives back. An action fails where it leaves a level at
zero.
-/

namespace TriggerDialect.Generate

/-- What follows the last statement of a body: in the outermost block, a `RETURN` where it is
missing. -/
def closingOf (scope : Scope) (outermost : Bool) (statements : List Statement) : List Layout :=
  if outermost then trailingReturn scope statements else []

/-- The scope, the level of indentation, and what was written and found so far. -/
structure State extends Scope where
  level : Nat
  /-- Lines and comments, each with its level. -/
  written : List (Nat × Layout)
  findings : List Finding

namespace State

/-- The state with more written and found. -/
def add (w : State) (entries : List (Nat × Layout)) (found : List Finding) : State :=
  { w with written := w.written ++ entries, findings := w.findings ++ found }

/-- The text written so far. -/
def text (w : State) (width : Nat) : String :=
  String.ofList (w.written.flatMap fun entry => entry.2.chars width entry.1)

/-- The state at the start, where no exception is known and no row is given back. -/
def start (mapping : Mapping) (options : Options) (t : Trigger) : State where
  context := contextOf mapping t
  annotateRaw := options.annotateRaw
  returnRow := none
  exceptions := []
  level := 0
  written := []
  findings := []

end State

/-- A part of the generator. -/
abbrev Action := StateT State Option Unit

/-- An inner list: where it stands, its statements, and the action that writes them. -/
structure Task where
  path : String
  statements : List Statement
  action : Action

namespace Action

/-- Enters a level. -/
def push : Action := modify fun w => { w with level := w.level + 1 }

/-- Leaves a level. -/
def pop : Action := do
  let w ← get
  if w.level = 0 then failure else set { w with level := w.level - 1 }

/-- Writes lines and comments at the level of the state and reports what was found on the way. -/
def emit (o : Scope → Output) : Action :=
  modify fun w => w.add ((o w.toScope).steps.map (w.level, ·)) (o w.toScope).findings

/-- Writes one line. -/
def line (text : String) : Action := emit fun _ => .line text

/-- An action one level deeper. -/
def nested (a : Action) : Action := do
  push
  a
  pop

/-! ### Branches and loops -/

/-- An arm under a word. -/
def arm (path word : String) (a : Arm Task) : Action := do
  emit fun scope => recastLine scope path (word ++ " ") a.condition " THEN"
  nested a.body.action

/-- The last branch, if there is one. -/
def elseBranch : Option Task → Action
  | none => pure ()
  | some body => do
    line "ELSE"
    nested body.action

/-- The body and the end of a loop. -/
def loopBody (body : Task) : Action := do
  nested body.action
  line "END LOOP;"

/-! ### Blocks -/

/-- An action while the exceptions of declarations are known. Those known before are saved and put
back after it. -/
def declaring (d : Declarations) (a : Action) : Action := do
  let outer := (← get).exceptions
  modify fun w => { w with toScope := w.toScope.declaring d }
  a
  modify fun w => { w with exceptions := outer }

/-- The declarations of a block with these statements in its body and handlers. -/
def declareSection (d : Declarations) (statements : List Statement) : Action :=
  let records := recordNames d statements
  if d.toList.isEmpty && records.isEmpty then pure ()
  else do
    line "DECLARE"
    nested do
      d.toList.forM fun item => emit fun scope => declaration scope item
      emit fun _ => .ofSteps (records.map fun name => .line s!"{name} RECORD;")

/-- What follows the last statement of a body. -/
def closing (outermost : Bool) (statements : List Statement) : Action :=
  emit fun scope => .ofSteps (closingOf scope outermost statements)

/-- A handler. -/
def handler (outermost : Bool) (h : Handler Task) : Action := do
  emit fun scope => handlerLine scope (h.map fun task => body task.path task.statements)
  nested do
    h.body.action
    closing outermost h.body.statements

/-- The exception section, if there are handlers. -/
def handlers (outermost : Bool) (list : List (Handler Task)) (unparsed : List Fragment) : Action :=
  if list.isEmpty then pure ()
  else do
    line "EXCEPTION"
    nested do
      emit fun _ => unparsedComments unparsed
      (ordered list).forM (handler outermost)

/-- A block. Its exceptions are known up to its last line. -/
def block (outermost : Bool) (b : Block Task) : Action := do
  let d := b.declarations.getD .empty
  declaring d do
    declareSection d (b.body.statements ++ b.handlers.flatMap fun h => h.body.statements)
    line "BEGIN"
    nested do
      b.body.action
      closing outermost b.body.statements
      emit fun _ => if b.handlers.isEmpty then unparsedComments b.unparsed else .empty
    handlers outermost b.handlers b.unparsed
  line "END;"

/-! ### All statements -/

/-- A statement at `path` whose inner lists have their actions. -/
def form (path : String) : Form Task → Action
  | .simple s => emit fun scope => simple scope path s
  | .conditional first others otherwise => do
    arm path "IF" first
    others.forM (arm path "ELSIF")
    elseBranch otherwise
    line "END IF;"
  | .selection selector arms otherwise => do
    emit fun scope => caseLine scope path selector
    nested do
      arms.forM (arm path "WHEN")
      elseBranch otherwise
    line "END CASE;"
  | .queryLoop name query body => do
    emit fun scope => recastLine scope path s!"FOR {name} IN " query " LOOP"
    loopBody body
  | .rangeLoop name reverse lower upper body => do
    emit fun scope => (.ofText s!"FOR {name} IN " ++ range scope path reverse lower upper ++
      .ofText " LOOP" : Draft).line
    loopBody body
  | .whileLoop condition body => do
    emit fun scope => recastLine scope path "WHILE " condition " LOOP"
    loopBody body
  | .endlessLoop body => do
    line "LOOP"
    loopBody body
  | .block b => block false b

/-- A list of statements with their actions, at `path`. -/
def task (path : String) (body : List (Statement × (String → Action))) : Task where
  path
  statements := body.map Prod.fst
  action := (body.mapIdx fun i entry => entry.2 (Path.child path i)).forM id

/-- The action of a statement at a path. -/
def statement : Statement → String → Action :=
  Statement.foldWith fun f path =>
    form path ((f.label path).map fun entry => task entry.1 entry.2)

/-- A list of statements at its path. -/
def listed (list : String × List Statement) : Task :=
  task list.1 (list.2.map fun s => (s, statement s))

/-! ### Triggers -/

/-- The block of a trigger. -/
def triggerBlock (t : Trigger) : Action :=
  block true {
    declarations := some t.declarations
    body := listed ("", t.body)
    handlers := (labelHandlers "" t.handlers).map (Handler.map listed)
    unparsed := t.unparsed }

/-- The lines of a function around the text of its block, and the `CREATE TRIGGER` after it. -/
def functionText (text : String) (header : Option Header) : Action := do
  emit fun _ => .ofSteps (functionLines (functionName header).text text)
  emit fun scope => triggerLines scope.context header

/-- A trigger as a function. Its block is written apart, from level zero on. -/
def triggerFunction (width : Nat) (t : Trigger) : Action := do
  modify fun w => { w with returnRow := some (returnRow t.header) }
  emit fun _ => ⟨[], (functionName t.header).findings⟩
  let w ← get
  set { w with level := 0, written := [] }
  triggerBlock t
  let apart ← get
  set { apart with level := w.level, written := w.written }
  functionText (apart.text width) t.header

/-- A trigger under the options. -/
def trigger (options : Options) (t : Trigger) : Action :=
  match options.wrap with
  | .block => triggerBlock t
  | .function => triggerFunction options.indent t

/-- The text and the reports of a trigger, from the start on. -/
def generated (mapping : Mapping) (options : Options) (t : Trigger) : Option Generated :=
  ((trigger options t).run (.start mapping options t)).map fun result =>
    ⟨result.2.text options.indent, Finding.report result.2.findings⟩

end Action

end TriggerDialect.Generate
