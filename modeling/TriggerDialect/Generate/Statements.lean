import TriggerDialect.Generate.Declarations

/-!
# Output of statements

Every statement gives one statement of PL/pgSQL, and the tree keeps its shape. Output is a fold: a
form is written when the output of its inner lists is known as a function of the scope.
-/

namespace TriggerDialect.Generate

/-- An inner list: where it stands, its statements, and their output in a scope. -/
structure Inner where
  path : String
  statements : List Statement
  output : Scope → Output

/-- The output of a statement in a scope at a path. -/
abbrev Writer := Scope → String → Output

/-! ### Simple statements -/

/-- A recast fragment with text before and after it, in the statement at `path`. -/
def recastLine (scope : Scope) (path before : String) (f : Fragment) (after : String) : Output :=
  (.ofText before ++ scope.recast (some path) f ++ .ofText after : Draft).line

/-- The rest of `EXIT` or `CONTINUE`. -/
def exitLine (scope : Scope) (path word : String) (loop : Option String)
    (condition : Option Fragment) : Output :=
  let target := match loop with
    | none => ""
    | some name => " " ++ name
  let test : Draft := match condition with
    | none => .ofText ""
    | some f => .ofText " WHEN " ++ scope.recast (some path) f
  (.ofText (word ++ target) ++ test ++ .ofText ";" : Draft).line

/-- `RETURN`, which gives back the row of the trigger where it names no value. -/
def returnLine (scope : Scope) (path : String) (value : Option Fragment) : Output :=
  match value, scope.returnRow with
  | none, some row => .line s!"RETURN {row};"
  | none, none => .line "RETURN;"
  | some f, _ => recastLine scope path "RETURN " f ";"

/-- Whether a text is a statement of PL/pgSQL already. -/
def isStatementText (text : String) : Bool :=
  let first := Text.firstWord text
  ["RAISE", "PERFORM", "EXECUTE", "NULL"].any (Text.sameWord first)

/-- A call as a statement. -/
def callLine (scope : Scope) (path name : String) (arguments : List Fragment) (offset : Nat) :
    Output :=
  let drafts := arguments.map (scope.recast (some path))
  let texts := drafts.map Draft.text
  let found := drafts.flatMap Draft.findings
  let plain := Layout.line (s!"PERFORM {name}(" ++ Text.join ", " texts ++ ");")
  match scope.mapping.function? name with
  | none => ⟨[plain], found ++ [⟨.unmappedProcedure name, offset, some path⟩]⟩
  | some template =>
    match template.expand? texts with
    | some text =>
      ⟨[.line (if isStatementText text then text ++ ";" else s!"PERFORM {text};")], found⟩
    | none =>
      ⟨[plain], found ++
        [⟨.missingArguments name texts.length template.source, offset, some path⟩]⟩

/-- The statement that raises a user exception. -/
def raiseUser (name : String) : Layout :=
  .line s!"RAISE EXCEPTION '{name}' USING ERRCODE = 'P0001';"

/-- `RAISE`. Declared exceptions come before those of the table. -/
def raiseLine (scope : Scope) (path : String) (name : Option String) (offset : Nat) : Output :=
  match name with
  | none => .line "RAISE;"
  | some name =>
    if scope.declares name then .ofSteps [raiseUser name]
    else match scope.mapping.exception? name with
      | some condition => .line s!"RAISE {condition};"
      | none => ⟨[raiseUser name], [⟨.unmappedRaise name, offset, some path⟩]⟩

/-- A raw statement, announced by a comment where the scope asks for it. -/
def rawLines (scope : Scope) (text : Fragment) : Output :=
  .ofSteps ((if scope.annotateRaw then [.comment "untranslated statement, review:"] else []) ++
    [.line (text.text ++ ";")])

/-- A simple statement. -/
def simple (scope : Scope) (path : String) : Simple → Output
  | .select sql => recastLine scope path "" sql ";"
  | .insert sql _ => recastLine scope path "" sql ";"
  | .update sql => recastLine scope path "" sql ";"
  | .delete sql => recastLine scope path "" sql ";"
  | .assignment target value =>
    (scope.recast (some path) target ++ .ofText " := " ++ scope.recast (some path) value ++
      .ofText ";" : Draft).line
  | .exitLoop loop condition => exitLine scope path "EXIT" loop condition
  | .continueLoop loop condition => exitLine scope path "CONTINUE" loop condition
  | .returnValue value => returnLine scope path value
  | .call name arguments offset => callLine scope path name arguments offset
  | .raise name offset => raiseLine scope path name offset
  | .executeImmediate sql => recastLine scope path "EXECUTE " sql ";"
  | .cursor action text => recastLine scope path (action.word ++ " ") text ";"
  | .label name => .line s!"<<{name}>>"
  | .null => .line "NULL;"
  | .raw text => rawLines scope text

/-! ### Branches and loops -/

/-- An arm under a word. -/
def arm (scope : Scope) (path word : String) (a : Arm Inner) : Output :=
  recastLine scope path (word ++ " ") a.condition " THEN" ++ (a.body.output scope).nested

/-- The last branch, if there is one. -/
def elseBranch (scope : Scope) : Option Inner → Output
  | none => .empty
  | some body => .line "ELSE" ++ (body.output scope).nested

/-- The opening line of `CASE`. -/
def caseLine (scope : Scope) (path : String) : Option Fragment → Output
  | none => .line "CASE"
  | some selector => recastLine scope path "CASE " selector ""

/-- The range of a loop. One that counts down starts at the upper bound. -/
def range (scope : Scope) (path : String) (reverse : Bool) (lower upper : Fragment) : Draft :=
  let low := scope.recast (some path) lower
  let high := scope.recast (some path) upper
  ⟨if reverse then "REVERSE " ++ high.text ++ ".." ++ low.text else low.text ++ ".." ++ high.text,
    low.findings ++ high.findings⟩

/-- The body and the end of a loop. -/
def loopBody (scope : Scope) (body : Inner) : Output :=
  (body.output scope).nested ++ .line "END LOOP;"

/-! ### Blocks -/

/-- The condition that a handler name stands for. -/
def condition (scope : Scope) (path : String) (offset : Nat) (name : String) : Draft :=
  if Text.upper name = "OTHERS" then .ofText "OTHERS"
  else if scope.declares name then
    ⟨"raise_exception", [⟨.userHandler name, offset, some path⟩]⟩
  else match scope.mapping.exception? name with
    | some condition => .ofText condition
    | none => ⟨name, [⟨.unmappedCondition name, offset, some path⟩]⟩

/-- The opening line of a handler, which names each condition once. -/
def handlerLine (scope : Scope) (h : Handler Inner) : Output :=
  let conditions := h.names.map (condition scope h.body.path h.offset)
  let texts := (conditions.map Draft.text).eraseDups
  ⟨[.line ("WHEN " ++ Text.join " OR " texts ++ " THEN")], conditions.flatMap Draft.findings⟩

/-- A handler. `closing` gives what follows the last statement of its body. -/
def handler (scope : Scope) (closing : List Statement → List Layout) (h : Handler Inner) : Output :=
  handlerLine scope h ++ (h.body.output scope ++ .ofSteps (closing h.body.statements)).nested

/-- Text that is no handler, as comments. -/
def unparsedComments (unparsed : List Fragment) : Output :=
  .ofSteps (unparsed.map fun text => .comment s!"untranslated handler text, review: {text.text}")

/-- Handlers in the order of the output, where `OTHERS` comes last. -/
def ordered {β : Type} (handlers : List (Handler β)) : List (Handler β) :=
  handlers.filter (fun h => !h.isOthers) ++ handlers.filter fun h => h.isOthers

/-- The exception section, if there are handlers. -/
def exceptionSection (scope : Scope) (closing : List Statement → List Layout)
    (handlers : List (Handler Inner)) (unparsed : List Fragment) : Output :=
  if handlers.isEmpty then .empty
  else
    .line "EXCEPTION" ++
      (unparsedComments unparsed ++
        .concat ((ordered handlers).map (handler scope closing))).nested

/-- A block. Its exceptions are known in its body and its handlers and nowhere else. -/
def block (outer : Scope) (closing : List Statement → List Layout) (b : Block Inner) : Output :=
  let declarations := b.declarations.getD .empty
  let scope := outer.declaring declarations
  let statements := b.body.statements ++ b.handlers.flatMap fun h => h.body.statements
  let rest := if b.handlers.isEmpty then unparsedComments b.unparsed else .empty
  declareSection scope declarations statements ++ .line "BEGIN" ++
    (b.body.output scope ++ .ofSteps (closing b.body.statements) ++ rest).nested ++
    exceptionSection scope closing b.handlers b.unparsed ++ .line "END;"

/-! ### All statements -/

/-- A statement at `path` whose inner lists are known. -/
def form (scope : Scope) (path : String) : Form Inner → Output
  | .simple s => simple scope path s
  | .conditional first others otherwise =>
    arm scope path "IF" first ++ .concat (others.map (arm scope path "ELSIF")) ++
      elseBranch scope otherwise ++ .line "END IF;"
  | .selection selector arms otherwise =>
    caseLine scope path selector ++
      (Output.concat (arms.map (arm scope path "WHEN")) ++ elseBranch scope otherwise).nested ++
      .line "END CASE;"
  | .queryLoop name query body =>
    recastLine scope path s!"FOR {name} IN " query " LOOP" ++ loopBody scope body
  | .rangeLoop name reverse lower upper body =>
    (.ofText s!"FOR {name} IN " ++ range scope path reverse lower upper ++
      .ofText " LOOP" : Draft).line ++ loopBody scope body
  | .whileLoop condition body =>
    recastLine scope path "WHILE " condition " LOOP" ++ loopBody scope body
  | .endlessLoop body => .line "LOOP" ++ loopBody scope body
  | .block b => block scope (fun _ => []) b

/-- A list of statements with their writers, at `path`. -/
def inner (path : String) (body : List (Statement × Writer)) : Inner where
  path
  statements := body.map Prod.fst
  output scope := .concat (body.mapIdx fun i entry => entry.2 scope (Path.child path i))

/-- The output of a statement. -/
def statement : Statement → Writer :=
  Statement.foldWith fun f scope path =>
    form scope path ((f.label path).map fun entry => inner entry.1 entry.2)

/-- A list of statements at `path`. -/
def body (path : String) (statements : List Statement) : Inner :=
  inner path (statements.map fun s => (s, statement s))

end TriggerDialect.Generate
