import TriggerDialect.Grammar.Names
import TriggerDialect.Tree.Form

/-!
# Recognising simple statements

The span of a statement is read without its semicolon. A failed reading gives the reason why the
span is kept as it stands.
-/

namespace TriggerDialect.Grammar

open Fragment

/-- The words that start a statement. -/
inductive Lead where
  | conditional
  | selection
  | counted
  | whileLoop
  | endlessLoop
  | block
  | select
  | insert
  | update
  | delete
  | raise
  | null
  | exitLoop
  | continueLoop
  | returnValue
  | cursor (action : CursorAction)
  | execute
deriving Repr, DecidableEq

/-- Which reserved word leads to which kind of statement. -/
def leadWords : List (String × Lead) :=
  [("IF", .conditional), ("CASE", .selection), ("FOR", .counted), ("WHILE", .whileLoop),
    ("LOOP", .endlessLoop), ("DECLARE", .block), ("BEGIN", .block), ("SELECT", .select),
    ("WITH", .select), ("INSERT", .insert), ("UPDATE", .update), ("DELETE", .delete),
    ("RAISE", .raise), ("NULL", .null), ("EXIT", .exitLoop), ("CONTINUE", .continueLoop),
    ("RETURN", .returnValue), ("OPEN", .cursor .opening), ("FETCH", .cursor .fetching),
    ("CLOSE", .cursor .closing), ("EXECUTE", .execute)]

/-- The kind of statement that a reserved word leads to. -/
def leadOf (t : Token) : Option Lead :=
  if t.kind = .keyword then leadWords.lookup t.upper else none

/-- The single token of each part, if all are identifiers. -/
def columnNames (parts : List (List Token)) : Option (List String) :=
  parts.mapM fun part =>
    match part with
    | [t] => if t.isIdentifier then some t.text else none
    | _ => none

/-- The tokens after an optional identifier. -/
def skipIdentifier : List Token → List Token
  | [] => []
  | t :: rest => if t.isIdentifier then rest else t :: rest

/-- The parts of `INSERT INTO table [alias] (columns) VALUES (values)`, after `INSERT`. Each column
is an identifier and has a value. -/
def insertTarget (ts : List Token) : Option InsertTarget := do
  let rest ← eatWord? "INTO" ts
  let (table, rest) ← (qualifiedName rest).toOption
  let (columns, rest) ← bracketGroup (skipIdentifier rest)
  let columns ← columnNames (splitCommas columns)
  let rest ← eatWord? "VALUES" rest
  let (values, rest) ← bracketGroup rest
  let values := (splitCommas values).map ofTokens
  if rest.isEmpty && values.length == columns.length && !values.any isEmpty then
    some ⟨table, columns, values⟩
  else none

/-- The rest of `RAISE`: nothing or one name. -/
def raised (offset : Nat) (ts : List Token) : Except String Simple :=
  match ts with
  | [] => .ok (.raise none offset)
  | t :: rest =>
    match qualifiedName (t :: rest) with
    | .error stuck => .error stuck.reason
    | .ok (name, []) => .ok (.raise (some name) offset)
    | .ok (_, _ :: _) => .error "RAISE takes a single exception name"

/-- The label after `EXIT` or `CONTINUE`, if there is one. -/
def loopLabel : List Token → Option String × List Token
  | [] => (none, [])
  | t :: rest => if t.isIdentifier then (some t.text, rest) else (none, t :: rest)

/-- `[label] [WHEN condition]` after `word`. -/
def exitClause (word : String) (ts : List Token) :
    Except String (Option String × Option Fragment) :=
  let (label, rest) := loopLabel ts
  match rest with
  | [] => .ok (label, none)
  | t :: condition =>
    if t.isKeyword "WHEN" && !condition.isEmpty then
      .ok (label, some (ofTokens condition))
    else .error s!"malformed {word}"

/-- The rest of `EXIT` or `CONTINUE`, which is `word`. -/
def exitStatement (make : Option String → Option Fragment → Simple) (word : String)
    (ts : List Token) : Except String Simple :=
  (exitClause word ts).map fun (label, condition) => make label condition

/-- The rest of a cursor action. -/
def cursorAction (action : CursorAction) (ts : List Token) : Except String Simple :=
  if ts.isEmpty then .error s!"{action.word} without a cursor"
  else .ok (.cursor action (ofTokens ts))

/-- The rest of `EXECUTE`. -/
def executeImmediate (ts : List Token) : Except String Simple :=
  match ts with
  | [] => .error "EXECUTE without IMMEDIATE"
  | t :: rest =>
    if t.isWord "IMMEDIATE" && !rest.isEmpty then .ok (.executeImmediate (ofTokens rest))
    else .error "EXECUTE without IMMEDIATE"

/-- The arguments of a call; an empty pair of brackets has none. -/
def callArguments (inner : List Token) : List Fragment :=
  if inner.isEmpty then [] else (splitCommas inner).map ofTokens

/-- `name [(arguments)]` -/
def procedureCall (offset : Nat) (ts : List Token) : Except String Simple :=
  match qualifiedName ts with
  | .error stuck => .error stuck.reason
  | .ok (name, rest) =>
    match rest with
    | [] => .ok (.call name [] offset)
    | t :: after =>
      match bracketGroup (t :: after) with
      | some (inner, []) => .ok (.call name (callArguments inner) offset)
      | _ => .error s!"unsupported statement '{name} {render ((t :: after).take 3)}'"

/-- An assignment or a call, which no reserved word announces. -/
def plainStatement (ts : List Token) : Except String Simple :=
  match ts with
  | [] => .error "unsupported statement starting with ''"
  | t :: rest =>
    match spanAtDepth (·.isOp ":=") (t :: rest) with
    | (target, _ :: value) =>
      if target.isEmpty || value.isEmpty then .error "incomplete assignment"
      else .ok (.assignment (ofTokens target) (ofTokens value))
    | (_, []) =>
      if t.isIdentifier then procedureCall t.offset (t :: rest)
      else .error s!"unsupported statement starting with '{t.text}'"

end TriggerDialect.Grammar
