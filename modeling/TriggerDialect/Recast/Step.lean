import TriggerDialect.Finding
import TriggerDialect.Mapping.Basic
import TriggerDialect.Nesting
import TriggerDialect.Token.Chain
import TriggerDialect.Token.Literal
import TriggerDialect.Tree.Fragment

/-!
# Rules for recasting expressions

`step` decides what becomes of the first tokens of an expression or an SQL text: they are written
in another way, or they are a call whose arguments come first. What has no rule stays as it is, and
what cannot be said in PostgreSQL is noted.
-/

namespace TriggerDialect.Recast

open Text

/-- What the recasting depends on. -/
structure Context where
  mapping : Mapping
  newAlias : String
  oldAlias : String
  /-- The declared cursors in upper case, which are not functions. -/
  cursors : List String
  /-- Whether rows are named without a colon. -/
  bareRows : Bool
deriving Repr, DecidableEq

/-- A cause and its offset in the source. -/
structure Remark where
  cause : Cause
  offset : Nat
deriving Repr, DecidableEq

/-- Text pieces and what was noted on the way. -/
structure Result where
  pieces : List Piece
  remarks : List Remark
deriving Repr, DecidableEq

/-- What becomes of the arguments of a call: a text in its place, unless the call stays. -/
structure Ending where
  text : Option String
  remarks : List Remark
deriving Repr, DecidableEq

/-- What to do with the first tokens of a list. -/
inductive Step where
  /-- Write pieces and go on with `rest`; `into` says whether `INTO` was passed last. -/
  | write (pieces : List Piece) (remarks : List Remark) (into : Bool) (rest : List Token)
  /-- Recast the arguments and finish the call. If it is replaced, go on with `rest`, otherwise
  write its name and go on with its bracket. -/
  | call (arguments : List (List Token)) (finish : List String → Ending) (rest : List Token)
      (name : Piece) (into : Bool) (bracket : List Token)

/-- Functions of the same name and meaning in PostgreSQL. -/
def sharedFunctions : List String :=
  ["ABS", "ASCII", "AVG", "CEIL", "CHR", "COALESCE", "CONCAT", "COUNT", "DENSE_RANK", "EXP",
    "EXTRACT", "FLOOR", "GREATEST", "INITCAP", "LAG", "LEAD", "LEAST", "LENGTH", "LN", "LOG",
    "LOWER", "LPAD", "LTRIM", "MAX", "MIN", "MOD", "NULLIF", "POWER", "RANK", "REGEXP_REPLACE",
    "REPLACE", "ROUND", "ROW_NUMBER", "RPAD", "RTRIM", "SIGN", "SQRT", "SUBSTR", "SUM",
    "TO_CHAR", "TO_DATE", "TO_NUMBER", "TO_TIMESTAMP", "TRANSLATE", "TRIM", "UPPER"]

/-- A context without cursors, for rows named `NEW` and `OLD`. -/
def Context.plain (mapping : Mapping) : Context := ⟨mapping, "NEW", "OLD", [], false⟩

/-- The row that a name stands for. -/
def Context.row? (ctx : Context) (name : String) : Option String :=
  if sameWord name ctx.newAlias then some "NEW"
  else if sameWord name ctx.oldAlias then some "OLD"
  else none

/-- Text that takes the place of an identifier. -/
def replaced (text : String) : Piece := ⟨.identifier, text⟩

/-! ### Single tokens -/

/-- A bind variable: a column of a row, or a variable of the host. -/
def bind (ctx : Context) (t : Token) : Piece × List Remark :=
  let name := t.text.toList.drop 1
  let head := name.takeWhile (· != '.')
  match ctx.row? (String.ofList head) with
  | some row => (replaced (row ++ String.ofList (name.dropWhile (· != '.'))), [])
  | none => (replaced t.text, [⟨.hostBind t.text, t.offset⟩])

/-- An operator. -/
def operator (text : String) : String :=
  if text == "!=" || text == "^=" || text == "~=" then "<>"
  else if text == "**" then "^"
  else text

/-- Whether a literal has a letter before its quote. -/
def isMarkedLiteral (text : String) : Bool :=
  match text.toList with
  | c :: _ => c == 'q' || c == 'Q' || c == 'n' || c == 'N'
  | [] => false

/-- A literal in plain quotes. -/
def literal (text : String) : String :=
  if isMarkedLiteral text then
    match Literal.contents? text with
    | some value => Literal.quote value
    | none => text
  else text

/-- Whether an outer join mark `(+)` starts here. -/
def startsOuterJoin : List Token → Bool
  | opening :: plus :: closing :: _ => opening.isPunct '(' && plus.isOp "+" && closing.isPunct ')'
  | _ => false

/-- The tokens after a leading `DUAL` that is no qualifier. -/
def afterDual? : List Token → Option (List Token)
  | [] => none
  | t :: rest =>
    if t.isWord "DUAL" then
      match rest with
      | dot :: _ => if dot.isPunct '.' then none else some rest
      | [] => some []
    else none

/-! ### Calls -/

/-- What becomes of a type, with a remark when the table does not have it. -/
def typeText (ctx : Context) (type : DeclaredType) (offset : Nat) : String × List Remark :=
  match ctx.mapping.type? type with
  | some text => (text, [])
  | none => (type.shown, [⟨.unmappedType type.key type.name, offset⟩])

/-- The arguments between the brackets of a call. -/
def argumentsOf (inner : List Token) : List (List Token) :=
  if inner.isEmpty then [] else splitCommas inner

/-- A call by its template. -/
def finishTemplate (name : String) (template : Template) (offset : Nat)
    (arguments : List String) : Ending :=
  match template.expand? arguments with
  | some text => ⟨some text, []⟩
  | none => ⟨none, [⟨.missingArguments name arguments.length template.source, offset⟩]⟩

/-- The arms of a `DECODE` after its first argument. -/
def decodeArms (value : String) : List String → String
  | key :: result :: rest =>
    " WHEN " ++ value ++ " IS NOT DISTINCT FROM " ++ key ++ " THEN " ++ result ++
      decodeArms value rest
  | [default] => " ELSE " ++ default
  | [] => ""

/-- `DECODE` as a `CASE`. Comparison treats two nulls as equal. -/
def decode? : List String → Option String
  | value :: key :: result :: rest =>
    some ("CASE" ++ decodeArms value (key :: result :: rest) ++ " END")
  | _ => none

/-- Cuts at the last `AS` outside all nesting, where the nesting starts anew after each one. -/
def splitLastAs (ts : List Token) : Option (List Token × List Token) :=
  match h : spanAtDepth (·.isKeyword "AS") ts with
  | (_, []) => none
  | (front, word :: rest) =>
    have : rest.length < ts.length := spanAtDepth_rest_lt h
    match splitLastAs rest with
    | none => some (front, rest)
    | some (more, last) => some (front ++ word :: more, last)
termination_by ts.length

/-- A `CAST` of one recast expression. -/
def finishCast (ctx : Context) (type : DeclaredType) (offset : Nat) (arguments : List String) :
    Ending :=
  let target := typeText ctx type offset
  ⟨some ("CAST(" ++ join ", " arguments ++ " AS " ++ target.1 ++ ")"), target.2⟩

/-- The column that `UPDATING` asks about. -/
def updatedColumn? : List Token → Option String
  | [t] => if t.kind = .stringLiteral then Literal.contents? t.text else none
  | _ => none

/-- The test whether an update changes a column. -/
def updatingTest (column : String) : String :=
  let name := lower column
  "(TG_OP = 'UPDATE' AND NEW." ++ name ++ " IS DISTINCT FROM OLD." ++ name ++ ")"

/-- A call of the function `name`, in upper case, at `offset`; `inner` stands between its brackets,
`rest` after them. `written` is the name as it stands, and `bracket` starts with the bracket. -/
def callStep (ctx : Context) (name : String) (offset : Nat) (written : Piece) (into : Bool)
    (bracket inner rest : List Token) : Step :=
  let kept (remarks : List Remark) : Step := .write [written] remarks into bracket
  match ctx.mapping.function? name with
  | some template =>
    .call (argumentsOf inner) (finishTemplate name template offset) rest written into bracket
  | none =>
    if name = "CAST" then
      match splitLastAs inner with
      | none => kept []
      | some (value, target) =>
        match DeclaredType.parse? (render target) with
        | none => kept []
        | some type => .call [value] (finishCast ctx type offset) rest written into bracket
    else if name = "DECODE" then
      .call (argumentsOf inner) (fun arguments => ⟨decode? arguments, []⟩) rest written into bracket
    else if name = "UPDATING" then
      match updatedColumn? inner with
      | some column => .write [replaced (updatingTest column)] [] false rest
      | none => kept []
    else if sharedFunctions.contains name then kept []
    else kept [⟨.unmappedFunction name, offset⟩]

/-! ### Identifiers -/

/-- The value of an attribute of the last SQL statement. -/
def sqlAttribute? (name : String) : Option String :=
  if name = "FOUND" then some "FOUND"
  else if name = "NOTFOUND" then some "NOT FOUND"
  else if name = "ISOPEN" then some "false"
  else none

/-- The test that a bare event word stands for. -/
def eventTest? (name : String) : Option String :=
  if name = "INSERTING" then some "(TG_OP = 'INSERT')"
  else if name = "UPDATING" then some "(TG_OP = 'UPDATE')"
  else if name = "DELETING" then some "(TG_OP = 'DELETE')"
  else none

/-- The texts of the segments of a name. -/
def texts (ts : List Token) : List String := ts.map fun t => t.text

/-- Whether the last token is `INTO`. -/
def endsInto (ts : List Token) : Bool := ts.getLast?.any fun t => t.isKeyword "INTO"

/-- `sequence.NEXTVAL` and `sequence.CURRVAL`. -/
def sequenceCall? (names : List String) : Option String :=
  match names.getLast? with
  | none => none
  | some last =>
    let last := upper last
    if 2 ≤ names.length ∧ (last = "NEXTVAL" ∨ last = "CURRVAL") then
      some (lower last ++ "('" ++ join "." names.dropLast ++ "')")
    else none

/-- An attribute of the last SQL statement after the name `SQL`: its value and what follows. -/
def sqlValue? : List Token → Option (String × List Token)
  | percent :: asked :: rest =>
    if percent.isOp "%" then (sqlAttribute? asked.upper).map fun text => (text, rest)
    else none
  | _ => none

/-- Whether the number of rows is asked for after the name `SQL`. -/
def asksRowCount : List Token → Bool
  | percent :: asked :: _ => percent.isOp "%" && asked.isWord "ROWCOUNT"
  | _ => false

/-- A column of a row that is named without a colon. -/
def bareColumn? (ctx : Context) (names : List String) : Option String :=
  match names with
  | first :: second :: rest =>
    if ctx.bareRows then
      (ctx.row? first).map fun row => row ++ "." ++ join "." (second :: rest)
    else none
  | _ => none

/-- What a single name stands for outside calls. -/
def bareWord? (ctx : Context) (name : String) : Option String :=
  match eventTest? name with
  | some test => some test
  | none =>
    match ctx.mapping.function? name with
    | some template => if template.hasPlaces then none else some template.source
    | none => none

/-- A name that is not called; `names` are its segments. -/
def nameStep (ctx : Context) (names : List String) (offset : Nat) (into : Bool)
    (remarks : List Remark) (rest : List Token) : Step :=
  let name := join "." names
  let upper := upper name
  match names with
  | [_] =>
    match bareWord? ctx upper with
    | some text => .write [replaced text] remarks into rest
    | none =>
      let more : List Remark := if upper = "ROWNUM" then [⟨.rowNumber, offset⟩] else []
      .write [replaced name] (remarks ++ more) into rest
  | _ => .write [replaced name] remarks into rest

/-- Whether a call starts here: a bracket that is no outer join mark. -/
def startsCall (ts : List Token) : Bool :=
  match ts with
  | [] => false
  | t :: _ => t.isPunct '(' && !startsOuterJoin ts

/-- A name that a bracket follows. A table after `INTO`, a cursor and a bracket without a partner
make no call. -/
def bracketStep (ctx : Context) (names : List String) (offset : Nat) (afterInto into : Bool)
    (rest : List Token) : Step :=
  let name := join "." names
  let upper := upper name
  if afterInto || ctx.cursors.contains upper then .write [replaced name] [] into rest
  else match bracketGroup rest with
    | none => .write [replaced name] [] into rest
    | some (inner, after) => callStep ctx upper offset (replaced name) into rest inner after

/-- The number of rows asked for after the name `SQL` cannot be told. -/
def rowCountRemarks (isSql : Bool) (offset : Nat) (rest : List Token) : List Remark :=
  if isSql && asksRowCount rest then [⟨.rowCount, offset⟩] else []

/-- An identifier that is neither a sequence nor a value of `SQL`. -/
def plainStep (ctx : Context) (afterInto isSql : Bool) (t : Token) (more rest : List Token) :
    Step :=
  let names := texts (t :: more)
  let into := endsInto (t :: more)
  match bareColumn? ctx names with
  | some text => .write [replaced text] [] into rest
  | none =>
    if startsCall rest then bracketStep ctx names t.offset afterInto into rest
    else nameStep ctx names t.offset into (rowCountRemarks isSql t.offset rest) rest

/-- An identifier with the segments after it; `rest` follows the last one. -/
def identifierStep (ctx : Context) (afterInto : Bool) (t : Token) (more rest : List Token) : Step :=
  match sequenceCall? (texts (t :: more)) with
  | some text => .write [replaced text] [] (endsInto (t :: more)) rest
  | none =>
    let isSql := upper (join "." (texts (t :: more))) == "SQL"
    match if isSql then sqlValue? rest else none with
    | some (text, after) => .write [replaced text] [] false after
    | none => plainStep ctx afterInto isSql t more rest

/-- A token that stays as it is. -/
def keepStep (t : Token) (remarks : List Remark) (rest : List Token) : Step :=
  .write [t.toPiece] remarks (t.isKeyword "INTO") rest

/-- A reserved word. `FROM DUAL` goes, and `MINUS` has another name. -/
def keywordStep (t : Token) (rest : List Token) : Step :=
  match if t.isKeyword "FROM" then afterDual? rest else none with
  | some after => .write [] [] false after
  | none =>
    if t.isKeyword "MINUS" then .write [⟨.keyword, "EXCEPT"⟩] [] false rest else keepStep t [] rest

/-- What to do with a token and those that belong to it. `afterInto` says whether `INTO` stands
directly before. -/
def step (ctx : Context) (afterInto : Bool) (t : Token) (rest : List Token) : Step :=
  match t.kind with
  | .bindVariable => .write [(bind ctx t).1] (bind ctx t).2 false rest
  | .operator => .write [⟨.operator, operator t.text⟩] [] false rest
  | .stringLiteral => .write [⟨.stringLiteral, literal t.text⟩] [] false rest
  | .keyword => keywordStep t rest
  | .identifier => identifierStep ctx afterInto t (chain rest).1 (chain rest).2
  | .punctuation =>
    keepStep t (if startsOuterJoin (t :: rest) then [⟨.outerJoin, t.offset⟩] else []) rest
  | _ => keepStep t [] rest

end TriggerDialect.Recast
