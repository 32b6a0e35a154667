import TriggerDialect.Diagnostic
import TriggerDialect.Grammar.Names
import TriggerDialect.Tree.Declarations

/-!
# Reading declarations

A declaration ends at a semicolon outside all nesting. It is one of

    name EXCEPTION
    name CONSTANT type [NOT NULL] (:= | DEFAULT) value
    CURSOR name [(parameters)] [RETURN type] IS query
    name type [NOT NULL] [(:= | DEFAULT) value]

and anything else is kept as it stands, with a warning.
-/

namespace TriggerDialect.Grammar

/-- A stretch of tokens before a semicolon. -/
structure Span where
  tokens : List Token
  /-- Whether the semicolon is there. -/
  closed : Bool
deriving Repr, DecidableEq

/-- What a declaration says about the value. -/
inductive InitialValue where
  | absent
  | null
  | given (value : Initializer)
deriving Repr, DecidableEq

/-- A type with what may follow it. -/
structure TypedValue where
  type : DeclaredType
  notNull : Bool
  value : InitialValue
deriving Repr, DecidableEq

/-- The given value, unless it is absent or `NULL`. -/
def InitialValue.initializer? : InitialValue → Option Initializer
  | .given value => some value
  | _ => none

/-- The non-empty spans before the semicolons outside all nesting. -/
def declarationSpans (ts : List Token) : List Span :=
  match h : spanAtDepth (·.isPunct ';') ts with
  | (span, []) => if span.isEmpty then [] else [⟨span, false⟩]
  | (span, _ :: rest) =>
    have : rest.length < ts.length := spanAtDepth_rest_lt h
    if span.isEmpty then declarationSpans rest else ⟨span, true⟩ :: declarationSpans rest
termination_by ts.length

/-- The value after `:=` or `DEFAULT`. -/
def initialValue (ts : List Token) : Except String InitialValue :=
  match ts with
  | [] => .error "missing initializer expression"
  | [t] =>
    if t.isKeyword "NULL" then .ok .null
    else if t.kind = .stringLiteral then
      match Literal.contents? t.text with
      | some value => .ok (.given (.string value))
      | none => .ok (.given (.expression (Fragment.ofTokens ts)))
    else .ok (.given (.expression (Fragment.ofTokens ts)))
  | _ => .ok (.given (.expression (Fragment.ofTokens ts)))

/-- The tokens before a final `NOT NULL`, and whether it is there. -/
def splitNotNull (ts : List Token) : List Token × Bool :=
  match ts.reverse with
  | last :: before :: front =>
    if before.isKeyword "NOT" && last.isKeyword "NULL" then (front.reverse, true) else (ts, false)
  | _ => (ts, false)

/-- Whether a value follows. -/
def startsValue (p : Piece) : Bool := p.isOp ":=" || p.isKeyword "DEFAULT"

/-- `type [NOT NULL] [(:= | DEFAULT) value]` -/
def typedValue (ts : List Token) : Except String TypedValue :=
  let (front, rest) := spanAtDepth startsValue ts
  let (typeTokens, notNull) := splitNotNull front
  let text := render typeTokens
  match DeclaredType.parse? text with
  | none => .error s!"unrecognized type '{text}'"
  | some type =>
    match rest with
    | [] => .ok ⟨type, notNull, .absent⟩
    | _ :: value => (initialValue value).map fun value => ⟨type, notNull, value⟩

/-- `name [IN] type [(:= | DEFAULT) value]` -/
def cursorParameter (ts : List Token) : Except String CursorParameter :=
  match ts with
  | [] => .error "malformed cursor parameter"
  | t :: rest =>
    if t.isIdentifier then
      let typed := match rest with
        | mode :: tail => if mode.isKeyword "IN" then tail else rest
        | [] => rest
      (typedValue typed).map fun typed => ⟨t.text, typed.type⟩
    else .error "malformed cursor parameter"

/-- The parameters of a cursor, if a bracket opens. -/
def cursorParameters (ts : List Token) : Except String (List CursorParameter × List Token) :=
  match ts with
  | [] => .ok ([], [])
  | t :: rest =>
    if t.isPunct '(' then
      match bracketGroup (t :: rest) with
      | none => .error "unclosed cursor parameter list"
      | some (inner, after) =>
        ((splitCommas inner).mapM cursorParameter).map fun parameters => (parameters, after)
    else .ok ([], t :: rest)

/-- The tokens from `IS` on, past a return type. -/
def skipReturn (ts : List Token) : Except String (List Token) :=
  match eatWord? "RETURN" ts with
  | none => .ok ts
  | some rest =>
    match (spanAtDepth (·.isKeyword "IS") rest).2 with
    | [] => .error "cursor has no IS"
    | t :: after => .ok (t :: after)

/-- The query after `IS`. -/
def cursorQuery (name : String) (ts : List Token) : Except String Fragment :=
  match expectWord "IS" ts with
  | .error stuck => .error stuck.reason
  | .ok [] => .error s!"cursor {name} has no query"
  | .ok (t :: rest) => .ok (Fragment.ofTokens (t :: rest))

/-- A cursor after the word `CURSOR`. -/
def cursor (offset : Nat) (ts : List Token) : Except String Cursor :=
  match name ts with
  | .error stuck => .error stuck.reason
  | .ok (name, rest) => do
    let (parameters, rest) ← cursorParameters rest
    let rest ← skipReturn rest
    let query ← cursorQuery name rest
    return ⟨name, parameters, query, offset⟩

/-- A constant after the word `CONSTANT`. -/
def constant (name : String) (offset : Nat) (ts : List Token) : Except String Constant :=
  match typedValue ts with
  | .error reason => .error reason
  | .ok typed =>
    match typed.value with
    | .absent => .error s!"constant {name} has no value"
    | .null => .error s!"constant {name} is NULL"
    | .given value => .ok ⟨name, typed.type, value, offset⟩

/-- A declaration after its leading name. -/
def namedDeclaration (name : String) (offset : Nat) (ts : List Token) :
    Except String Declaration :=
  let typed := (typedValue ts).map fun typed =>
    Declaration.ofVariable ⟨name, typed.type, typed.value.initializer?, typed.notNull, offset⟩
  match ts with
  | [] => typed
  | t :: rest =>
    if t.isKeyword "EXCEPTION" && rest.isEmpty then .ok (.ofException ⟨name, offset⟩)
    else if t.isKeyword "CONSTANT" then (constant name offset rest).map .ofConstant
    else typed

/-- A declaration, or why it is kept as it stands. -/
def declaration (ts : List Token) : Except String Declaration :=
  match ts with
  | [] => .error "unrecognized declaration"
  | t :: rest =>
    if t.isKeyword "CURSOR" then (cursor t.offset rest).map .ofCursor
    else if t.isKeyword "PRAGMA" then .error "PRAGMA kept verbatim"
    else if t.isWord "TYPE" || t.isWord "SUBTYPE" then .error "type definitions are not supported"
    else if t.isIdentifier then namedDeclaration t.text t.offset rest
    else .error "unrecognized declaration"

/-- A declaration that is kept as it stands where it cannot be read. -/
def readDeclaration (span : List Token) : Declaration :=
  match declaration span with
  | .ok declaration => declaration
  | .error _ => .ofRaw (Fragment.ofTokens span)

/-- The warnings about one span. -/
def declarationNotes (span : Span) : List Diagnostic :=
  let text := Fragment.ofTokens span.tokens
  let unclosed := if span.closed then []
    else [.warning .declaration (some text.offset) "declaration is missing its terminating ';'"]
  match declaration span.tokens with
  | .ok _ => unclosed
  | .error reason =>
    unclosed ++ [.warning .declaration (some text.offset) s!"{reason}: {text.text}"]

/-- All declarations of a section, and the warnings about them in source order. -/
def readDeclarations (ts : List Token) : Declarations × List Diagnostic :=
  let spans := declarationSpans ts
  (.ofList (spans.map fun span => readDeclaration span.tokens), spans.flatMap declarationNotes)

end TriggerDialect.Grammar
