import TriggerDialect.Token.Literal
import TriggerDialect.Tree.DeclaredType
import TriggerDialect.Tree.Fragment

/-!
# Declarations

The declarations of one block, each kind in source order.
-/

namespace TriggerDialect

/-- The value of a constant or the default of a variable. -/
inductive Initializer where
  /-- A string literal, by its value. -/
  | string (value : String)
  | expression (text : Fragment)
deriving Repr, DecidableEq

/-- The initializer as SQL. -/
def Initializer.sql : Initializer → String
  | .string value => Literal.quote value
  | .expression text => text.text

/-- `name type [NOT NULL] [:= value]` -/
structure Variable where
  name : String
  type : DeclaredType
  /-- Absent also when the default is `NULL`. -/
  default : Option Initializer
  notNull : Bool
  offset : Nat
deriving Repr, DecidableEq

/-- `name CONSTANT type := value` -/
structure Constant where
  name : String
  type : DeclaredType
  value : Initializer
  offset : Nat
deriving Repr, DecidableEq

/-- `name EXCEPTION` -/
structure ExceptionName where
  name : String
  offset : Nat
deriving Repr, DecidableEq

/-- A parameter of a cursor. -/
structure CursorParameter where
  name : String
  type : DeclaredType
deriving Repr, DecidableEq

/-- `CURSOR name (parameters) IS query` -/
structure Cursor where
  name : String
  parameters : List CursorParameter
  query : Fragment
  offset : Nat
deriving Repr, DecidableEq

/-- One declaration of any kind. -/
inductive Declaration where
  | ofVariable (v : Variable)
  | ofConstant (c : Constant)
  | ofException (e : ExceptionName)
  | ofCursor (c : Cursor)
  /-- What could not be read, as it stands. -/
  | ofRaw (text : Fragment)
deriving Repr, DecidableEq

/-- The declarations of a block. -/
structure Declarations where
  vars : List Variable
  constants : List Constant
  exceptions : List ExceptionName
  cursors : List Cursor
  /-- What could not be read, as it stands. -/
  raw : List Fragment
deriving Repr, DecidableEq

namespace Declaration

/-- Where the declaration starts. -/
def offset : Declaration → Nat
  | .ofVariable v => v.offset
  | .ofConstant c => c.offset
  | .ofException e => e.offset
  | .ofCursor c => c.offset
  | .ofRaw text => text.offset

/-- The variable, if the declaration is one. -/
def asVariable : Declaration → Option Variable
  | .ofVariable v => some v
  | _ => none

/-- The constant, if the declaration is one. -/
def asConstant : Declaration → Option Constant
  | .ofConstant c => some c
  | _ => none

/-- The exception, if the declaration is one. -/
def asException : Declaration → Option ExceptionName
  | .ofException e => some e
  | _ => none

/-- The cursor, if the declaration is one. -/
def asCursor : Declaration → Option Cursor
  | .ofCursor c => some c
  | _ => none

/-- The text, if the declaration could not be read. -/
def asRaw : Declaration → Option Fragment
  | .ofRaw text => some text
  | _ => none

end Declaration

namespace Declarations

/-- Declarations sorted by kind. -/
def ofList (items : List Declaration) : Declarations where
  vars := items.filterMap Declaration.asVariable
  constants := items.filterMap Declaration.asConstant
  exceptions := items.filterMap Declaration.asException
  cursors := items.filterMap Declaration.asCursor
  raw := items.filterMap Declaration.asRaw

/-- All declarations in source order; kinds are told apart only where offsets are the same. -/
def toList (d : Declarations) : List Declaration :=
  (d.vars.map Declaration.ofVariable ++ d.constants.map Declaration.ofConstant ++
    d.cursors.map Declaration.ofCursor ++ d.exceptions.map Declaration.ofException ++
    d.raw.map Declaration.ofRaw).mergeSort fun a b => decide (a.offset ≤ b.offset)

/-- No declarations. -/
def empty : Declarations := ⟨[], [], [], [], []⟩

/-- The number of declarations of all kinds. -/
def size (d : Declarations) : Nat :=
  d.vars.length + d.constants.length + d.exceptions.length + d.cursors.length + d.raw.length

/-- Whether an exception of this name is declared, in any letter case. -/
def declaresException (d : Declarations) (name : String) : Bool :=
  d.exceptions.any fun e => Text.sameWord e.name name

end Declarations

end TriggerDialect
