import TriggerDialect.Mapping.Table
import TriggerDialect.Mapping.Template
import TriggerDialect.Tree.DeclaredType

/-!
# Dialect mappings

Three tables say what becomes of types, functions and exceptions. Keys are kept without the blanks
around them and in upper case, so that they are found in any letter case.
-/

namespace TriggerDialect

/-- The tables of a dialect. -/
structure Mapping where
  types : Table Template
  functions : Table Template
  exceptions : Table String
deriving Repr, DecidableEq

namespace Mapping

/-- Empty tables. -/
def empty : Mapping := ⟨.empty, .empty, .empty⟩

/-- The key of a name. -/
def key (name : String) : String := Text.upper (Text.trim name)

/-- A template for a type. -/
def insertType (m : Mapping) (name template : String) : Mapping :=
  { m with types := m.types.insert (key name) ⟨template⟩ }

/-- A template for a function. -/
def insertFunction (m : Mapping) (name template : String) : Mapping :=
  { m with functions := m.functions.insert (key name) ⟨template⟩ }

/-- A condition for an exception. -/
def insertException (m : Mapping) (name condition : String) : Mapping :=
  { m with exceptions := m.exceptions.insert (key name) condition }

/-- The template of a function. -/
def function? (m : Mapping) (name : String) : Option Template := m.functions.get? (key name)

/-- The condition of an exception. -/
def exception? (m : Mapping) (name : String) : Option String := m.exceptions.get? (key name)

/-- Whether a text ends in an upper-case word, in any letter case. -/
def endsWith (word cs : List Char) : Bool := word.reverse.isPrefixOf (cs.map Char.toUpper).reverse

/-- A length without its unit: `100 BYTE` and `100 CHAR` are `100`. -/
def withoutUnit (modifier : String) : String :=
  let cs := modifier.toList
  if endsWith " BYTE".toList cs || endsWith " CHAR".toList cs then
    String.ofList (Text.trimEndChars (cs.take (cs.length - 5)))
  else modifier

/-- What becomes of a type. One taken over from a column or a row stays as it is; one that the
table does not have gives `none`. -/
def type? (m : Mapping) (type : DeclaredType) : Option String :=
  if type.isAnchored then some type.shown
  else (m.types.get? type.key).map fun template =>
    template.expandModifiers (type.modifiers.map withoutUnit)

/-- What becomes of a type, which stays as it is when the table does not have it. -/
def typeText (m : Mapping) (type : DeclaredType) : String := (m.type? type).getD type.shown

/-- The number of entries in all tables. -/
def size (m : Mapping) : Nat := m.types.size + m.functions.size + m.exceptions.size

end Mapping

end TriggerDialect
