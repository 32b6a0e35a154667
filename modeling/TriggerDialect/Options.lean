/-!
# Options of the output
-/

namespace TriggerDialect

/-- How the block is wrapped. -/
inductive Wrap where
  /-- A bare block. -/
  | block
  /-- A trigger function and a `CREATE TRIGGER`. -/
  | function
deriving Repr, DecidableEq

/-- The options of the output. -/
structure Options where
  /-- Spaces per level. -/
  indent : Nat
  wrap : Wrap
  /-- Whether raw statements are announced by a comment. -/
  annotateRaw : Bool
deriving Repr, DecidableEq

/-- The options that hold unless others are given. -/
def Options.standard : Options := ⟨4, .block, true⟩

/-- The name of a wrap. -/
def Wrap.name : Wrap → String
  | .block => "block"
  | .function => "function"

/-- All wraps. -/
def Wrap.all : List Wrap := [.block, .function]

end TriggerDialect
