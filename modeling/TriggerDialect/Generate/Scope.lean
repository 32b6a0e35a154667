import TriggerDialect.Layout
import TriggerDialect.Recast.Basic
import TriggerDialect.Tree.Declarations

/-!
# Output of one part

Every part of a tree is written in a scope and gives an `Output`: layout steps and findings, both in
order.
-/

namespace TriggerDialect.Generate

/-- What the output of a part depends on. -/
structure Scope where
  context : Recast.Context
  /-- Whether raw statements are announced by a comment. -/
  annotateRaw : Bool
  /-- The row that a bare `RETURN` gives back, in a trigger function. -/
  returnRow : Option String
  /-- The exceptions declared around the part, in upper case. -/
  exceptions : List String
deriving Repr, DecidableEq

/-- Layout steps and findings. -/
structure Output where
  steps : List Layout
  findings : List Finding
deriving Repr, DecidableEq

namespace Output

/-- No output. -/
def empty : Output := ⟨[], []⟩

/-- Layout steps without findings. -/
def ofSteps (steps : List Layout) : Output := ⟨steps, []⟩

/-- One line without findings. -/
def line (text : String) : Output := ofSteps [.line text]

/-- One output after the other. -/
def append (a b : Output) : Output := ⟨a.steps ++ b.steps, a.findings ++ b.findings⟩

instance : Append Output := ⟨append⟩

/-- Outputs in order. -/
def concat (outputs : List Output) : Output :=
  ⟨outputs.flatMap steps, outputs.flatMap findings⟩

/-- The output one level deeper. -/
def nested (o : Output) : Output := { o with steps := Layout.nested o.steps }

end Output

/-- A text and what was found while it was made. -/
structure Draft where
  text : String
  findings : List Finding
deriving Repr, DecidableEq

namespace Draft

/-- A text without findings. -/
def ofText (text : String) : Draft := ⟨text, []⟩

/-- One draft after the other. -/
def append (a b : Draft) : Draft := ⟨a.text ++ b.text, a.findings ++ b.findings⟩

instance : Append Draft := ⟨append⟩

/-- Drafts in order, with `separator` between neighbours. -/
def join (separator : String) (drafts : List Draft) : Draft :=
  ⟨Text.join separator (drafts.map text), drafts.flatMap findings⟩

/-- The draft as one line. -/
def line (d : Draft) : Output := ⟨[.line d.text], d.findings⟩

end Draft

namespace Scope

/-- The mapping in force. -/
def mapping (scope : Scope) : Mapping := scope.context.mapping

/-- Remarks of the recasting as findings at a path. -/
def findings (path : Option String) (remarks : List Recast.Remark) : List Finding :=
  remarks.map fun remark => ⟨remark.cause, remark.offset, path⟩

/-- A fragment recast, in the statement at `path`. -/
def recast (scope : Scope) (path : Option String) (f : Fragment) : Draft :=
  let (text, remarks) := Recast.fragment scope.context f
  ⟨text, findings path remarks⟩

/-- A type. -/
def type (scope : Scope) (type : DeclaredType) (offset : Nat) : Draft :=
  let (text, remarks) := Recast.typeText scope.context type offset
  ⟨text, findings none remarks⟩

/-- Whether an exception is declared around the part. -/
def declares (scope : Scope) (name : String) : Bool := scope.exceptions.contains (Text.upper name)

/-- The scope with more declared exceptions. -/
def declaring (scope : Scope) (d : Declarations) : Scope :=
  { scope with exceptions := d.exceptions.map (fun e => Text.upper e.name) ++ scope.exceptions }

end Scope

end TriggerDialect.Generate
