import TriggerDialect.Tree.Header
import TriggerDialect.Tree.Statement

/-!
# Triggers

A trigger is an optional header and a block. `Trigger.walk` lists all statements with their paths,
outer statements before inner ones, and `Trigger.tally` counts them.
-/

namespace TriggerDialect

/-- One trigger. -/
structure Trigger where
  header : Option Header
  declarations : Declarations
  body : List Statement
  handlers : List (Handler (List Statement))
  /-- Text among the handlers that is none. -/
  unparsed : List Fragment
deriving Repr

/-- How many statements could be read, and how many could not. -/
structure Tally where
  typed : Nat
  raw : Nat
deriving Repr, DecidableEq

/-- All statements counted. -/
def Tally.total (t : Tally) : Nat := t.typed + t.raw

namespace Statement

/-- The walks over a list of statements, one after the other, each at its own path. -/
def walkEach (path : String) (walks : List (String → List (String × Statement))) :
    List (String × Statement) :=
  (walks.mapIdx fun i walk => walk (Path.child path i)).flatten

/-- The statement and all inside it with their paths, when it stands at `path`. -/
def walk : Statement → String → List (String × Statement) :=
  foldWith fun form path =>
    (path, Statement.node (form.map (List.map Prod.fst))) ::
      (form.label path).bodies.flatMap fun entry => walkEach entry.1 (entry.2.map Prod.snd)

/-- A list of statements and all inside them with their paths, when it stands at `path`. -/
def walkList (path : String) (body : List Statement) : List (String × Statement) :=
  walkEach path (body.map walk)

/-- A walk goes from a statement into its inner lists. -/
theorem walk_node (form : Form (List Statement)) (path : String) :
    walk (.node form) path =
      (path, .node form) ::
        (form.label path).bodies.flatMap fun entry => walkList entry.1 entry.2 := by
  rw [walk, foldWith_node]
  simp only [Form.map_map, List.map_map, Function.comp_def, List.map_id', Form.map_id,
    Form.label_map, Form.bodies_map, List.flatMap_map, walkList]
  rfl

/-- A walk over a list visits its statements one after the other. -/
theorem walkList_eq (path : String) (body : List Statement) :
    walkList path body =
      body.zipIdx.flatMap fun entry => walk entry.1 (Path.child path entry.2) := by
  simp [walkList, walkEach, List.mapIdx_eq_zipIdx_map, List.zipIdx_map, List.flatMap_def,
    Function.comp_def]

/-- The number of raw texts that a statement itself brings. -/
def rawCount (s : Statement) : Nat := (if s.form.isRaw then 1 else 0) + s.form.unparsedCount

/-- The number of statements read that a statement itself brings. -/
def typedCount (s : Statement) : Nat := if s.form.isRaw then 0 else 1

end Statement

namespace Trigger

/-- All statements with their paths: those of the body, then those of each handler. -/
def walk (t : Trigger) : List (String × Statement) :=
  Statement.walkList "" t.body ++
    (labelHandlers "" t.handlers).flatMap fun h => Statement.walkList h.body.1 h.body.2

/-- The counts over the whole trigger. -/
def tally (t : Trigger) : Tally where
  typed := total (fun entry => entry.2.typedCount) t.walk
  raw := total (fun entry => entry.2.rawCount) t.walk + t.unparsed.length

end Trigger

end TriggerDialect
