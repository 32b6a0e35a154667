import TriggerDialect.Generate.Trigger
import TriggerDialect.Proofs.Accounting

/-!
# Equations of the output

What the combinators of outputs and drafts keep of steps and findings, and the output of a statement
in terms of the outputs of its inner lists.
-/

namespace TriggerDialect.Generate

variable (scope : Scope)

namespace Output

variable (a b : Output)

@[simp] theorem findings_append : (a ++ b).findings = a.findings ++ b.findings := rfl

@[simp] theorem findings_empty : empty.findings = [] := rfl

@[simp] theorem findings_ofSteps (steps : List Layout) : (ofSteps steps).findings = [] := rfl

@[simp] theorem findings_line (text : String) : (line text).findings = [] := rfl

@[simp] theorem findings_nested : a.nested.findings = a.findings := rfl

@[simp] theorem findings_concat (outputs : List Output) :
    (concat outputs).findings = outputs.flatMap findings := rfl

end Output

namespace Draft

variable (a b : Draft)

@[simp] theorem findings_append : (a ++ b).findings = a.findings ++ b.findings := rfl

@[simp] theorem findings_ofText (text : String) : (ofText text).findings = [] := rfl

@[simp] theorem findings_join (separator : String) (drafts : List Draft) :
    (join separator drafts).findings = drafts.flatMap findings := rfl

@[simp] theorem findings_line : a.line.findings = a.findings := rfl

end Draft

/-! ### Statements and their inner lists -/

theorem statement_node (f : Form (List Statement)) (path : String) :
    statement (.node f) scope path =
      form scope path ((f.label path).map fun entry => body entry.1 entry.2) := by
  rw [statement, Statement.foldWith_node, Form.label_map, Form.map_map]
  rfl

theorem statements_body (path : String) (statements : List Statement) :
    (body path statements).statements = statements := by
  simp [body, inner, Function.comp_def]

theorem output_body (path : String) (statements : List Statement) :
    (body path statements).output scope =
      .concat (statements.zipIdx.map fun entry =>
        statement entry.1 scope (Path.child path entry.2)) := by
  simp [body, inner, List.mapIdx_eq_zipIdx_map, List.zipIdx_map, Function.comp_def]

theorem statements_labelHandlers (path : String) (handlers : List (Handler (List Statement))) :
    ((labelHandlers path handlers).map (Handler.map fun entry => body entry.1 entry.2)).flatMap
        (fun h => h.body.statements) = handlers.flatMap Handler.body := by
  conv => rhs; rw [← map_snd_labelHandlers path handlers, List.flatMap_map]
  rw [List.flatMap_map]
  simp only [Handler.map, statements_body]

/-! ### Handlers in order -/

theorem ordered_map {β γ : Type} (f : Handler β → Handler γ) (hf : ∀ h, (f h).name = h.name)
    (handlers : List (Handler β)) : ordered (handlers.map f) = (ordered handlers).map f := by
  have hothers : ∀ h, (f h).isOthers = h.isOthers := fun h => by rw [Handler.isOthers, hf]; rfl
  simp [ordered, List.filter_map, Function.comp_def, hothers]

theorem mem_ordered {β : Type} {handlers : List (Handler β)} {h : Handler β} :
    h ∈ ordered handlers ↔ h ∈ handlers := by
  cases hothers : h.isOthers <;> simp [ordered, List.mem_filter, hothers]

end TriggerDialect.Generate
