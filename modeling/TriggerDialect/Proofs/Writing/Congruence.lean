import Mathlib.Data.List.Basic
import TriggerDialect.Proofs.Writing.Equations

/-!
# Outputs of changed statements

Branches and loops put lines around the outputs of their inner lists and look at nothing in them. A
relation that the combinators of outputs keep holds of two of them if it holds of their lines and of
their inner lists (`form_rel`). A `Change` is made in each statement itself and keeps the shape of
the tree. Blocks look at the changed statements for the variables of loops and for what follows the
last one (`block_rel`).
-/

namespace TriggerDialect

open List

namespace Form

variable {α : Type}

/-- The branch or loop with other fragments in its lines. -/
def withHeads (φ : Fragment → Fragment) : Form α → Form α
  | .conditional first others otherwise =>
    .conditional ⟨φ first.condition, first.body⟩
      (others.map fun a => ⟨φ a.condition, a.body⟩) otherwise
  | .selection selector arms otherwise =>
    .selection (selector.map φ) (arms.map fun a => ⟨φ a.condition, a.body⟩) otherwise
  | .queryLoop name query body => .queryLoop name (φ query) body
  | .rangeLoop name reverse lower upper body => .rangeLoop name reverse (φ lower) (φ upper) body
  | .whileLoop condition body => .whileLoop (φ condition) body
  | f => f

end Form

/-! ### Changes of statements -/

/-- A change of what belongs to a statement itself and not to its inner lists. -/
structure Change where
  form {β : Type} : Form β → Form β
  bodies_form {β : Type} (f : Form β) : (form f).bodies = f.bodies
  map_form {α β : Type} (g : α → β) (f : Form α) : (form f).map g = form (f.map g)
  label_form {β : Type} (path : String) (f : Form β) : (form f).label path = form (f.label path)
  queryVariable_form {β : Type} (f : Form β) : (form f).queryVariable = f.queryVariable
  isBlock_form {β : Type} (f : Form β) : (form f).isBlock = f.isBlock

variable (c : Change)

/-- The statement with the change made everywhere inside. -/
def Statement.changed : Statement → Statement := fold fun f => .node (c.form f)

theorem Form.queryVariable_map {α β : Type} (f : α → β) (form : Form α) :
    (form.map f).queryVariable = form.queryVariable := by
  cases form <;> rfl

theorem Form.isBlock_map {α β : Type} (f : α → β) (form : Form α) :
    (form.map f).isBlock = form.isBlock := by
  cases form <;> rfl

namespace Statement

theorem changed_node (f : Form (List Statement)) :
    (Statement.node f).changed c = .node (c.form (f.map (map (changed c)))) := by
  rw [changed, fold_node]

theorem queryVariables_node (form : Form (List Statement)) :
    queryVariables (.node form) = form.queryVariable ++
      if form.isBlock then [] else form.bodies.flatMap fun body => body.flatMap queryVariables := by
  rw [queryVariables, fold_node, Form.queryVariable_map, Form.isBlock_map, Form.bodies_map]
  simp only [flatMap_def, flatten_flatten, map_map]
  rfl

theorem queryVariables_changed (s : Statement) :
    (s.changed c).queryVariables = s.queryVariables := by
  induction s using Statement.induction with
  | node f ih =>
    rw [changed_node, queryVariables_node, queryVariables_node, c.queryVariable_form,
      c.isBlock_form, c.bodies_form, Form.queryVariable_map, Form.isBlock_map, Form.bodies_map,
      flatMap_map]
    congr 2
    refine flatMap_congr fun body hbody => ?_
    rw [flatMap_map]
    exact flatMap_congr fun s hs => ih body hbody s hs

theorem walkList_changed_of {body : List Statement} (path : String)
    (h : ∀ s ∈ body, ∀ path,
      (s.changed c).walk path = (s.walk path).map fun entry => (entry.1, entry.2.changed c)) :
    walkList path (body.map (changed c)) =
      (walkList path body).map fun entry => (entry.1, entry.2.changed c) := by
  rw [walkList_eq, walkList_eq, zipIdx_map, flatMap_map, map_flatMap]
  exact flatMap_congr fun numbered hnumbered =>
    h numbered.1 (fst_mem_of_mem_zipIdx hnumbered) _

/-- The walk meets the changed statements at the same paths. -/
theorem walk_changed (s : Statement) (path : String) :
    (s.changed c).walk path = (s.walk path).map fun entry => (entry.1, entry.2.changed c) := by
  induction s using Statement.induction generalizing path with
  | node f ih =>
    rw [changed_node, walk_node, walk_node, map_cons, ← changed_node, c.label_form, c.bodies_form,
      Form.label_map, Form.bodies_map, flatMap_map, map_flatMap]
    congr 1
    refine flatMap_congr fun entry hentry => ?_
    exact walkList_changed_of c entry.1 (ih entry.2 (Form.snd_mem_bodies hentry))

end Statement

namespace Trigger

/-- The statement lists of a trigger with their paths: its body and those of its handlers. -/
def lists (t : Trigger) : List (String × List Statement) :=
  ("", t.body) :: (labelHandlers "" t.handlers).map Handler.body

theorem walk_eq_flatMap_lists (t : Trigger) :
    t.walk = t.lists.flatMap fun list => Statement.walkList list.1 list.2 := by
  rw [walk, lists, flatMap_cons, flatMap_map]

theorem walk_changed {t t' : Trigger}
    (h : t'.lists = t.lists.map fun list => (list.1, list.2.map (Statement.changed c))) :
    t'.walk = t.walk.map fun entry => (entry.1, entry.2.changed c) := by
  rw [walk_eq_flatMap_lists, walk_eq_flatMap_lists, h, flatMap_map, map_flatMap]
  refine flatMap_congr fun list _ => ?_
  exact Statement.walkList_changed_of c list.1 fun s _ => s.walk_changed c

end Trigger

namespace Generate

/-- The combinators keep a relation between outputs. -/
structure Output.IsCongruence (R : Output → Output → Prop) : Prop where
  refl : ∀ a, R a a
  append : ∀ {a a' b b'}, R a a' → R b b' → R (a ++ b) (a' ++ b')
  nested : ∀ {a b}, R a b → R a.nested b.nested

variable {R : Output → Output → Prop} {scope scope' : Scope} {path : String} {ι : Type}
  {g g' : ι → Inner} {φ : Fragment → Fragment}

theorem Output.IsCongruence.eq : IsCongruence Eq :=
  ⟨fun _ => rfl, fun h h' => by rw [h, h'], fun h => by rw [h]⟩

theorem Output.IsCongruence.concat (hR : IsCongruence R) {f f' : ι → Output} {xs : List ι}
    (h : ∀ x ∈ xs, R (f x) (f' x)) : R (.concat (xs.map f)) (.concat (xs.map f')) := by
  induction xs with
  | nil => exact hR.refl _
  | cons x xs ih =>
    exact hR.append (h x mem_cons_self) (ih fun y hy => h y (mem_cons_of_mem x hy))

/-- The lines of branches and loops are related when their fragments are replaced. -/
structure HeadsRel (R : Output → Output → Prop) (φ : Fragment → Fragment) (scope scope' : Scope)
    (path : String) : Prop where
  recast : ∀ before f after,
    R (recastLine scope path before (φ f) after) (recastLine scope' path before f after)
  range : ∀ before reverse lower upper after,
    R (.ofText before ++ range scope path reverse (φ lower) (φ upper) ++ .ofText after : Draft).line
      (.ofText before ++ range scope' path reverse lower upper ++ .ofText after : Draft).line

/-- Two branches or loops are related if their lines and their inner lists are. -/
theorem form_rel (hR : Output.IsCongruence R) (hheads : HeadsRel R φ scope scope' path) {f : Form ι}
    (hf : f.isCompound)
    (h : ∀ body ∈ f.bodies, R ((g body).output scope) ((g' body).output scope')) :
    R (form scope path ((f.withHeads φ).map g)) (form scope' path (f.map g')) := by
  have harm : ∀ word (a : Arm ι), a.body ∈ f.bodies →
      R (arm scope path word ⟨φ a.condition, g a.body⟩) (arm scope' path word (a.map g')) :=
    fun word a ha => hR.append (hheads.recast ..) (hR.nested (h _ ha))
  have helse : ∀ otherwise : Option ι, (∀ body, otherwise = some body → body ∈ f.bodies) →
      R (elseBranch scope (otherwise.map g)) (elseBranch scope' (otherwise.map g')) := by
    rintro (_ | body) hbody
    · exact hR.refl _
    · exact hR.append (hR.refl _) (hR.nested (h body (hbody body rfl)))
  have hloop : ∀ body ∈ f.bodies, R (loopBody scope (g body)) (loopBody scope' (g' body)) :=
    fun body hbody => hR.append (hR.nested (h body hbody)) (hR.refl _)
  cases f with
  | simple | block => cases hf
  | conditional first others otherwise =>
    simp only [Form.withHeads, Form.map, form, map_map]
    refine hR.append (hR.append (hR.append (harm _ first ?_) (hR.concat fun a ha => harm _ a ?_))
      (helse otherwise fun body hbody => ?_)) (hR.refl _)
    all_goals grind [Form.bodies]
  | selection selector arms otherwise =>
    simp only [Form.withHeads, Form.map, form, map_map]
    refine hR.append (hR.append ?_ (hR.nested (hR.append (hR.concat fun a ha => harm _ a ?_)
      (helse otherwise fun body hbody => ?_)))) (hR.refl _)
    · cases selector with
      | none => exact hR.refl _
      | some selector => exact hheads.recast ..
    all_goals grind [Form.bodies]
  | queryLoop | whileLoop => exact hR.append (hheads.recast ..) (hloop _ (by simp [Form.bodies]))
  | rangeLoop => exact hR.append (hheads.range ..) (hloop _ (by simp [Form.bodies]))
  | endlessLoop => exact hR.append (hR.refl _) (hloop _ (by simp [Form.bodies]))

/-- The lines of branches and loops look at no more of a scope than its context. -/
theorem form_rel_of_context (hR : Output.IsCongruence R) (hcontext : scope.context = scope'.context)
    {f : Form ι} (hf : f.isCompound)
    (h : ∀ body ∈ f.bodies, R ((g body).output scope) ((g' body).output scope')) :
    R (form scope path (f.map g)) (form scope' path (f.map g')) := by
  have hrecast : ∀ place f, scope.recast place f = scope'.recast place f := by
    simp [Scope.recast, hcontext]
  have hheads : HeadsRel R id scope scope' path := by
    constructor
    case recast =>
      intros
      simp only [recastLine, hrecast, id, hR.refl]
    case range =>
      intros
      simp only [range, hrecast, id, hR.refl]
  have hid : f.withHeads id = f := by cases f <;> simp [Form.withHeads]
  simpa only [hid] using form_rel hR hheads hf h

/-! ### Changed lists and blocks -/

/-- An inner list that is changed and whose output is related to that of the other one. -/
structure Inner.Changes (c : Change) (R : Output → Output → Prop) (a b : Inner) : Prop where
  path : a.path = b.path
  statements : a.statements = b.statements.map (Statement.changed c)
  output : ∀ scope, R (a.output scope) (b.output scope)

variable {c} {closing : List Statement → List Layout} {handlers : List (Handler ι)}
  {f f' : Handler ι → Handler Inner} {unparsed unparsed' : List Fragment}

theorem body_changes (hR : Output.IsCongruence R) {statements : List Statement}
    (h : ∀ s ∈ statements, ∀ scope path,
      R (statement (s.changed c) scope path) (statement s scope path)) :
    (body path (statements.map (Statement.changed c))).Changes c R (body path statements) := by
  refine ⟨rfl, by rw [statements_body, statements_body], fun scope => ?_⟩
  rw [output_body, output_body, zipIdx_map, map_map]
  refine hR.concat fun entry hentry => ?_
  exact h entry.1 (fst_mem_of_mem_zipIdx hentry) scope (Path.child path entry.2)

theorem trailingReturn_changed (hleaves : ∀ s, leaves scope.mapping (s.changed c) =
      leaves scope.mapping s) (statements : List Statement) :
    trailingReturn scope (statements.map (Statement.changed c)) =
      trailingReturn scope statements := by
  have hlast : (statements.map (Statement.changed c)).getLast?.any (leaves scope.mapping) =
      statements.getLast?.any (leaves scope.mapping) := by
    rw [getLast?_map]
    cases statements.getLast? with
    | none => rfl
    | some s => exact hleaves s
  simp only [trailingReturn, hlast]

theorem exceptionSection_rel (hR : Output.IsCongruence R)
    (h : ∀ h ∈ handlers, R (handler scope closing (f h)) (handler scope closing (f' h)))
    (hcomments : R (unparsedComments unparsed) (unparsedComments unparsed'))
    (hnames : ∀ h, (f h).name = h.name ∧ (f' h).name = h.name) :
    R (exceptionSection scope closing (handlers.map f) unparsed)
      (exceptionSection scope closing (handlers.map f') unparsed') := by
  simp only [exceptionSection, isEmpty_map]
  split
  · exact hR.refl _
  · rw [ordered_map f fun h => (hnames h).1, ordered_map f' fun h => (hnames h).2, map_map, map_map]
    refine hR.append (hR.refl _) (hR.nested (hR.append hcomments ?_))
    exact hR.concat fun handler hhandler => h handler (mem_ordered.1 hhandler)

/-- Two blocks are related if their declarations, lists and comments are. -/
theorem block_rel (hR : Output.IsCongruence R)
    (hclosing : ∀ statements, closing (statements.map (Statement.changed c)) = closing statements)
    {declared declared' : Option Declarations}
    (hscope : scope.declaring (declared.getD .empty) = scope.declaring (declared'.getD .empty))
    (hdeclared : ∀ scope statements,
      R (declareSection scope (declared.getD .empty) (statements.map (Statement.changed c)))
        (declareSection scope (declared'.getD .empty) statements))
    {body body' : Inner} (hbody : body.Changes c R body')
    (hhandlers : ∀ h ∈ handlers, (f h).body.Changes c R (f' h).body ∧
      ∀ scope, R (handlerLine scope (f h)) (handlerLine scope (f' h)))
    (hcomments : R (unparsedComments unparsed) (unparsedComments unparsed'))
    (hnames : ∀ h, (f h).name = h.name ∧ (f' h).name = h.name) :
    R (block scope closing ⟨declared, body, handlers.map f, unparsed⟩)
      (block scope closing ⟨declared', body', handlers.map f', unparsed'⟩) := by
  have hstatements : (handlers.map f).flatMap (fun h => h.body.statements) =
      ((handlers.map f').flatMap fun h => h.body.statements).map (Statement.changed c) := by
    rw [map_flatMap, flatMap_map, flatMap_map]
    exact flatMap_congr fun h hh => (hhandlers h hh).1.statements
  have hwritten : ∀ scope, ∀ h ∈ handlers,
      R (handler scope closing (f h)) (handler scope closing (f' h)) := by
    intro scope h hh
    obtain ⟨hchanges, hline⟩ := hhandlers h hh
    refine hR.append (hline scope) (hR.nested (hR.append (hchanges.output scope) ?_))
    rw [hchanges.statements, hclosing]
    exact hR.refl _
  simp only [block, hscope, hbody.statements, hstatements, ← map_append, hclosing, isEmpty_map]
  refine hR.append (hR.append (hR.append (hR.append (hdeclared _ _) (hR.refl _)) (hR.nested ?_))
    (exceptionSection_rel hR (hwritten _) hcomments hnames)) (hR.refl _)
  refine hR.append (hR.append (hbody.output _) (hR.refl _)) ?_
  split
  · exact hcomments
  · exact hR.refl _

end Generate

end TriggerDialect
