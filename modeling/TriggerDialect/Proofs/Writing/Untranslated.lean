import TriggerDialect.Proofs.Paths.Walk
import TriggerDialect.Proofs.Wrapping.Rows
import TriggerDialect.Proofs.Writing.Records

/-!
# Text that is not translated

Exceptions, declarations that could not be read and text among the handlers that is none become
comments. A `Revision` puts other texts in their places, anywhere in a trigger. The output of the
revised trigger has the same steps but for the texts of comments, so no other line of a block comes
from such a text. `untranslated_commented` says this together with where these comments stand and
how their lines begin.
-/

namespace TriggerDialect

open List

/-! ### Other texts in the place of those that are not translated -/

/-- Other texts for what is not translated. The names of exceptions change in letter case only, as
they are looked up elsewhere. -/
structure Revision where
  text : Fragment → String
  name : ExceptionName → String
  upper_name : ∀ e, Text.upper (name e) = Text.upper e.name

variable (r : Revision)

/-- The text replaced. -/
def Fragment.revised (f : Fragment) : Fragment := { f with text := r.text f }

/-- The declaration with its text replaced if it is not translated. -/
def Declaration.revised : Declaration → Declaration
  | .ofException e => .ofException { e with name := r.name e }
  | .ofRaw text => .ofRaw (text.revised r)
  | d => d

/-- The declarations with the texts replaced of those that are not translated. -/
def Declarations.revised (d : Declarations) : Declarations :=
  { d with
    exceptions := d.exceptions.map fun e => { e with name := r.name e }
    raw := d.raw.map (Fragment.revised r) }

/-- The statement with the texts replaced that itself does not translate. -/
def Form.revised {β : Type} : Form β → Form β
  | .block b => .block { b with
      declarations := b.declarations.map (Declarations.revised r)
      unparsed := b.unparsed.map (Fragment.revised r) }
  | form => form

/-- The statement with all texts inside replaced that are not translated. -/
def Statement.revised : Statement → Statement := fold fun form => .node (form.revised r)

/-- The trigger with all texts replaced that are not translated. -/
def Trigger.revised (t : Trigger) : Trigger :=
  { t with
    declarations := t.declarations.revised r
    body := t.body.map (Statement.revised r)
    handlers := t.handlers.map (Handler.map (map (Statement.revised r)))
    unparsed := t.unparsed.map (Fragment.revised r) }

namespace Declarations

theorem toList_revised (d : Declarations) :
    (d.revised r).toList = d.toList.map (Declaration.revised r) := by
  have hoffset : ∀ a : Declaration, (a.revised r).offset = a.offset := by
    rintro ⟨⟩ <;> rfl
  have hsort := map_mergeSort (l := d.byKind) (f := Declaration.revised r)
    (r := fun a b => decide (a.offset ≤ b.offset)) (s := fun a b => decide (a.offset ≤ b.offset))
    fun a _ b _ => by simp only [hoffset]
  have hkinds : d.byKind.map (Declaration.revised r) = (d.revised r).byKind := by
    simp only [byKind, revised, map_append, map_map]
    rfl
  rw [hkinds] at hsort
  exact hsort.symm

end Declarations

/-- Replacing what statements do not translate. -/
def Revision.change : Change where
  form := Form.revised r
  bodies_form f := by cases f <;> rfl
  map_form _ f := by cases f <;> rfl
  label_form _ f := by cases f <;> rfl
  queryVariable_form f := by cases f <;> rfl
  isBlock_form f := by cases f <;> rfl

theorem Statement.revised_node (form : Form (List Statement)) :
    (Statement.node form).revised r = .node ((form.map (map (revised r))).revised r) :=
  changed_node r.change form

theorem Trigger.walk_revised (t : Trigger) :
    (t.revised r).walk = t.walk.map fun entry => (entry.1, entry.2.revised r) := by
  refine walk_changed r.change ?_
  simp only [lists, revised, labelHandlers_map, map_cons, map_map]
  rfl

/-! ### Output without the texts of comments -/

/-- The step without the text of a comment. -/
def Layout.blanked : Layout → Layout
  | .comment _ => .comment ""
  | step => step

namespace Generate

/-- The output without the texts of comments. -/
def Output.blanked (o : Output) : Output := { o with steps := o.steps.map Layout.blanked }

namespace Output

@[simp] theorem blanked_append (a b : Output) : (a ++ b).blanked = a.blanked ++ b.blanked := by
  change Output.mk ((a.steps ++ b.steps).map Layout.blanked) _ = _
  rw [map_append]
  rfl

@[simp] theorem blanked_nested (o : Output) : o.nested.blanked = o.blanked.nested := by
  simp [nested, blanked, Layout.nested, Layout.blanked]

@[simp] theorem blanked_concat (outputs : List Output) :
    (concat outputs).blanked = concat (outputs.map blanked) := by
  simp [concat, blanked, map_flatMap, flatMap_map]

theorem isCongruence_blanked : IsCongruence fun a b => a.blanked = b.blanked :=
  ⟨fun _ => rfl, fun h h' => by simp [h, h'],
    fun h => by simp only [blanked_nested, h]⟩

end Output

variable {r} {scope : Scope} {path : String}

theorem declaring_revised (d : Declarations) :
    scope.declaring (d.revised r) = scope.declaring d := by
  simp [Scope.declaring, Declarations.revised, r.upper_name]

theorem unparsedComments_blanked (unparsed : List Fragment) :
    (unparsedComments (unparsed.map (Fragment.revised r))).blanked =
      (unparsedComments unparsed).blanked := by
  simp [unparsedComments, Output.ofSteps, Output.blanked, Layout.blanked, Function.comp_def]

theorem declareSection_blanked (d : Declarations) (statements : List Statement) :
    (declareSection scope (d.revised r) (statements.map (Statement.revised r))).blanked =
      (declareSection scope d statements).blanked := by
  have hrecords : recordNames (d.revised r) (statements.map (Statement.revised r)) =
      recordNames d statements := by
    have hvariables : ∀ s : Statement, (s.revised r).queryVariables = s.queryVariables :=
      Statement.queryVariables_changed r.change
    simp only [recordNames, flatMap_map, hvariables]
    rfl
  have hitems : (d.toList.map (Declaration.revised r)).map
        (fun d => (declaration scope d).blanked) =
      d.toList.map fun d => (declaration scope d).blanked := by
    rw [map_map]
    exact map_congr_left fun d _ => by cases d <;> rfl
  simp only [declareSection, Declarations.toList_revised, hrecords, isEmpty_map]
  split
  · rfl
  · simp only [Output.blanked_append, Output.blanked_nested, Output.blanked_concat, map_map,
      Function.comp_def] at hitems ⊢
    rw [hitems]

/-! ### Statements -/

/-- An inner list beside the same list revised. -/
abbrev Inner.Revises (r : Revision) : Inner → Inner → Prop :=
  Inner.Changes r.change fun a b => a.blanked = b.blanked

section Forms

variable {ι : Type} {g g' : ι → Inner}

/-- A block is written with the same steps when it is revised, but for the texts of comments. -/
theorem block_blanked (scope : Scope) (closing : List Statement → List Layout) (g g' : ι → Inner)
    (hclosing : ∀ statements, closing (statements.map (Statement.revised r)) = closing statements)
    {b : Block ι} (h : ∀ body ∈ (Form.block b).bodies, (g' body).Revises r (g body)) :
    (block scope closing ⟨b.declarations.map (Declarations.revised r), g' b.body,
        b.handlers.map (Handler.map g'), b.unparsed.map (Fragment.revised r)⟩).blanked =
      (block scope closing
        ⟨b.declarations, g b.body, b.handlers.map (Handler.map g), b.unparsed⟩).blanked := by
  have hbody := h _ mem_cons_self
  have hhandlers : ∀ h ∈ b.handlers, (g' h.body).Revises r (g h.body) :=
    fun handler hhandler => h _ (mem_cons_of_mem _ (mem_map_of_mem hhandler))
  have hdeclared : (b.declarations.map (Declarations.revised r)).getD .empty =
      (b.declarations.getD .empty).revised r := by
    cases b.declarations <;> rfl
  refine block_rel (c := r.change) Output.isCongruence_blanked hclosing
    (by rw [hdeclared, declaring_revised]) (fun scope statements => ?_) hbody
    (fun h hh => ⟨hhandlers h hh, fun scope => ?_⟩) (unparsedComments_blanked _) fun _ => ⟨rfl, rfl⟩
  · rw [hdeclared]
    exact declareSection_blanked _ statements
  · simp only [handlerLine, Handler.map, (hhandlers h hh).path]
    rfl

/-- A statement is written with the same steps when it is revised, but for the texts of comments. -/
theorem form_blanked {f : Form ι} (h : ∀ body ∈ f.bodies, (g' body).Revises r (g body)) :
    (form scope path ((f.revised r).map g')).blanked = (form scope path (f.map g)).blanked := by
  -- Only blocks hold anything to revise; all other forms are as good as their inner lists.
  cases f with
  | simple s => rfl
  | block b =>
    simp only [Form.revised, Form.map, form]
    exact block_blanked scope (fun _ => []) g g' (fun _ => rfl) h
  | _ =>
    exact form_rel_of_context Output.isCongruence_blanked rfl rfl fun body hbody =>
      (h body hbody).output scope

end Forms

theorem statement_blanked (s : Statement) (scope : Scope) (path : String) :
    (statement (s.revised r) scope path).blanked = (statement s scope path).blanked := by
  induction s using Statement.induction generalizing scope path with
  | node f ih =>
    have hlabel : ((f.map (map (Statement.revised r))).revised r).label path = _ :=
      r.change.label_form path _
    rw [Statement.revised_node, statement_node, statement_node, hlabel, Form.label_map,
      ← r.change.map_form, Form.map_map]
    refine form_blanked fun entry hentry => ?_
    exact body_changes Output.isCongruence_blanked fun s hs scope path =>
      ih entry.2 (Form.snd_mem_bodies hentry) s hs scope path

/-! ### Triggers -/

theorem leaves_revised (mapping : Mapping) (s : Statement) :
    leaves mapping (s.revised r) = leaves mapping s := by
  obtain ⟨form⟩ := s
  rw [Statement.revised_node]
  cases form <;> rfl

theorem trailingReturn_revised (statements : List Statement) :
    trailingReturn scope (statements.map (Statement.revised r)) =
      trailingReturn scope statements :=
  trailingReturn_changed (c := r.change) (leaves_revised scope.mapping) statements

theorem blockCursors_revised (s : Statement) : blockCursors (s.revised r) = blockCursors s := by
  obtain ⟨form⟩ := s
  rw [Statement.revised_node]
  cases form with
  | block b =>
    obtain ⟨declarations, body, handlers, unparsed⟩ := b
    cases declarations <;> rfl
  | _ => rfl

theorem cursorNames_revised (t : Trigger) : cursorNames (t.revised r) = cursorNames t := by
  simp only [cursorNames, Trigger.walk_revised, flatMap_map, blockCursors_revised]
  rfl

theorem scopeOf_revised (mapping : Mapping) (options : Options) (t : Trigger) :
    scopeOf mapping options (t.revised r) = scopeOf mapping options t := by
  simp only [scopeOf, contextOf, cursorNames_revised]
  rfl

/-- A trigger is written with the same steps when it is revised, but for the texts of comments. -/
theorem triggerBlock_blanked (t : Trigger) :
    (triggerBlock scope (t.revised r)).blanked = (triggerBlock scope t).blanked := by
  have hblock := block_blanked scope (trailingReturn scope) (fun e => body e.1 e.2)
    (fun e => body e.1 (e.2.map (Statement.revised r))) trailingReturn_revised
    (b := ⟨some t.declarations, ("", t.body), labelHandlers "" t.handlers, t.unparsed⟩)
    fun list _ => body_changes (c := r.change) Output.isCongruence_blanked fun s _ =>
      statement_blanked s
  rw [triggerBlock, Trigger.revised]
  simp only [labelHandlers_map, map_map]
  exact hblock

end Generate

/-! ### The comments themselves -/

/-- The comments on the exceptions and on what could not be read. -/
def Declarations.comments (d : Declarations) : List String :=
  d.exceptions.map (fun e => s!"exception {e.name}: raised as SQLSTATE P0001 (raise_exception)") ++
    d.raw.map fun text => s!"untranslated declaration: {text.text}"

/-- The comments on text that is no handler. -/
def unparsedNotes (unparsed : List Fragment) : List String :=
  unparsed.map fun text => s!"untranslated handler text, review: {text.text}"

/-- The comments on what a statement itself does not translate. -/
def Form.comments {β : Type} : Form β → List String
  | .block b => (b.declarations.getD .empty).comments ++ unparsedNotes b.unparsed
  | _ => []

/-- The comments on all that a trigger does not translate. -/
def Trigger.comments (t : Trigger) : List String :=
  t.declarations.comments ++ unparsedNotes t.unparsed ++
    t.walk.flatMap fun entry => entry.2.form.comments

namespace Generate

variable {scope : Scope} {path text : String} {closing : List Statement → List Layout}

theorem comment_mem_declareSection {d : Declarations} (h : text ∈ d.comments)
    (statements : List Statement) : .comment text ∈ (declareSection scope d statements).steps := by
  have hitem : ∃ item ∈ d.byKind, (declaration scope item).steps = [.comment text] := by
    rcases mem_append.1 h with h | h
    · obtain ⟨e, he, rfl⟩ := mem_map.1 h
      exact ⟨.ofException e, by simp [Declarations.byKind, he], rfl⟩
    · obtain ⟨raw, hraw, rfl⟩ := mem_map.1 h
      exact ⟨.ofRaw raw, by simp [Declarations.byKind, hraw], rfl⟩
  obtain ⟨item, hitem, hsteps⟩ := hitem
  have hmem : item ∈ d.toList := (mergeSort_perm _ _).mem_iff.2 hitem
  have hwithin : (declaration scope item).Within (declareSection scope d statements) := by
    have hfull : d.toList.isEmpty = false := by
      simpa using ne_nil_of_mem hmem
    rw [declareSection]
    simp only [hfull, Bool.false_and, Bool.false_eq_true, if_false]
    exact .append_right (.nested (.append_left
      (.concat (mem_map_of_mem hmem) infix_rfl)))
  exact hwithin.subset (hsteps ▸ mem_singleton_self _)

theorem within_unparsedComments (b : Block Inner) :
    (unparsedComments b.unparsed).Within (block scope closing b) := by
  by_cases hempty : b.handlers.isEmpty
  · refine .append_left (.append_left (.append_right (.nested (.append_right ?_))))
    rw [if_pos hempty]
    exact infix_rfl
  · refine .append_left (.append_right ?_)
    rw [exceptionSection, if_neg hempty]
    exact .append_right (.nested (.append_left infix_rfl))

/-- A block writes the comments on what it does not translate. -/
theorem comment_mem_block {b : Block Inner} (h : text ∈ (Form.block b).comments) :
    .comment text ∈ (block scope closing b).steps := by
  rcases mem_append.1 h with h | h
  · have hwithin : (declareSection (scope.declaring (b.declarations.getD .empty))
        (b.declarations.getD .empty) (b.body.statements ++
          b.handlers.flatMap fun h => h.body.statements)).Within (block scope closing b) :=
      .append_left (.append_left (.append_left (.append_left infix_rfl)))
    exact hwithin.subset (comment_mem_declareSection h _)
  · obtain ⟨fragment, hfragment, rfl⟩ := mem_map.1 h
    exact (within_unparsedComments b).subset (mem_map.2 ⟨fragment, hfragment, rfl⟩)

theorem comment_mem_statement {s : Statement} (h : text ∈ s.form.comments) :
    .comment text ∈ (statement s scope path).steps := by
  obtain ⟨form⟩ := s
  rw [statement_node]
  cases form with
  | block b =>
    rw [Form.label, Form.map, Generate.form]
    apply comment_mem_block
    exact h
  | _ => cases h

/-- Every comment on a text that is not translated is written. -/
theorem comment_mem_triggerBlock {t : Trigger} (h : text ∈ t.comments) :
    .comment text ∈ (triggerBlock scope t).steps := by
  rcases mem_append.1 h with h | h
  · exact comment_mem_block h
  · obtain ⟨entry, hentry, h⟩ := mem_flatMap.1 h
    obtain ⟨scope', hwithin⟩ := exists_within_triggerBlock scope hentry
    exact hwithin.subset (comment_mem_statement h)

/-- What is not translated stands in comments, whatever its text. Every such text has its comment
among the steps of the block, and no step but the comments changes when other texts stand in its
place. The output is made of lines that come from these steps, or from the function around the
block, and each line of a comment begins with the two dashes after its indentation. -/
theorem untranslated_commented (mapping : Mapping) (options : Options) (t : Trigger) :
    (∀ text ∈ t.comments, .comment text ∈ triggerSteps mapping options t) ∧
      (∀ r : Revision, (triggerSteps mapping options (t.revised r)).map Layout.blanked =
        (triggerSteps mapping options t).map Layout.blanked) ∧
      (trigger mapping options t).sql.toList =
        Layout.joined ((outputRows mapping options t).map Layout.Row.chars) ∧
      ∀ row ∈ outputRows mapping options t, '\n' ∉ row.chars ∧
        ∀ text, row.step = .comment text → IsCommented options.wrap text row.chars := by
  refine ⟨fun text htext => comment_mem_triggerBlock htext, fun r => ?_,
    toList_sql mapping options t, fun row hrow => ⟨not_mem_outputRows hrow, fun text hstep => ?_⟩⟩
  · rw [triggerSteps, scopeOf_revised]
    exact congrArg Output.steps (triggerBlock_blanked t)
  · exact outputRows_comment hrow hstep

end Generate

end TriggerDialect
