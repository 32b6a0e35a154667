import TriggerDialect.Tree.Form

/-!
# Statements

A statement is a form over lists of statements. Every computation on statements is a fold, which
sees each form after its inner lists are done.
-/

namespace TriggerDialect

open List

/-- A statement with all that is inside it. -/
inductive Statement where
  | node (form : Form (List Statement))
deriving Repr

namespace Statement

variable {γ : Type}

/-- The outermost form. -/
def form : Statement → Form (List Statement)
  | .node form => form

/-- A statement without inner statements. -/
def simple (s : Simple) : Statement := .node (.simple s)

mutual

/-- Computes a value for a statement from the values of the inner lists. -/
def fold (step : Form (List γ) → γ) : Statement → γ
  | .node form => step (foldForm step form)

/-- The fold on the inner lists of a form. -/
def foldForm (step : Form (List γ) → γ) : Form (List Statement) → Form (List γ)
  | .simple s => .simple s
  | .conditional ⟨condition, body⟩ others otherwise =>
    .conditional ⟨condition, foldList step body⟩ (foldArms step others) (foldOption step otherwise)
  | .selection selector arms otherwise =>
    .selection selector (foldArms step arms) (foldOption step otherwise)
  | .queryLoop name query body => .queryLoop name query (foldList step body)
  | .rangeLoop name reverse lower upper body =>
    .rangeLoop name reverse lower upper (foldList step body)
  | .whileLoop condition body => .whileLoop condition (foldList step body)
  | .endlessLoop body => .endlessLoop (foldList step body)
  | .block ⟨declarations, body, handlers, unparsed⟩ =>
    .block ⟨declarations, foldList step body, foldHandlers step handlers, unparsed⟩

/-- The fold on each statement of a list. -/
def foldList (step : Form (List γ) → γ) : List Statement → List γ
  | [] => []
  | s :: rest => fold step s :: foldList step rest

/-- The fold on each arm. -/
def foldArms (step : Form (List γ) → γ) : List (Arm (List Statement)) → List (Arm (List γ))
  | [] => []
  | ⟨condition, body⟩ :: rest => ⟨condition, foldList step body⟩ :: foldArms step rest

/-- The fold on each handler. -/
def foldHandlers (step : Form (List γ) → γ) :
    List (Handler (List Statement)) → List (Handler (List γ))
  | [] => []
  | ⟨name, moreNames, body, offset⟩ :: rest =>
    ⟨name, moreNames, foldList step body, offset⟩ :: foldHandlers step rest

/-- The fold on an optional list. -/
def foldOption (step : Form (List γ) → γ) : Option (List Statement) → Option (List γ)
  | none => none
  | some body => some (foldList step body)

end

section Fold

variable (step : Form (List γ) → γ)

/-- A list is folded statement by statement. -/
theorem foldList_eq (body : List Statement) : foldList step body = body.map (fold step) := by
  induction body with
  | nil => rfl
  | cons s rest ih => rw [foldList, ih, map_cons]

/-- Arms are folded body by body. -/
theorem foldArms_eq (arms : List (Arm (List Statement))) :
    foldArms step arms = arms.map (Arm.map (map (fold step))) := by
  induction arms with
  | nil => rfl
  | cons arm rest ih => rw [foldArms, ih, map_cons, foldList_eq]; rfl

/-- Handlers are folded body by body. -/
theorem foldHandlers_eq (handlers : List (Handler (List Statement))) :
    foldHandlers step handlers = handlers.map (Handler.map (map (fold step))) := by
  induction handlers with
  | nil => rfl
  | cons h rest ih => rw [foldHandlers, ih, map_cons, foldList_eq]; rfl

/-- A missing body stays missing. -/
theorem foldOption_eq (body : Option (List Statement)) :
    foldOption step body = body.map (map (fold step)) := by
  cases body with
  | none => rfl
  | some body => rw [foldOption, foldList_eq]; rfl

/-- A form is folded body by body. -/
theorem foldForm_eq (form : Form (List Statement)) :
    foldForm step form = form.map (map (fold step)) := by
  cases form with
  | simple s => rfl
  | conditional first others otherwise =>
    simp only [foldForm, foldList_eq, foldArms_eq, foldOption_eq, Form.map, Arm.map]
  | selection selector arms otherwise =>
    simp only [foldForm, foldArms_eq, foldOption_eq, Form.map]
  | queryLoop | rangeLoop | whileLoop | endlessLoop => simp only [foldForm, foldList_eq, Form.map]
  | block b => simp only [foldForm, foldList_eq, foldHandlers_eq, Form.map]

/-- The value of a statement comes from the values of its inner statements alone. -/
theorem fold_node (form : Form (List Statement)) :
    fold step (.node form) = step (form.map (map (fold step))) := by
  rw [fold, foldForm_eq]

end Fold

section Induction

variable {P : Statement → Prop}

/-- The property holds of a statement whenever it holds of all inner ones. -/
def Inductive (P : Statement → Prop) : Prop :=
  ∀ form, (∀ body ∈ form.bodies, ∀ s ∈ body, P s) → P (.node form)

mutual

/-- An inductive property holds of every statement. -/
theorem inductionStatement (node : Inductive P) : ∀ s, P s
  | .node form => node form (inductionForm node form)

/-- An inductive property holds of the statements inside a form. -/
theorem inductionForm (node : Inductive P) :
    ∀ form : Form (List Statement), ∀ body ∈ form.bodies, ∀ s ∈ body, P s
  | .simple _ => by simp [Form.bodies]
  | .conditional ⟨_, body⟩ others otherwise => by
    have hbody := inductionList node body
    have hothers := inductionArms node others
    have hotherwise := inductionOption node otherwise
    simp only [Form.bodies, cons_append, mem_cons, mem_append, mem_map, Option.mem_toList]
    rintro b (rfl | ⟨arm, harm, rfl⟩ | hb)
    · exact hbody
    · exact hothers arm harm
    · exact hotherwise b hb
  | .selection _ arms otherwise => by
    have harms := inductionArms node arms
    have hotherwise := inductionOption node otherwise
    simp only [Form.bodies, mem_append, mem_map, Option.mem_toList]
    rintro b (⟨arm, harm, rfl⟩ | hb)
    · exact harms arm harm
    · exact hotherwise b hb
  | .queryLoop _ _ body => by simpa [Form.bodies] using inductionList node body
  | .rangeLoop _ _ _ _ body => by simpa [Form.bodies] using inductionList node body
  | .whileLoop _ body => by simpa [Form.bodies] using inductionList node body
  | .endlessLoop body => by simpa [Form.bodies] using inductionList node body
  | .block ⟨_, body, handlers, _⟩ => by
    have hbody := inductionList node body
    have hhandlers := inductionHandlers node handlers
    simp only [Form.bodies, mem_cons, mem_map]
    rintro b (rfl | ⟨handler, hhandler, rfl⟩)
    · exact hbody
    · exact hhandlers handler hhandler

/-- An inductive property holds of the statements of a list. -/
theorem inductionList (node : Inductive P) : ∀ body : List Statement, ∀ s ∈ body, P s
  | [] => by simp
  | s :: rest => by
    have hs := inductionStatement node s
    have hrest := inductionList node rest
    simpa using ⟨hs, hrest⟩

/-- An inductive property holds of the statements under arms. -/
theorem inductionArms (node : Inductive P) :
    ∀ arms : List (Arm (List Statement)), ∀ arm ∈ arms, ∀ s ∈ arm.body, P s
  | [] => by simp
  | ⟨_, body⟩ :: rest => by
    have hbody := inductionList node body
    have hrest := inductionArms node rest
    simpa using ⟨hbody, hrest⟩

/-- An inductive property holds of the statements in handlers. -/
theorem inductionHandlers (node : Inductive P) :
    ∀ handlers : List (Handler (List Statement)), ∀ h ∈ handlers, ∀ s ∈ h.body, P s
  | [] => by simp
  | ⟨_, _, body, _⟩ :: rest => by
    have hbody := inductionList node body
    have hrest := inductionHandlers node rest
    simpa using ⟨hbody, hrest⟩

/-- An inductive property holds of the statements of an optional list. -/
theorem inductionOption (node : Inductive P) :
    ∀ otherwise : Option (List Statement), ∀ body ∈ otherwise, ∀ s ∈ body, P s
  | none => by simp
  | some body => by
    have hbody := inductionList node body
    simpa using hbody

end

/-- What holds for a statement whenever it holds for all inner ones holds for every statement. -/
theorem induction (node : ∀ form, (∀ body ∈ form.bodies, ∀ s ∈ body, P s) → P (.node form)) :
    ∀ s, P s := inductionStatement node

end Induction

/-- The statement beside the value that `foldWith` gives it. -/
def foldPair (step : Form (List (Statement × γ)) → γ) (s : Statement) : Statement × γ :=
  fold (fun form => (Statement.node (form.map (map Prod.fst)), step form)) s

/-- Computes a value for a statement from its inner statements together with their values. -/
def foldWith (step : Form (List (Statement × γ)) → γ) (s : Statement) : γ := (foldPair step s).2

/-- A paired fold keeps the statement. -/
theorem fst_foldPair (step : Form (List (Statement × γ)) → γ) (s : Statement) :
    (foldPair step s).1 = s := by
  induction s using induction with
  | node form ih =>
    rw [foldPair, fold_node]
    simp only [Form.map_map, map_map]
    congr 1
    refine (Form.map_congr fun body hbody => ?_).trans (Form.map_id form)
    exact (map_congr_left fun s hs => ih body hbody s hs).trans (map_id' body)

/-- A fold that sees the statements, one level down. -/
theorem foldWith_node (step : Form (List (Statement × γ)) → γ) (form : Form (List Statement)) :
    foldWith step (.node form) = step (form.map (map fun s => (s, foldWith step s))) := by
  have hpair : foldPair step = fun s => (s, foldWith step s) :=
    funext fun s => Prod.ext (fst_foldPair step s) rfl
  rw [foldWith, foldPair, fold_node]
  change step (form.map (map (foldPair step))) = _
  rw [hpair]

end Statement

end TriggerDialect
