import TriggerDialect.Tree.Declarations
import TriggerDialect.Tree.Path

/-!
# Forms of statements

`Form β` is one statement whose inner statement lists are values of `β`: token spans while a
source is read, statements in the finished tree, JSON or output lines on the way out. What holds
for all inner lists of a statement is said once here, in terms of `Form.bodies`.
-/

namespace TriggerDialect

open List

/-- What is done with a cursor. -/
inductive CursorAction where
  | opening
  | fetching
  | closing
deriving Repr, DecidableEq

/-- The reserved word of a cursor action. -/
def CursorAction.word : CursorAction → String
  | .opening => "OPEN"
  | .fetching => "FETCH"
  | .closing => "CLOSE"

/-- The table, columns and values of a plain `INSERT`. -/
structure InsertTarget where
  table : String
  columns : List String
  values : List Fragment
deriving Repr, DecidableEq

/-- Statements without inner statements. -/
inductive Simple where
  | select (sql : Fragment)
  | insert (sql : Fragment) (target : Option InsertTarget)
  | update (sql : Fragment)
  | delete (sql : Fragment)
  | assignment (target value : Fragment)
  | exitLoop (label : Option String) (condition : Option Fragment)
  | continueLoop (label : Option String) (condition : Option Fragment)
  | returnValue (value : Option Fragment)
  | call (name : String) (arguments : List Fragment) (offset : Nat)
  /-- Without a name, the current exception is raised again. -/
  | raise (name : Option String) (offset : Nat)
  | executeImmediate (sql : Fragment)
  | cursor (action : CursorAction) (text : Fragment)
  | label (name : String)
  | null
  /-- Text that could not be read, as it stands. -/
  | raw (text : Fragment)
deriving Repr, DecidableEq

/-- A condition or value and the statements under it. -/
structure Arm (β : Type) where
  condition : Fragment
  body : β
deriving Repr, DecidableEq

/-- `WHEN name OR name THEN body` -/
structure Handler (β : Type) where
  name : String
  moreNames : List String
  body : β
  offset : Nat
deriving Repr, DecidableEq

/-- A block inside a body. -/
structure Block (β : Type) where
  declarations : Option Declarations
  body : β
  handlers : List (Handler β)
  /-- Text among the handlers that is none. -/
  unparsed : List Fragment
deriving Repr, DecidableEq

/-- A statement with inner statement lists in `β`. -/
inductive Form (β : Type) where
  | simple (statement : Simple)
  | conditional (first : Arm β) (others : List (Arm β)) (otherwise : Option β)
  | selection (selector : Option Fragment) (arms : List (Arm β)) (otherwise : Option β)
  | queryLoop (name : String) (query : Fragment) (body : β)
  | rangeLoop (name : String) (reverse : Bool) (lower upper : Fragment) (body : β)
  | whileLoop (condition : Fragment) (body : β)
  | endlessLoop (body : β)
  | block (block : Block β)
deriving Repr, DecidableEq

variable {α β γ : Type}

namespace Handler

/-- All names of the handler. -/
def names (h : Handler β) : List String := h.name :: h.moreNames

/-- Whether the handler takes all other exceptions. -/
def isOthers (h : Handler β) : Bool := Text.sameWord h.name "OTHERS"

end Handler

/-- The name of the kind of a simple statement. -/
def Simple.kindName : Simple → String
  | .select _ => "select"
  | .insert _ _ => "insert"
  | .update _ => "update"
  | .delete _ => "delete"
  | .assignment _ _ => "assignment"
  | .exitLoop _ _ => "exit"
  | .continueLoop _ _ => "continue"
  | .returnValue _ => "return"
  | .call _ _ _ => "procedure_call"
  | .raise _ _ => "raise"
  | .executeImmediate _ => "execute_immediate"
  | .cursor _ _ => "cursor"
  | .label _ => "label"
  | .null => "null"
  | .raw _ => "raw_statement"

/-- Whether the statement could not be read. -/
def Simple.isRaw : Simple → Bool
  | .raw _ => true
  | _ => false

/-- Another body for each arm. -/
def Arm.map (f : α → β) (arm : Arm α) : Arm β := { arm with body := f arm.body }

/-- Another body for each handler. -/
def Handler.map (f : α → β) (h : Handler α) : Handler β := { h with body := f h.body }

namespace Form

/-- The name of the kind of a statement. -/
def kindName : Form β → String
  | .simple s => s.kindName
  | .conditional _ _ _ => "if"
  | .selection _ _ _ => "case"
  | .queryLoop _ _ _ => "for_loop"
  | .rangeLoop _ _ _ _ _ => "numeric_for_loop"
  | .whileLoop _ _ => "while_loop"
  | .endlessLoop _ => "loop"
  | .block _ => "block"

/-- Whether the statement could not be read. -/
def isRaw : Form β → Bool
  | .simple s => s.isRaw
  | _ => false

/-- The number of texts among the handlers of a block that are no handlers. -/
def unparsedCount : Form β → Nat
  | .block b => b.unparsed.length
  | _ => 0

/-- The inner lists, in source order. -/
def bodies : Form β → List β
  | .simple _ => []
  | .conditional first others otherwise => first.body :: others.map Arm.body ++ otherwise.toList
  | .selection _ arms otherwise => arms.map Arm.body ++ otherwise.toList
  | .queryLoop _ _ body => [body]
  | .rangeLoop _ _ _ _ body => [body]
  | .whileLoop _ body => [body]
  | .endlessLoop body => [body]
  | .block b => b.body :: b.handlers.map Handler.body

/-- Applies `f` to each inner list. -/
def map (f : α → β) : Form α → Form β
  | .simple s => .simple s
  | .conditional first others otherwise =>
    .conditional (first.map f) (others.map (Arm.map f)) (otherwise.map f)
  | .selection selector arms otherwise =>
    .selection selector (arms.map (Arm.map f)) (otherwise.map f)
  | .queryLoop name query body => .queryLoop name query (f body)
  | .rangeLoop name reverse lower upper body => .rangeLoop name reverse lower upper (f body)
  | .whileLoop condition body => .whileLoop condition (f body)
  | .endlessLoop body => .endlessLoop (f body)
  | .block b => .block {
      declarations := b.declarations
      body := f b.body
      handlers := b.handlers.map (Handler.map f)
      unparsed := b.unparsed }

/-- The inner lists of a changed form. -/
theorem bodies_map (f : α → β) (form : Form α) : (form.map f).bodies = form.bodies.map f := by
  cases form with
  | simple s => rfl
  | conditional first others otherwise =>
    cases otherwise <;> simp [map, bodies, Arm.map, Function.comp_def]
  | selection selector arms otherwise =>
    cases otherwise <;> simp [map, bodies, Arm.map, Function.comp_def]
  | queryLoop | rangeLoop | whileLoop | endlessLoop => rfl
  | block b => simp [map, bodies, Handler.map, Function.comp_def]

/-- Two changes are one. -/
theorem map_map (f : α → β) (g : β → γ) (form : Form α) :
    (form.map f).map g = form.map fun a => g (f a) := by
  cases form with
  | conditional | selection | block => simp [map, Arm.map, Handler.map, Function.comp_def]
  | _ => rfl

/-- Nothing is changed by the identity. -/
theorem map_id (form : Form α) : (form.map fun a => a) = form := by
  cases form with
  | conditional | selection =>
    have hmap : (Arm.map fun a : α => a) = fun arm => arm := rfl
    simp [map, hmap]
  | block b =>
    have hmap : (Handler.map fun a : α => a) = fun h => h := rfl
    cases b
    simp [map, hmap]
  | _ => rfl

/-- Only the inner lists are changed. -/
theorem map_congr {f g : α → β} {form : Form α} (h : ∀ a ∈ form.bodies, f a = g a) :
    form.map f = form.map g := by
  cases form with
  | simple s => rfl
  | conditional first others otherwise =>
    simp only [bodies, cons_append, mem_cons, mem_append, mem_map, Option.mem_toList] at h
    simp only [map, Arm.map, conditional.injEq, Arm.mk.injEq, true_and]
    refine ⟨h _ (.inl rfl), map_congr_left fun arm harm => ?_, Option.map_congr fun b hb => ?_⟩
    · simp only [Arm.map, Arm.mk.injEq, true_and]
      exact h _ (.inr (.inl ⟨arm, harm, rfl⟩))
    · exact h _ (.inr (.inr hb))
  | selection selector arms otherwise =>
    simp only [bodies, mem_append, mem_map, Option.mem_toList] at h
    simp only [map, selection.injEq, true_and]
    refine ⟨map_congr_left fun arm harm => ?_, Option.map_congr fun b hb => ?_⟩
    · simp only [Arm.map, Arm.mk.injEq, true_and]
      exact h _ (.inl ⟨arm, harm, rfl⟩)
    · exact h _ (.inr hb)
  | queryLoop | rangeLoop | whileLoop | endlessLoop => simp [map, h _ (mem_singleton_self _)]
  | block b =>
    simp only [bodies, mem_cons, mem_map] at h
    simp only [map, block.injEq, Block.mk.injEq, true_and, and_true]
    refine ⟨h _ (.inl rfl), map_congr_left fun handler hhandler => ?_⟩
    simp only [Handler.map, Handler.mk.injEq, true_and, and_true]
    exact h _ (.inr ⟨handler, hhandler, rfl⟩)

/-- The form with each inner list known to be one of its bodies. -/
def attach (form : Form β) : Form { b // b ∈ form.bodies } :=
  match form with
  | .simple s => .simple s
  | .conditional first others otherwise =>
    .conditional ⟨first.condition, first.body, by simp [bodies]⟩
      (others.attach.map fun arm =>
        ⟨arm.1.condition, arm.1.body, by simpa [bodies] using .inr (.inl ⟨arm.1, arm.2, rfl⟩)⟩)
      (otherwise.attach.map fun b => ⟨b.1, by simpa [bodies] using .inr (.inr b.2)⟩)
  | .selection selector arms otherwise =>
    .selection selector
      (arms.attach.map fun arm =>
        ⟨arm.1.condition, arm.1.body, by simpa [bodies] using .inl ⟨arm.1, arm.2, rfl⟩⟩)
      (otherwise.attach.map fun b => ⟨b.1, by simpa [bodies] using .inr b.2⟩)
  | .queryLoop name query body => .queryLoop name query ⟨body, by simp [bodies]⟩
  | .rangeLoop name reverse lower upper body =>
    .rangeLoop name reverse lower upper ⟨body, by simp [bodies]⟩
  | .whileLoop condition body => .whileLoop condition ⟨body, by simp [bodies]⟩
  | .endlessLoop body => .endlessLoop ⟨body, by simp [bodies]⟩
  | .block b => .block {
      declarations := b.declarations
      body := ⟨b.body, by simp [bodies]⟩
      handlers := b.handlers.attach.map fun h =>
        ⟨h.1.name, h.1.moreNames, ⟨h.1.body, by simpa [bodies] using .inr ⟨h.1, h.2, rfl⟩⟩,
          h.1.offset⟩
      unparsed := b.unparsed }

/-- The inner lists of an attached form are its own. -/
theorem attach_map (form : Form β) : form.attach.map Subtype.val = form := by
  cases form with
  | conditional first others otherwise =>
    cases otherwise <;> simp [attach, map, Arm.map, Function.comp_def]
  | selection selector arms otherwise =>
    cases otherwise <;> simp [attach, map, Arm.map, Function.comp_def]
  | block b => simp [attach, map, Handler.map, Function.comp_def]
  | _ => rfl

/-- A change of an attached form. -/
theorem attach_map_val (f : β → γ) (form : Form β) :
    (form.attach.map fun b => f b.1) = form.map f := by
  rw [← map_map Subtype.val f, attach_map]

/-- All inner values, or nothing if one is missing. -/
def sequence : Form (Option β) → Option (Form β)
  | .simple s => some (.simple s)
  | .conditional first others otherwise => do
    let body ← first.body
    let others ← others.mapM fun arm => arm.body.map (Arm.mk arm.condition)
    let otherwise ← otherwise.mapM id
    return .conditional ⟨first.condition, body⟩ others otherwise
  | .selection selector arms otherwise => do
    let arms ← arms.mapM fun arm => arm.body.map (Arm.mk arm.condition)
    let otherwise ← otherwise.mapM id
    return .selection selector arms otherwise
  | .queryLoop name query body => body.map (.queryLoop name query)
  | .rangeLoop name reverse lower upper body => body.map (.rangeLoop name reverse lower upper)
  | .whileLoop condition body => body.map (.whileLoop condition)
  | .endlessLoop body => body.map .endlessLoop
  | .block b => do
    let body ← b.body
    let handlers ← b.handlers.mapM fun h =>
      h.body.map fun body => ⟨h.name, h.moreNames, body, h.offset⟩
    return .block ⟨b.declarations, body, handlers, b.unparsed⟩

end Form

/-! ### Branch paths -/

/-- Arms with the path of each body: `name` and the number of the arm, inside `path`. -/
def labelArms (path name : String) (arms : List (Arm β)) : List (Arm (String × β)) :=
  arms.mapIdx fun i arm => ⟨arm.condition, Path.inside path (Path.numbered name i), arm.body⟩

/-- Handlers with the path of each body. -/
def labelHandlers (path : String) (handlers : List (Handler β)) : List (Handler (String × β)) :=
  handlers.mapIdx fun i h =>
    ⟨h.name, h.moreNames, (Path.inside path (Path.numbered "handler" i), h.body), h.offset⟩

/-- The form with the path of each inner list, for a statement at `path`. -/
def Form.label (path : String) : Form β → Form (String × β)
  | .simple s => .simple s
  | .conditional first others otherwise =>
    .conditional ⟨first.condition, Path.inside path "then", first.body⟩
      (labelArms path "elsif" others)
      (otherwise.map fun body => (Path.inside path "else", body))
  | .selection selector arms otherwise =>
    .selection selector (labelArms path "when" arms)
      (otherwise.map fun body => (Path.inside path "else", body))
  | .queryLoop name query body => .queryLoop name query (Path.inside path "body", body)
  | .rangeLoop name reverse lower upper body =>
    .rangeLoop name reverse lower upper (Path.inside path "body", body)
  | .whileLoop condition body => .whileLoop condition (Path.inside path "body", body)
  | .endlessLoop body => .endlessLoop (Path.inside path "body", body)
  | .block b => .block {
      declarations := b.declarations
      body := (Path.inside path "body", b.body)
      handlers := labelHandlers path b.handlers
      unparsed := b.unparsed }

/-- Labels leave arms as they are. -/
theorem map_snd_labelArms (path name : String) (arms : List (Arm β)) :
    (labelArms path name arms).map (Arm.map Prod.snd) = arms := by
  apply ext_getElem <;> simp [labelArms, Arm.map]

/-- Labels leave handlers as they are. -/
theorem map_snd_labelHandlers (path : String) (handlers : List (Handler β)) :
    (labelHandlers path handlers).map (Handler.map Prod.snd) = handlers := by
  apply ext_getElem <;> simp [labelHandlers, Handler.map]

/-- The paths are added and nothing else changes. -/
theorem Form.map_snd_label (path : String) (form : Form β) :
    (form.label path).map Prod.snd = form := by
  cases form with
  | conditional first others otherwise =>
    cases otherwise <;> simp [label, map, map_snd_labelArms] <;> rfl
  | selection selector arms otherwise =>
    cases otherwise <;> simp [label, map, map_snd_labelArms]
  | block b => simp [label, map, map_snd_labelHandlers]
  | _ => rfl

/-- Arms may be labelled before a change. -/
theorem labelArms_map (path name : String) (arms : List (Arm α)) (f : α → β) :
    labelArms path name (arms.map (Arm.map f)) =
      (labelArms path name arms).map (Arm.map fun entry => (entry.1, f entry.2)) := by
  apply ext_getElem <;> simp [labelArms, Arm.map]

/-- Handlers may be labelled before a change. -/
theorem labelHandlers_map (path : String) (handlers : List (Handler α)) (f : α → β) :
    labelHandlers path (handlers.map (Handler.map f)) =
      (labelHandlers path handlers).map (Handler.map fun entry => (entry.1, f entry.2)) := by
  apply ext_getElem <;> simp [labelHandlers, Handler.map]

/-- A form may be labelled before a change. -/
theorem Form.label_map (path : String) (form : Form α) (f : α → β) :
    (form.map f).label path = (form.label path).map fun entry => (entry.1, f entry.2) := by
  cases form with
  | conditional first others otherwise =>
    cases otherwise <;> simp [label, map, labelArms_map] <;> rfl
  | selection selector arms otherwise =>
    cases otherwise <;> simp [label, map, labelArms_map]
  | block b => simp [label, map, labelHandlers_map]
  | _ => rfl

/-- Every labelled list is an inner list. -/
theorem Form.snd_mem_bodies {path : String} {form : Form β} {entry : String × β}
    (h : entry ∈ (form.label path).bodies) : entry.2 ∈ form.bodies := by
  have hmem := mem_map_of_mem (f := Prod.snd) h
  rwa [← bodies_map, map_snd_label] at hmem

end TriggerDialect
