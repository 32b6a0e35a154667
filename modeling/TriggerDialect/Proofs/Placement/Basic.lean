import TriggerDialect.Tree.Trigger
import TriggerDialect.Diagnostic

/-!
# Moving offsets

Tokens, trees and reports carry byte offsets. A relocation says where each offset goes, and
`moved` applies it to all offsets of a value. It keeps zero in its place, because zero also is the
offset of a text without tokens. `Relocation.erase` sends every offset to zero: two values are the
same up to their offsets if they are the same after it.
-/

namespace TriggerDialect

open List

/-- Where each offset goes. -/
structure Relocation where
  target : Nat → Nat
  target_zero : target 0 = 0

/-- Values that hold offsets. -/
class Placed (α : Type) where
  /-- The value with all its offsets moved. -/
  moved : Relocation → α → α

export Placed (moved)

/-- Every offset goes to zero. -/
def Relocation.erase : Relocation := ⟨fun _ => 0, rfl⟩

variable {α β γ ε : Type} [Placed α] [Placed β] [Placed ε] (r : Relocation)

/-! ### Containers -/

instance : Placed String := ⟨fun _ s => s⟩

instance : Placed Bool := ⟨fun _ b => b⟩

instance : Placed (List α) := ⟨fun r => map (moved r)⟩

instance : Placed (Option α) := ⟨fun r => Option.map (moved r)⟩

instance : Placed (α × β) := ⟨fun r p => (moved r p.1, moved r p.2)⟩

instance : Placed (Except ε α) := ⟨fun r e => (e.map (moved r)).mapError (moved r)⟩

@[simp] theorem moved_string (s : String) : moved r s = s := rfl

@[simp] theorem moved_bool (b : Bool) : moved r b = b := rfl

@[simp] theorem moved_strings (ss : List String) : moved r ss = ss := map_id ss

@[simp] theorem moved_optionString (s : Option String) : moved r s = s := by cases s <;> rfl

@[simp] theorem moved_nil : moved r ([] : List α) = [] := rfl

@[simp] theorem moved_cons (a : α) (as : List α) :
    moved r (a :: as) = moved r a :: moved r as := rfl

@[simp] theorem moved_none : moved r (none : Option α) = none := rfl

@[simp] theorem moved_some (a : α) : moved r (some a) = some (moved r a) := rfl

@[simp] theorem moved_pair (a : α) (b : β) : moved r (a, b) = (moved r a, moved r b) := rfl

@[simp] theorem moved_ok (a : α) : moved r (.ok a : Except ε α) = .ok (moved r a) := rfl

@[simp] theorem moved_error (e : ε) : moved r (.error e : Except ε α) = .error (moved r e) := rfl

theorem moved_list (as : List α) : moved r as = as.map (moved r) := rfl

@[simp] theorem moved_append (as bs : List α) : moved r (as ++ bs) = moved r as ++ moved r bs :=
  map_append

@[simp] theorem moved_reverse (as : List α) : moved r as.reverse = (moved r as).reverse :=
  map_reverse

@[simp] theorem isEmpty_moved (as : List α) : (moved r as).isEmpty = as.isEmpty := isEmpty_map

@[simp] theorem length_moved (as : List α) : (moved r as).length = as.length := length_map _

@[simp] theorem fst_moved (p : α × β) : (moved r p).1 = moved r p.1 := rfl

@[simp] theorem snd_moved (p : α × β) : (moved r p).2 = moved r p.2 := rfl

theorem moved_map_except {f g : α → β} {e : Except ε α} (h : ∀ a, g (moved r a) = moved r (f a)) :
    (moved r e).map g = moved r (e.map f) := by
  cases e with
  | error reason => rfl
  | ok a => simp [Except.map, h]

theorem moved_map_option {f g : α → β} {a : Option α} (h : ∀ a, g (moved r a) = moved r (f a)) :
    (moved r a).map g = moved r (a.map f) := by
  cases a with
  | none => rfl
  | some a => simp [h]

theorem moved_flatMap {f g : α → List β} {as : List α}
    (h : ∀ a ∈ as, g (moved r a) = moved r (f a)) :
    (moved r as).flatMap g = moved r (as.flatMap f) := by
  induction as with
  | nil => rfl
  | cons a as ih =>
    simp only [moved_cons, flatMap_cons, moved_append, h a mem_cons_self]
    rw [ih fun b hb => h b (mem_cons_of_mem a hb)]

theorem moved_map {f g : α → β} {as : List α} (h : ∀ a ∈ as, g (moved r a) = moved r (f a)) :
    (moved r as).map g = moved r (as.map f) := by
  simp only [moved_list, map_map]
  exact map_congr_left h

theorem moved_filterMap {f : α → Option β} (h : ∀ a, f (moved r a) = moved r (f a))
    (as : List α) : (moved r as).filterMap f = moved r (as.filterMap f) := by
  induction as with
  | nil => rfl
  | cons a as ih => cases hf : f a <;> simp [h, hf, ih]

/-- The same up to offsets. -/
def Alike (a b : α) : Prop := moved .erase a = moved .erase b

namespace Alike

theorem refl (a : α) : Alike a a := rfl

theorem symm {a b : α} (h : Alike a b) : Alike b a := Eq.symm h

theorem trans {a b c : α} (h : Alike a b) (h' : Alike b c) : Alike a c := Eq.trans h h'

theorem append {as as' bs bs' : List α} (h : Alike as as') (h' : Alike bs bs') :
    Alike (as ++ bs) (as' ++ bs') := by
  rw [Alike, moved_append, moved_append, h, h']

theorem flatMap {f g : γ → List α} {cs : List γ} (h : ∀ c ∈ cs, Alike (f c) (g c)) :
    Alike (cs.flatMap f) (cs.flatMap g) := by
  induction cs with
  | nil => rfl
  | cons c cs ih =>
    simp only [flatMap_cons]
    exact (h c mem_cons_self).append (ih fun b hb => h b (mem_cons_of_mem c hb))

end Alike

/-! ### Tokens and fragments -/

instance : Placed Token := ⟨fun r t => { t with offset := r.target t.offset }⟩

instance : Placed Fragment := ⟨fun r f => { f with offset := r.target f.offset }⟩

@[simp] theorem toPiece_moved (t : Token) : (moved r t).toPiece = t.toPiece := rfl

@[simp] theorem offset_moved (t : Token) : (moved r t).offset = r.target t.offset := rfl

@[simp] theorem pieces_moved (ts : List Token) : pieces (moved r ts) = pieces ts := by
  simp [pieces, moved_list, Function.comp_def]

@[simp] theorem render_moved (ts : List Token) : render (moved r ts) = render ts := by
  simp [render]

namespace Fragment

@[simp] theorem text_moved (f : Fragment) : (moved r f).text = f.text := rfl

@[simp] theorem offset_moved (f : Fragment) : (moved r f).offset = r.target f.offset := rfl

@[simp] theorem isEmpty_moved (f : Fragment) : (moved r f).isEmpty = f.isEmpty := rfl

@[simp] theorem startOf_moved (ts : List Token) : startOf (moved r ts) = r.target (startOf ts) := by
  cases ts with
  | nil => exact r.target_zero.symm
  | cons t ts => rfl

@[simp] theorem ofTokens_moved (ts : List Token) :
    ofTokens (moved r ts) = moved r (ofTokens ts) := by
  simp only [ofTokens, render_moved, startOf_moved]
  rfl

end Fragment

/-! ### Reports -/

instance : Placed Diagnostic := ⟨fun r d => { d with offset := d.offset.map r.target }⟩

@[simp] theorem moved_warning (stage : Stage) (offset : Option Nat) (message : String) :
    moved r (Diagnostic.warning stage offset message) =
      .warning stage (offset.map r.target) message := rfl

@[simp] theorem moved_warningAt (stage : Stage) (offset : Option Nat) (path message : String) :
    moved r (Diagnostic.warningAt stage offset path message) =
      .warningAt stage (offset.map r.target) path message := rfl

/-! ### Declarations -/

instance : Placed Initializer where
  moved r
    | .string value => .string value
    | .expression text => .expression (moved r text)

instance : Placed Variable where
  moved r v := { v with default := moved r v.default, offset := r.target v.offset }

instance : Placed Constant where
  moved r c := { c with value := moved r c.value, offset := r.target c.offset }

instance : Placed ExceptionName := ⟨fun r e => { e with offset := r.target e.offset }⟩

instance : Placed CursorParameter := ⟨fun _ p => p⟩

instance : Placed Cursor where
  moved r c := { c with query := moved r c.query, offset := r.target c.offset }

instance : Placed Declaration where
  moved r
    | .ofVariable v => .ofVariable (moved r v)
    | .ofConstant c => .ofConstant (moved r c)
    | .ofException e => .ofException (moved r e)
    | .ofCursor c => .ofCursor (moved r c)
    | .ofRaw text => .ofRaw (moved r text)

instance : Placed Declarations where
  moved r d := {
    vars := moved r d.vars
    constants := moved r d.constants
    exceptions := moved r d.exceptions
    cursors := moved r d.cursors
    raw := moved r d.raw }

/-! ### Statements -/

instance : Placed InsertTarget := ⟨fun r t => { t with values := moved r t.values }⟩

instance : Placed Simple where
  moved r
    | .select sql => .select (moved r sql)
    | .insert sql target => .insert (moved r sql) (moved r target)
    | .update sql => .update (moved r sql)
    | .delete sql => .delete (moved r sql)
    | .assignment target value => .assignment (moved r target) (moved r value)
    | .exitLoop label condition => .exitLoop label (moved r condition)
    | .continueLoop label condition => .continueLoop label (moved r condition)
    | .returnValue value => .returnValue (moved r value)
    | .call name arguments offset => .call name (moved r arguments) (r.target offset)
    | .raise name offset => .raise name (r.target offset)
    | .executeImmediate sql => .executeImmediate (moved r sql)
    | .cursor action text => .cursor action (moved r text)
    | .label name => .label name
    | .null => .null
    | .raw text => .raw (moved r text)

instance : Placed (Arm α) := ⟨fun r arm => ⟨moved r arm.condition, moved r arm.body⟩⟩

instance : Placed (Handler α) :=
  ⟨fun r h => { h with body := moved r h.body, offset := r.target h.offset }⟩

instance : Placed (Block α) where
  moved r b := ⟨moved r b.declarations, moved r b.body, moved r b.handlers, moved r b.unparsed⟩

instance : Placed (Form α) where
  moved r
    | .simple s => .simple (moved r s)
    | .conditional first others otherwise =>
      .conditional (moved r first) (moved r others) (moved r otherwise)
    | .selection selector arms otherwise =>
      .selection (moved r selector) (moved r arms) (moved r otherwise)
    | .queryLoop name query body => .queryLoop name (moved r query) (moved r body)
    | .rangeLoop name reverse lower upper body =>
      .rangeLoop name reverse (moved r lower) (moved r upper) (moved r body)
    | .whileLoop condition body => .whileLoop (moved r condition) (moved r body)
    | .endlessLoop body => .endlessLoop (moved r body)
    | .block b => .block (moved r b)

/-- Moves the offsets of a statement itself, and none in its inner lists. -/
def Form.relocate : Form γ → Form γ
  | .simple s => .simple (moved r s)
  | .conditional first others otherwise =>
    .conditional ⟨moved r first.condition, first.body⟩
      (others.map fun arm => ⟨moved r arm.condition, arm.body⟩) otherwise
  | .selection selector arms otherwise =>
    .selection (moved r selector) (arms.map fun arm => ⟨moved r arm.condition, arm.body⟩) otherwise
  | .queryLoop name query body => .queryLoop name (moved r query) body
  | .rangeLoop name reverse lower upper body =>
    .rangeLoop name reverse (moved r lower) (moved r upper) body
  | .whileLoop condition body => .whileLoop (moved r condition) body
  | .endlessLoop body => .endlessLoop body
  | .block b => .block {
      declarations := moved r b.declarations
      body := b.body
      handlers := b.handlers.map fun h => { h with offset := r.target h.offset }
      unparsed := moved r b.unparsed }

instance : Placed Statement := ⟨fun r => Statement.fold fun form => .node (form.relocate r)⟩

/-- The offsets of a statement are its own and those of its inner lists. -/
theorem moved_form (form : Form α) : moved r form = (form.map (moved r)).relocate r := by
  cases form with
  | conditional | selection | block =>
    simp [moved, Form.map, Form.relocate, Arm.map, Handler.map, Function.comp_def]
  | _ => rfl

namespace Form

variable {δ : Type}

theorem map_relocate (f : γ → δ) (form : Form γ) :
    (form.relocate r).map f = (form.map f).relocate r := by
  cases form with
  | conditional | selection | block =>
    simp [map, relocate, Arm.map, Handler.map, Function.comp_def]
  | _ => rfl

theorem bodies_relocate (form : Form γ) : (form.relocate r).bodies = form.bodies := by
  cases form with
  | conditional | selection | block =>
    simp [bodies, relocate, Function.comp_def]
  | _ => rfl

theorem label_relocate (path : String) (form : Form γ) :
    (form.relocate r).label path = (form.label path).relocate r := by
  cases form with
  | conditional | selection | block =>
    simp [label, relocate, labelArms, labelHandlers, mapIdx_eq_zipIdx_map, zipIdx_map,
      Function.comp_def]
  | _ => rfl

end Form

theorem labelHandlers_moved (path : String) (handlers : List (Handler α)) :
    labelHandlers path (moved r handlers) = moved r (labelHandlers path handlers) := by
  apply ext_getElem
  · simp [labelHandlers]
  · intro i hleft hright
    simp only [labelHandlers, moved_list, getElem_mapIdx, getElem_map]
    rfl

theorem moved_node (form : Form (List Statement)) :
    moved r (Statement.node form) = .node (moved r form) := by
  rw [moved_form]
  exact Statement.fold_node _ form

@[simp] theorem moved_simple (s : Simple) : moved r (Statement.simple s) = .simple (moved r s) := by
  rw [Statement.simple, moved_node]
  rfl

/-! ### Triggers -/

instance : Placed Header := ⟨fun r h => { h with condition := moved r h.condition }⟩

instance : Placed Trigger where
  moved r t := {
    header := moved r t.header
    declarations := moved r t.declarations
    body := moved r t.body
    handlers := moved r t.handlers
    unparsed := moved r t.unparsed }

end TriggerDialect
