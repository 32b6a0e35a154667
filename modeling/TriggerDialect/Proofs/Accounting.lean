import TriggerDialect.Grammar.Trigger

/-!
# Every statement is accounted for

Reading counts what it finds. The count of a list is the number of statements that a walk over the
tree visits, together with the texts among handlers that are no handlers. A statement that is given
up after some of its branches were read counts as one.
-/

namespace TriggerDialect

variable {α β : Type} (path : String)

theorem total_flatMap (count : β → Nat) (f : α → List β) (xs : List α) :
    total count (xs.flatMap f) = total (fun x => total count (f x)) xs := by
  induction xs with
  | nil => rfl
  | cons x xs ih => rw [List.flatMap_cons, total_append, total_cons, ih]

theorem total_map (count : β → Nat) (f : α → β) (xs : List α) :
    total count (xs.map f) = total (fun x => count (f x)) xs := by
  induction xs with
  | nil => rfl
  | cons x xs ih => rw [List.map_cons, total_cons, total_cons, ih]

theorem total_congr {f g : α → Nat} {xs : List α} (h : ∀ x ∈ xs, f x = g x) :
    total f xs = total g xs := by
  induction xs with
  | nil => rfl
  | cons x xs ih =>
    rw [total_cons, total_cons, h x (by simp), ih fun y hy => h y (by simp [hy])]

theorem total_add (f g : α → Nat) (xs : List α) :
    total (fun x => f x + g x) xs = total f xs + total g xs := by
  induction xs with
  | nil => rfl
  | cons x xs ih =>
    simp only [total_cons, ih]
    omega

/-- What a walk has to account for: the statements, and the texts among the handlers of their
blocks that are no handlers. -/
def census (walk : List (String × Statement)) : Nat :=
  total (fun entry => 1 + entry.2.form.unparsedCount) walk

/-- A walk over the bodies of handlers that stand at `path`. -/
def walkHandlers (path : String) (handlers : List (Handler (List Statement))) :
    List (String × Statement) :=
  (labelHandlers path handlers).flatMap fun h => Statement.walkList h.body.1 h.body.2

@[simp] theorem census_append (xs ys : List (String × Statement)) :
    census (xs ++ ys) = census xs + census ys :=
  total_append _ xs ys

theorem census_cons (form : Form (List Statement)) (rest : List (String × Statement)) :
    census ((path, .node form) :: rest) = 1 + form.unparsedCount + census rest :=
  rfl

/-- Typed and raw statements together are all that a walk accounts for. -/
theorem Trigger.tally_total (t : Trigger) : t.tally.total = census t.walk + t.unparsed.length := by
  have hcounts : ∀ entry : String × Statement,
      entry.2.typedCount + entry.2.rawCount = 1 + entry.2.form.unparsedCount := by
    intro entry
    unfold Statement.typedCount Statement.rawCount
    split <;> omega
  have hsum := total_add (fun entry : String × Statement => entry.2.typedCount)
    (fun entry => entry.2.rawCount) t.walk
  simp only [hcounts] at hsum
  simp only [Tally.total, Trigger.tally, census, hsum]
  omega

/-! ### Walks over what was read at known paths -/

theorem labelHandlers_map_labelHandlers (handlers : List (Handler α)) (f : String × α → β) :
    labelHandlers path ((labelHandlers path handlers).map (Handler.map f)) =
      (labelHandlers path handlers).map (Handler.map fun entry => (entry.1, f entry)) := by
  apply List.ext_getElem <;> simp [labelHandlers, Handler.map]

/-- Inner lists keep their paths when they are replaced by values that depend on the paths. -/
theorem Form.label_map_label (form : Form α) (f : String × α → β) :
    ((form.label path).map f).label path =
      (form.label path).map fun entry => (entry.1, f entry) := by
  -- adding the paths twice gives the same paths
  have htwice : ((form.label path).label path).map Prod.snd =
      ((form.label path).label path).map fun entry => (entry.1, entry.2.2) := by
    rw [map_snd_label, ← label_map, map_snd_label]
  have hbodies := congrArg bodies htwice
  rw [bodies_map, bodies_map, List.map_inj_left] at hbodies
  conv => rhs; rw [← map_snd_label path (form.label path), map_map]
  rw [label_map]
  refine map_congr fun entry hentry => ?_
  rw [hbodies entry hentry]

theorem Form.unparsedCount_map (f : α → β) (form : Form α) :
    (form.map f).unparsedCount = form.unparsedCount := by
  cases form <;> rfl

namespace Grammar

variable {read : String × Slice → Outcome (List Statement)} {form : Form (String × Slice)}

/-- Whether the count of an outcome is what a walk over its statements accounts for. -/
def Outcome.IsAccounted (path : String) (o : Outcome (List Statement)) : Prop :=
  o.found = census (Statement.walkList path o.value)

@[simp] theorem Outcome.found_after (before : List Diagnostic) (o : Outcome α) :
    (o.after before).found = o.found :=
  rfl

@[simp] theorem Outcome.value_after (before : List Diagnostic) (o : Outcome α) :
    (o.after before).value = o.value :=
  rfl

/-- A walk over a statement that was put together visits it, then its inner lists at their paths. -/
theorem walk_assembled {path : String} (after : List Diagnostic)
    (hpaths : ∀ f : String × Slice → List Statement,
      (form.map f).label path = form.map fun entry => (entry.1, f entry)) :
    Statement.walk (assembled after (form.map read)).value path =
      (path, .node ((form.map read).map Outcome.value)) ::
        form.bodies.flatMap fun entry => Statement.walkList entry.1 (read entry).value := by
  have hform : ((form.map read).map Outcome.value).label path =
      form.map fun entry => (entry.1, (read entry).value) := by
    rw [Form.map_map, hpaths]
  rw [assembled, Statement.walk_node, hform, Form.bodies_map, List.flatMap_map]

/-- A statement put together from inner lists that are accounted for is accounted for. -/
theorem assembled_found {path : String} (after : List Diagnostic)
    (hpaths : ∀ f : String × Slice → List Statement,
      (form.map f).label path = form.map fun entry => (entry.1, f entry))
    (hread : ∀ entry ∈ form.bodies, (read entry).IsAccounted entry.1) :
    (assembled after (form.map read)).found =
      census (Statement.walk (assembled after (form.map read)).value path) := by
  have hbodies : total Outcome.found (form.map read).bodies =
      census (form.bodies.flatMap fun entry => Statement.walkList entry.1 (read entry).value) := by
    rw [Form.bodies_map, total_map, census, total_flatMap]
    exact total_congr hread
  rw [walk_assembled after hpaths, census_cons, Form.unparsedCount_map, ← hbodies]
  simp only [assembled]
  omega

/-- The counts of statements at known places add up to what a walk over them accounts for. -/
theorem total_found_mapIdx (place : Nat → String) (outcome : Nat → α → Outcome Statement)
    (xs : List α)
    (h : ∀ i, ∀ x ∈ xs, (outcome i x).found = census ((outcome i x).value.walk (place i))) :
    total Outcome.found (xs.mapIdx outcome) =
      census (xs.mapIdx fun i x => (outcome i x).value.walk (place i)).flatten := by
  induction xs generalizing place outcome with
  | nil => rfl
  | cons x xs ih =>
    have hrest := ih (fun i => place (i + 1)) (fun i => outcome (i + 1))
      fun i y hy => h (i + 1) y (by simp [hy])
    have hx := h 0 x (by simp)
    simp [hx, hrest]

/-- A walk over a list visits its statements one after the other. -/
theorem walkList_all (outcome : Nat → α → Outcome Statement) (xs : List α) :
    Statement.walkList path (Outcome.all (xs.mapIdx outcome)).value =
      (xs.mapIdx fun i x => (outcome i x).value.walk (Path.child path i)).flatten := by
  unfold Statement.walkList Statement.walkEach Outcome.all
  congr 1
  apply List.ext_getElem <;> simp

theorem isAccounted_all (outcome : Nat → α → Outcome Statement) (xs : List α) (h : ∀ i, ∀ x ∈ xs,
      (outcome i x).found = census ((outcome i x).value.walk (Path.child path i))) :
    (Outcome.all (xs.mapIdx outcome)).IsAccounted path := by
  rw [Outcome.IsAccounted, walkList_all]
  exact total_found_mapIdx (Path.child path) outcome xs h

/-- A statement is accounted for if all shorter lists are. -/
theorem statementWith_found (span : Span)
    (hinner : ∀ place inner, inner.length < span.tokens.length →
      (statements place inner).IsAccounted place) :
    (statementWith statements path span).found =
      census ((statementWith statements path span).value.walk path) := by
  unfold statementWith
  rw [Outcome.found_after, Outcome.value_after]
  cases hread : recognise path span.tokens with
  | error reason => simp [keptVerbatim, Statement.simple, Statement.walk_node, census, Form.label,
      Form.bodies, Statement.form, Form.unparsedCount]
  | ok r =>
    apply assembled_found
    · exact fun f => Form.label_map_label path r.form f
    · intro entry hentry
      exact hinner entry.1 entry.2.tokens
        (recognise_length hread _ (Form.snd_mem_bodies hentry))

/-- The count of a statement list is what a walk over the statements read accounts for. -/
theorem statements_isAccounted (ts : List Token) : (statements path ts).IsAccounted path := by
  -- inner lists are shorter, so that the induction is on the number of tokens
  induction ts using shorterInduction generalizing path with
  | shorter ts ih =>
    rw [statements_eq]
    apply isAccounted_all
    intro i piece hpiece
    cases piece with
    | label name => simp [pieceWith, Statement.simple, Statement.walk_node, census, Form.label,
        Form.bodies, Statement.form, Form.unparsedCount]
    | statement span =>
      have hspan := piecewise_length hpiece
      exact statementWith_found (Path.child path i) span fun place inner hinner =>
        ih inner (by omega) place

/-- The handlers that were read stand at the paths at which their bodies were read. -/
theorem labelHandlers_handlerSection (found : HandlerSection) :
    labelHandlers path (handlerSection path found).value.1 =
      (labelHandlers path found.handlers).map (Handler.map fun entry =>
        (entry.1, (statements entry.1 entry.2.tokens).value)) := by
  simp only [handlerSection, handlerOutcomes, List.map_map]
  exact labelHandlers_map_labelHandlers path found.handlers fun entry =>
    (Outcome.after entry.2.before (statements entry.1 entry.2.tokens)).value

/-- The count of an exception section is what a walk over its handlers accounts for, together with
the texts that are no handlers. -/
theorem handlerSection_found (found : HandlerSection) :
    (handlerSection path found).found =
      census (walkHandlers path (handlerSection path found).value.1) +
        (handlerSection path found).value.2.length := by
  have hbodies : total (fun h => h.body.found) (handlerOutcomes path found) =
      census (walkHandlers path (handlerSection path found).value.1) := by
    rw [walkHandlers, labelHandlers_handlerSection, handlerOutcomes, total_map, census,
      List.flatMap_map, total_flatMap]
    exact total_congr fun h _ => statements_isAccounted h.body.1 h.body.2.tokens
  rw [← hbodies]
  rfl

theorem triggerOf_found (header : HeaderReading) (sections : Sections) :
    (triggerOf header sections).found = (triggerOf header sections).value.tally.total := by
  have hbody := statements_isAccounted "" sections.statements
  have hhandlers := handlerSection_found "" (blockHandlers "" sections.handlers)
  rw [Outcome.IsAccounted] at hbody
  rw [Trigger.tally_total, Trigger.walk, census_append]
  simp only [triggerOf] at hhandlers ⊢
  rw [hbody, hhandlers, walkHandlers]
  omega

/-- Whatever is read, the count of statements found is the number of statements in the tree with
the texts among its handlers that are none: for a statement list and for an exception section at any
place, whatever their tokens, and for every trigger that can be read. -/
theorem found_eq_census :
    (∀ path ts, (statements path ts).found =
      census (Statement.walkList path (statements path ts).value)) ∧
    (∀ path ts, (handlerSection path (readHandlers path ts)).found =
      census (walkHandlers path (handlerSection path (readHandlers path ts)).value.1) +
        (handlerSection path (readHandlers path ts)).value.2.length) ∧
    (∀ source, (trigger source).map Outcome.found =
      (trigger source).map fun outcome => outcome.value.tally.total) ∧
    ∀ t : Trigger, t.tally.total = census t.walk + t.unparsed.length := by
  refine ⟨statements_isAccounted, ?_, ?_, Trigger.tally_total⟩
  · intro path ts
    exact handlerSection_found path (readHandlers path ts)
  · intro source
    unfold trigger
    cases Token.ofSource source with
    | error fault => rfl
    | ok ts =>
      simp only [triggerOfTokens]
      cases Sections.split (readHeader ts).body with
      | error fault => rfl
      | ok sections => exact congrArg Except.ok (triggerOf_found (readHeader ts) sections)

end Grammar

end TriggerDialect
