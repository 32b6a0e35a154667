import TriggerDialect.Proofs.Writing.Machine

/-!
# The context of a statement

While a tree is written, levels of indentation are entered and left, and the exceptions of a block
are known from its start to its end. Each action of the generator is matched with an output that
goes by the scope alone. Main statement: in any state, a statement, a block or a list of handlers is
written without fail and leaves the level, the exceptions and the return row as they were. Of its
lines, those at that level are the lines around its contents, and the contents stand deeper
(`context_restored`).
-/

namespace TriggerDialect

open List

namespace Layout

/-- Whether a step changes the level. -/
def isShift : Layout → Bool
  | .indent => true
  | .dedent => true
  | _ => false

/-- The steps that write something, each with its level, from a level on. -/
def located : Nat → List Layout → List (Nat × Layout)
  | _, [] => []
  | level, step :: rest =>
    (if step.isShift then [] else [(level, step)]) ++ located (step.levelAfter level) rest

/-- The text of steps is that of the lines and comments at their levels. -/
theorem texts_located (width level : Nat) (steps : List Layout) :
    (texts width level steps).flatten =
      (located level steps).flatMap fun entry => entry.2.chars width entry.1 := by
  induction steps generalizing level with
  | nil => rfl
  | cons step rest ih => cases step <;> simp [texts, located, isShift, chars, ih]

/-- Steps that change no level are all written at one. -/
theorem located_flat {steps : List Layout} (h : ∀ step ∈ steps, step.isShift = false) (level : Nat)
    (more : List Layout) :
    located level (steps ++ more) = steps.map (level, ·) ++ located level more := by
  induction steps with
  | nil => rfl
  | cons step rest ih =>
    have hstep := h step mem_cons_self
    have hlevel : step.levelAfter level = level := by
      cases step <;> first | rfl | cases hstep
    rw [cons_append, located, hstep, hlevel, ih fun s hs => h s (mem_cons_of_mem _ hs)]
    rfl

end Layout

namespace Generate

open Layout

variable {lines : Scope → List Layout} {o : Scope → Output} {a : Action}

/-! ### Actions and outputs -/

/-- In every state the action succeeds, writes what the output says in the scope of the state, and
changes nothing else. All lines stand at the level of the state or deeper, and `lines` are those
that stand right there. -/
def Action.Writes (a : Action) (o : Scope → Output) (lines : Scope → List Layout) : Prop :=
  ∀ w : State, ∃ entries, a.run w = some ((), w.add entries (o w.toScope).findings) ∧
    (∀ more, located w.level ((o w.toScope).steps ++ more) = entries ++ located w.level more) ∧
    (∀ entry ∈ entries, w.level ≤ entry.1) ∧
    (entries.filter fun entry => entry.1 == w.level).map Prod.snd = lines w.toScope

/-- Outputs can be put together in any way. -/
theorem Output.append_assoc (x y z : Output) : x ++ y ++ z = x ++ (y ++ z) :=
  (Output.mk.injEq ..).mpr ⟨List.append_assoc .., List.append_assoc ..⟩

/-- An output that changes no level. -/
def Output.Flat (o : Output) : Prop := ∀ step ∈ o.steps, step.isShift = false

namespace Action.Writes

variable {a b : Action} {o p : Scope → Output} {lines more : Scope → List Layout}

/-- What changes no level can be written as it is. -/
theorem emit (h : ∀ scope, (o scope).Flat) : Writes (emit o) o fun scope => (o scope).steps :=
  fun w => ⟨(o w.toScope).steps.map (w.level, ·), rfl, located_flat (h w.toScope) w.level, by simp,
    by simp [filter_map, Function.comp_def]⟩

/-- Nothing is written where there is nothing to write. -/
theorem nothing : Writes (pure ()) (fun _ => .empty) fun _ => [] :=
  fun w => ⟨[], by simp [State.add], by simp [Output.empty], by simp, rfl⟩

/-- The second of two actions finds the level and the scope of the first. -/
theorem append (ha : Writes a o lines) (hb : Writes b p more) :
    Writes (do a; b) (fun scope => o scope ++ p scope) fun scope => lines scope ++ more scope := by
  intro w
  obtain ⟨entries, hrun, hplace, hle, hlines⟩ := ha w
  obtain ⟨entries', hrun', hplace', hle', hlines'⟩ := hb (w.add entries (o w.toScope).findings)
  refine ⟨entries ++ entries', ?_, fun rest => ?_, fun entry hentry => ?_, ?_⟩
  · rw [StateT.run_bind, hrun]
    refine hrun'.trans ?_
    simp [State.add]
  · have hsteps : (o w.toScope ++ p w.toScope).steps = (o w.toScope).steps ++ (p w.toScope).steps :=
      rfl
    rw [hsteps, append_assoc, hplace, append_assoc]
    exact congrArg (entries ++ ·) (hplace' rest)
  · exact (mem_append.1 hentry).elim (hle entry) (hle' entry)
  · rw [filter_append, map_append, hlines]
    exact congrArg (lines w.toScope ++ ·) hlines'

/-- What stands one level deeper does not stand at the level of the start. -/
theorem nested (h : Writes a o lines) :
    Writes (nested a) (fun scope => (o scope).nested) fun _ => [] := by
  intro w
  obtain ⟨entries, hrun, hplace, hle, -⟩ := h { w with level := w.level + 1 }
  refine ⟨entries, ?_, fun rest => ?_, fun entry hentry => Nat.le_of_succ_le (hle entry hentry), ?_⟩
  · have hpush : push.run w = some ((), { w with level := w.level + 1 }) := rfl
    rw [Action.nested, StateT.run_bind, hpush]
    change (StateT.run (do a; pop) _) = _
    rw [StateT.run_bind, hrun]
    rfl
  · have hsteps : (o w.toScope).nested.steps ++ rest =
        .indent :: ((o w.toScope).steps ++ .dedent :: rest) := by
      simp [Output.nested, Layout.nested]
    rw [hsteps]
    exact hplace (.dedent :: rest)
  · rw [filter_eq_nil_iff.2, map_nil]
    intro entry hentry
    have hdeeper : w.level + 1 ≤ entry.1 := hle entry hentry
    simp only [beq_iff_eq]
    omega

/-- A heading with its contents one level deeper. -/
theorem andNested (ha : Writes a o lines) (hb : ∃ more, Writes b p more) :
    Writes (do a; Action.nested b) (fun scope => o scope ++ (p scope).nested) lines := by
  obtain ⟨more, hb⟩ := hb
  simpa using ha.append hb.nested

/-- What is written while exceptions are known leaves those known before. -/
theorem declaring (h : Writes a o lines) (d : Declarations) :
    Writes (declaring d a) (fun scope => o (scope.declaring d))
      fun scope => lines (scope.declaring d) := by
  intro w
  obtain ⟨entries, hrun, hwritten⟩ := h { w with toScope := w.toScope.declaring d }
  refine ⟨entries, ?_, hwritten⟩
  have hsaved : (Action.declaring d a).run w =
      (a.run { w with toScope := w.toScope.declaring d }).bind fun result =>
        some ((), { result.2 with exceptions := w.exceptions }) := rfl
  rw [hsaved, hrun]
  rfl

/-- The passes of a loop, one after the other. -/
theorem each {α β : Type} {a : β → Action} {g : α → β} {o : Scope → α → Output}
    {lines : Scope → α → List Layout} {xs : List α}
    (h : ∀ x ∈ xs, Writes (a (g x)) (o · x) (lines · x)) :
    Writes ((xs.map g).forM a) (fun scope => .concat (xs.map (o scope)))
      fun scope => xs.flatMap (lines scope) := by
  induction xs with
  | nil => exact nothing
  | cons x xs ih =>
    change Writes (do a (g x); (xs.map g).forM a) _ _
    exact (h x mem_cons_self).append (ih fun y hy => h y (mem_cons_of_mem x hy))

end Action.Writes

open Generate.Action (Writes)

variable (path : String) (outermost : Bool)

/-! ### Lines of a level -/

section Lines

variable (scope : Scope)

theorem flat_draft (d : Draft) : d.line.Flat := by simp [Output.Flat, Draft.line, isShift]

theorem flat_line (text : String) : (Output.line text).Flat := flat_draft (.ofText text)

/-- A statement without inner statements stands at one level. -/
theorem flat_simple (s : Simple) : (simple scope path s).Flat := by
  cases s with
  | label | null => exact flat_line _
  | returnValue value =>
    simp only [simple]
    unfold returnLine
    split
    · exact flat_line _
    · exact flat_line _
    · exact flat_draft _
  | call name arguments offset =>
    simp only [simple, callLine]
    split
    · exact flat_line _
    · split <;> exact flat_line _
  | raise name offset =>
    simp only [simple, raiseLine]
    split
    · exact flat_line _
    · split
      · exact flat_line _
      · split <;> exact flat_line _
  | raw text =>
    simp only [simple, rawLines, Output.ofSteps, Output.Flat]
    split <;> simp [isShift]
  | _ => exact flat_draft _

theorem flat_caseLine (selector : Option Fragment) : (caseLine scope path selector).Flat := by
  cases selector with
  | none => exact flat_line _
  | some selector => exact flat_draft _

theorem flat_declaration (d : Declaration) : (declaration scope d).Flat := by
  cases d with
  | ofException | ofRaw => simp [declaration, Output.ofSteps, Output.Flat, isShift]
  | _ => exact flat_draft _

theorem flat_unparsed (unparsed : List Fragment) : (unparsedComments unparsed).Flat := by
  simp [unparsedComments, Output.ofSteps, Output.Flat, isShift]

theorem flat_closing (statements : List Statement) :
    (Output.ofSteps (closingOf scope outermost statements)).Flat := by
  unfold closingOf trailingReturn
  repeat' split
  all_goals simp [Output.ofSteps, Output.Flat, isShift]

end Lines

/-- A line is written at the level of the state. -/
theorem writes_line (text : String) :
    Writes (Action.line text) (fun _ => .line text) fun _ => [.line text] :=
  .emit fun _ => flat_line text

/-- What follows the last statement of a body is written at the level of the state. -/
theorem writes_closing (statements : List Statement) :
    Writes (Action.closing outermost statements)
      (fun scope => .ofSteps (closingOf scope outermost statements))
      fun scope => closingOf scope outermost statements :=
  .emit fun scope => flat_closing outermost scope statements

/-! ### Statements around inner lists -/

section Frames

variable (scope : Scope)

/-- The opening line of an arm. -/
def armLines {β : Type} (word : String) (a : Arm β) : List Layout :=
  (recastLine scope path (word ++ " ") a.condition " THEN").steps

/-- The line of the last branch, if there is one. -/
def elseLines {β : Type} (otherwise : Option β) : List Layout :=
  otherwise.toList.map fun _ => .line "ELSE"

/-- The line before the declarations of a block, if there are any. -/
def declareLines (d : Declarations) (statements : List Statement) : List Layout :=
  if d.toList.isEmpty && (recordNames d statements).isEmpty then [] else [.line "DECLARE"]

/-- The line before the handlers of a block, if there are any. -/
def exceptionLines {β : Type} (handlers : List (Handler β)) : List Layout :=
  if handlers.isEmpty then [] else [.line "EXCEPTION"]

/-- The lines around the sections of a block. -/
def blockLines (b : Block (String × List Statement)) : List Layout :=
  declareLines (b.declarations.getD .empty) (b.body.2 ++ b.handlers.flatMap fun h => h.body.2) ++
    (.line "BEGIN" :: exceptionLines b.handlers) ++ [.line "END;"]

/-- The lines of a statement around its inner lists. -/
def formLines : Form (String × List Statement) → List Layout
  | .simple s => (simple scope path s).steps
  | .conditional first others otherwise =>
    armLines path scope "IF" first ++ (others.flatMap (armLines path scope "ELSIF") ++
      (elseLines otherwise ++ [.line "END IF;"]))
  | .selection selector _ _ => (caseLine scope path selector).steps ++ [.line "END CASE;"]
  | .queryLoop name query _ =>
    (recastLine scope path s!"FOR {name} IN " query " LOOP").steps ++ [.line "END LOOP;"]
  | .rangeLoop name reverse lower upper _ =>
    (.ofText s!"FOR {name} IN " ++ range scope path reverse lower upper ++
      .ofText " LOOP" : Draft).line.steps ++ [.line "END LOOP;"]
  | .whileLoop condition _ =>
    (recastLine scope path "WHILE " condition " LOOP").steps ++ [.line "END LOOP;"]
  | .endlessLoop _ => [.line "LOOP", .line "END LOOP;"]
  | .block b => blockLines b

end Frames

/-- The output of a list of statements at its path. -/
def listed (list : String × List Statement) : Inner := body list.1 list.2

/-- The action of a list writes its output. -/
def Runs (list : String × List Statement) : Prop :=
  ∃ lines, Writes (Action.listed list).action (listed list).output lines

variable {list : String × List Statement}

/-- A line with a list one level deeper. -/
theorem writes_arm (word : String) {a : Arm (String × List Statement)} (h : Runs a.body) :
    Writes (Action.arm path word (a.map Action.listed))
      (fun scope => arm scope path word (a.map listed)) fun scope => armLines path scope word a :=
  (Writes.emit fun _ => flat_draft _).andNested h

theorem writes_arms (word : String) {arms : List (Arm (String × List Statement))}
    (h : ∀ a ∈ arms, Runs a.body) :
    Writes ((arms.map (Arm.map Action.listed)).forM (Action.arm path word))
      (fun scope => .concat ((arms.map (Arm.map listed)).map (arm scope path word)))
      fun scope => arms.flatMap (armLines path scope word) := by
  simp only [map_map]
  exact .each fun a ha => writes_arm path word (h a ha)

theorem writes_else {otherwise : Option (String × List Statement)}
    (h : ∀ list ∈ otherwise, Runs list) :
    Writes (Action.elseBranch (otherwise.map Action.listed))
      (fun scope => elseBranch scope (otherwise.map listed)) fun _ => elseLines otherwise := by
  cases otherwise with
  | none => exact .nothing
  | some list => exact (writes_line "ELSE").andNested (h list rfl)

theorem writes_loop (ha : Writes a o lines) (h : Runs list) :
    Writes (do a; Action.loopBody (Action.listed list))
      (fun scope => o scope ++ loopBody scope (listed list))
      fun scope => lines scope ++ [.line "END LOOP;"] := by
  obtain ⟨_, h⟩ := h
  exact ha.append (h.nested.append (writes_line "END LOOP;"))

/-! ### Blocks -/

/-- The output of the lists of a block. -/
def listedBlock (b : Block (String × List Statement)) : Block Inner :=
  ⟨b.declarations, listed b.body, b.handlers.map (Handler.map listed), b.unparsed⟩

/-- The actions of the lists of a block. -/
def taskBlock (b : Block (String × List Statement)) : Block Task :=
  ⟨b.declarations, Action.listed b.body, b.handlers.map (Handler.map Action.listed), b.unparsed⟩

theorem statements_task (list : String × List Statement) :
    (Action.listed list).statements = list.2 := by
  simp [Action.listed, Action.task, Function.comp_def]

theorem writes_handler {h : Handler (String × List Statement)} (hbody : Runs h.body) :
    Writes (Action.handler outermost (h.map Action.listed))
      (fun scope => handler scope (closingOf scope outermost) (h.map listed))
      fun scope => (handlerLine scope (h.map listed)).steps := by
  obtain ⟨_, hbody⟩ := hbody
  have hlist : (h.map Action.listed).map (fun task => body task.path task.statements) =
      h.map listed := by
    simp only [Handler.map, statements_task]
    rfl
  simp only [Action.handler, hlist, handler]
  have hclosing := writes_closing outermost h.body.2
  have hline : ∀ scope, (handlerLine scope (h.map listed)).Flat := fun scope => flat_line _
  simp only [Handler.map, statements_task, listed, statements_body] at hline ⊢
  exact (Writes.emit hline).andNested ⟨_, hbody.append hclosing⟩

theorem writes_handlers {handlers : List (Handler (String × List Statement))}
    (h : ∀ h ∈ handlers, Runs h.body) (unparsed : List Fragment) :
    Writes (Action.handlers outermost (handlers.map (Handler.map Action.listed)) unparsed)
      (fun scope => exceptionSection scope (closingOf scope outermost)
        (handlers.map (Handler.map listed)) unparsed)
      fun _ => exceptionLines handlers := by
  simp only [Action.handlers, exceptionSection, exceptionLines, isEmpty_map]
  split
  · exact .nothing
  · have hordered : ∀ {γ : Type} (g : String × List Statement → γ),
        ordered (handlers.map (Handler.map g)) = (ordered handlers).map (Handler.map g) :=
      fun g => ordered_map (Handler.map g) (fun _ => rfl) handlers
    simp only [hordered, map_map]
    have hhandlers : ∀ handler ∈ ordered handlers, Writes _ _ _ := fun handler hhandler =>
      writes_handler outermost (h handler (mem_ordered.1 hhandler))
    exact (writes_line "EXCEPTION").andNested
      ⟨_, (Writes.emit fun _ => flat_unparsed unparsed).append (.each hhandlers)⟩

theorem writes_declareSection (d : Declarations) (statements : List Statement) :
    Writes (Action.declareSection d statements) (fun scope => declareSection scope d statements)
      fun _ => declareLines d statements := by
  simp only [Action.declareSection, declareSection, declareLines]
  split
  · exact .nothing
  · have hitems :
        Writes ((d.toList.map id).forM fun item => Action.emit (declaration · item)) _ _ :=
      .each fun item _ => .emit fun scope => flat_declaration scope item
    rw [map_id] at hitems
    refine (writes_line "DECLARE").andNested ⟨_, hitems.append (.emit fun _ => ?_)⟩
    simp [Output.Flat, Output.ofSteps, isShift]

/-- A block writes its sections while its exceptions are known, and then its last line. -/
theorem writes_block {b : Block (String × List Statement)}
    (h : ∀ list ∈ (Form.block b).bodies, Runs list) :
    Writes (Action.block outermost (taskBlock b))
      (fun scope => block scope (closingOf scope outermost) (listedBlock b))
      fun _ => blockLines b := by
  obtain ⟨_, hbody⟩ := h b.body mem_cons_self
  have hhandlers := writes_handlers outermost (fun handler hhandler =>
    h _ (mem_cons_of_mem _ (mem_map_of_mem hhandler))) b.unparsed
  have hrest : ∀ _ : Scope,
      (if b.handlers.isEmpty then unparsedComments b.unparsed else .empty : Output).Flat := by
    intro _
    split
    · exact flat_unparsed b.unparsed
    · simp [Output.Flat, Output.empty]
  have hlists : ∀ {γ : Type} (f : γ → List Statement) (g : String × List Statement → γ),
      (∀ list, f (g list) = list.2) →
      (b.handlers.map (Handler.map g)).flatMap (fun h => f h.body) =
        b.handlers.flatMap fun h => h.body.2 := by
    intro γ f g hg
    simp only [flatMap_map, Handler.map, hg]
  have hcontents := hbody.append ((writes_closing outermost b.body.2).append (.emit hrest))
  have hsections := (writes_declareSection (b.declarations.getD .empty)
    (b.body.2 ++ b.handlers.flatMap fun h => h.body.2)).append ((writes_line "BEGIN").append
      (hcontents.nested.append hhandlers))
  have hblock := (hsections.declaring (b.declarations.getD .empty)).append (writes_line "END;")
  simp only [Action.block, taskBlock, block, listedBlock, statements_task, isEmpty_map,
    hlists Task.statements Action.listed statements_task]
  simp only [listed, statements_body, hlists Inner.statements listed fun _ => statements_body ..,
    Output.append_assoc]
  simp only [Output.append_assoc] at hblock
  exact hblock

/-! ### All statements -/

/-- A statement is written around its inner lists, if these are written. -/
theorem writes_form {f : Form (String × List Statement)} (h : ∀ list ∈ f.bodies, Runs list) :
    Writes (Action.form path (f.map Action.listed)) (fun scope => form scope path (f.map listed))
      fun scope => formLines path scope f := by
  cases f with
  | simple s => exact .emit fun scope => flat_simple path scope s
  | conditional first others otherwise =>
    simp only [Form.bodies, cons_append, mem_cons, mem_append, mem_map, Option.mem_toList] at h
    have hfirst := writes_arm path "IF" (h _ (.inl rfl))
    have hothers := writes_arms path "ELSIF" fun a ha => h _ (.inr (.inl ⟨a, ha, rfl⟩))
    have hotherwise := writes_else fun list hlist => h list (.inr (.inr hlist))
    simp only [form, Form.map, Output.append_assoc]
    exact hfirst.append (hothers.append (hotherwise.append (writes_line "END IF;")))
  | selection selector arms otherwise =>
    simp only [Form.bodies, mem_append, mem_map, Option.mem_toList] at h
    have harms := writes_arms path "WHEN" fun a ha => h _ (.inl ⟨a, ha, rfl⟩)
    have hotherwise := writes_else fun list hlist => h list (.inr hlist)
    simp only [form, Form.map, Output.append_assoc]
    exact (Writes.emit fun scope => flat_caseLine path scope selector).append
      ((harms.append hotherwise).nested.append (writes_line "END CASE;"))
  | queryLoop _ _ body | rangeLoop _ _ _ _ body | whileLoop _ body =>
    exact writes_loop (.emit fun _ => flat_draft _) (h body (mem_singleton_self _))
  | endlessLoop body => exact writes_loop (writes_line "LOOP") (h body (mem_singleton_self _))
  | block b => exact writes_block false h

/-- The lines of a statement around its inner lists. -/
def statementLines (scope : Scope) (s : Statement) : List Layout :=
  formLines path scope (s.form.label path)

theorem action_node (f : Form (List Statement)) :
    Action.statement (.node f) path = Action.form path ((f.label path).map Action.listed) := by
  rw [Action.statement, Statement.foldWith_node, Form.label_map, Form.map_map]
  rfl

/-- The statements of a list are written one after the other. -/
theorem runs_of_statements {statements : List Statement}
    (h : ∀ s ∈ statements, ∀ path, Writes (Action.statement s path)
      (fun scope => statement s scope path) fun scope => statementLines path scope s) :
    Runs (path, statements) := by
  have haction : (Action.listed (path, statements)).action =
      (statements.zipIdx.map fun entry =>
        Action.statement entry.1 (Path.child path entry.2)).forM id := by
    simp [Action.listed, Action.task, mapIdx_eq_zipIdx_map, zipIdx_map, Function.comp_def]
  have houtput : (listed (path, statements)).output = fun scope =>
      .concat (statements.zipIdx.map fun entry =>
        statement entry.1 scope (Path.child path entry.2)) :=
    funext fun scope => output_body scope path statements
  rw [Runs, haction, houtput]
  exact ⟨_, .each fun entry hentry => h entry.1 (fst_mem_of_mem_zipIdx hentry) _⟩

theorem writes_statement (s : Statement) :
    Writes (Action.statement s path) (fun scope => statement s scope path)
      fun scope => statementLines path scope s := by
  induction s using Statement.induction generalizing path with
  | node f ih =>
    simp only [statement_node, action_node]
    refine writes_form path fun list hlist => runs_of_statements list.1 fun s hs path => ?_
    exact ih list.2 (Form.snd_mem_bodies hlist) s hs path

theorem runs (list : String × List Statement) : Runs list :=
  runs_of_statements list.1 fun s _ path => writes_statement path s

/-! ### The state after an action -/

/-- An action succeeds in a state and leaves the level, the exceptions and the return row as they
were. It adds the text and the findings of an output to the state. All its lines stand at the level
of the state or deeper, and `lines` are those that stand right there. -/
def Action.Restores (a : Action) (w : State) (o : Output) (lines : List Layout) : Prop :=
  ∃ w' entries, a.run w = some ((), w') ∧ w'.level = w.level ∧ w'.exceptions = w.exceptions ∧
    w'.returnRow = w.returnRow ∧ w'.findings = w.findings ++ o.findings ∧
    w'.written = w.written ++ entries ∧
    (∀ width, (texts width w.level o.steps).flatten =
      entries.flatMap fun entry => entry.2.chars width entry.1) ∧
    (∀ entry ∈ entries, w.level ≤ entry.1) ∧
    (entries.filter fun entry => entry.1 == w.level).map Prod.snd = lines

theorem Action.Writes.restores (h : Writes a o lines) (w : State) :
    a.Restores w (o w.toScope) (lines w.toScope) := by
  obtain ⟨entries, hrun, hplace, hle, hlines⟩ := h w
  refine ⟨_, entries, hrun, rfl, rfl, rfl, rfl, rfl, fun width => ?_, hle, hlines⟩
  have hlocated : located w.level (o w.toScope).steps = entries := by
    simpa [located] using hplace []
  rw [texts_located, hlocated]

/-- What an action writes from level zero on is the text of its output. -/
theorem Action.Writes.text (h : Writes a o lines) {w : State} (hlevel : w.level = 0)
    (hwritten : w.written = []) :
    ∃ w', a.run w = some ((), w') ∧ w'.toScope = w.toScope ∧
      w'.findings = w.findings ++ (o w.toScope).findings ∧
      ∀ width, w'.text width = Layout.write width (o w.toScope).steps := by
  obtain ⟨entries, hrun, hplace, -⟩ := h w
  refine ⟨_, hrun, rfl, rfl, fun width => ?_⟩
  have hlocated : located 0 (o w.toScope).steps = entries := by
    simpa [located, hlevel] using hplace []
  rw [Layout.write, texts_located, hlocated, State.text, State.add, hwritten, nil_append]

/-- The block of a trigger, with the path of each list. -/
def labelledBlock (t : Trigger) : Block (String × List Statement) :=
  ⟨some t.declarations, ("", t.body), labelHandlers "" t.handlers, t.unparsed⟩

/-- The block of a trigger writes the output of the block. -/
theorem writes_triggerBlock (t : Trigger) :
    Writes (Action.triggerBlock t) (triggerBlock · t) fun _ => blockLines (labelledBlock t) :=
  writes_block true (b := labelledBlock t) fun list _ => runs list

/-- The lines of a function and of its `CREATE TRIGGER` stand at one level. -/
theorem writes_functionText (text : String) (header : Option Header) :
    Writes (Action.functionText text header)
      (fun scope => .ofSteps (functionLines (functionName header).text text) ++
        triggerLines scope.context header)
      fun scope => functionLines (functionName header).text text ++
        (triggerLines scope.context header).steps := by
  refine (Writes.emit fun _ => ?_).append (.emit fun scope => ?_)
  · simp [functionLines, Output.ofSteps, Output.Flat, isShift]
  · cases header with
    | none => simp [triggerLines, Output.Flat, Output.empty]
    | some h => simp [triggerLines, Output.Flat, isShift]

/-- The generator gives the text and the reports of the trigger. -/
theorem generated_eq (mapping : Mapping) (options : Options) (t : Trigger) :
    Action.generated mapping options t = some (trigger mapping options t) := by
  let start := State.start mapping options t
  cases hwrap : options.wrap with
  | block =>
    have hscope : start.toScope = scopeOf mapping options t := by
      simp only [start, State.start, scopeOf, hwrap]
    obtain ⟨w', hrun, -, hfindings, htext⟩ := (writes_triggerBlock t).text (w := start) rfl rfl
    rw [hscope] at hfindings htext
    simp only [Action.generated, Action.trigger, hwrap, start, hrun, trigger, output,
      Option.map_some, hfindings, htext]
    rfl
  | function =>
    let w : State := { start with
      returnRow := some (returnRow t.header)
      findings := (functionName t.header).findings }
    have hscope : w.toScope = scopeOf mapping options t := by
      simp only [w, start, State.start, scopeOf, hwrap]
    obtain ⟨apart, hrun, happart, hfound, htext⟩ := (writes_triggerBlock t).text (w := w) rfl rfl
    obtain ⟨last, hlast, -, hfindings, hwritten⟩ :=
      (writes_functionText (apart.text options.indent) t.header).text
        (w := { apart with level := 0, written := [] }) rfl rfl
    have hfunction : (Action.triggerFunction options.indent t).run start =
        ((Action.triggerBlock t).run w).bind fun result =>
          (Action.functionText (result.2.text options.indent) t.header).run
            { result.2 with level := 0, written := [] } := rfl
    rw [happart, hscope] at hfindings hwritten
    rw [hscope] at hfound htext
    simp only [Action.generated, Action.trigger, hwrap, trigger, output]
    rw [hfunction, hrun, Option.bind_some, hlast, Option.map_some]
    simp only [hfindings, hwritten, hfound, htext]
    rfl

/-- A statement, a block or a list of handlers succeeds in every state of the generator and leaves
the level, the exceptions and the return row as they were, so no level is ever left at zero. The
lines around contents stand at that level, and the contents stand deeper. What is written is the
output of the tree, and from the start on it is the text of the trigger. -/
theorem context_restored :
    (∀ (w : State) (path : String) (s : Statement),
      (Action.statement s path).Restores w (statement s w.toScope path)
        (statementLines path w.toScope s)) ∧
    (∀ (w : State) (outermost : Bool) (b : Block (String × List Statement)),
      (Action.block outermost (taskBlock b)).Restores w
        (block w.toScope (closingOf w.toScope outermost) (listedBlock b)) (blockLines b)) ∧
    (∀ (w : State) (outermost : Bool) (handlers : List (Handler (String × List Statement)))
      (unparsed : List Fragment),
      (Action.handlers outermost (handlers.map (Handler.map Action.listed)) unparsed).Restores w
        (exceptionSection w.toScope (closingOf w.toScope outermost)
          (handlers.map (Handler.map listed)) unparsed) (exceptionLines handlers)) ∧
    ∀ (mapping : Mapping) (options : Options) (t : Trigger),
      Action.generated mapping options t = some (trigger mapping options t) :=
  ⟨fun w path s => (writes_statement path s).restores w,
    fun w outermost _ => (writes_block outermost fun list _ => runs list).restores w,
    fun w outermost _ unparsed =>
      (writes_handlers outermost (fun h _ => runs h.body) unparsed).restores w,
    generated_eq⟩

end Generate

end TriggerDialect
