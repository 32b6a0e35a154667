import TriggerDialect.Proofs.Paths.Walk
import TriggerDialect.Proofs.Writing.Records

/-!
# Exceptions and the blocks around them

While a tree is written, the exceptions of a block are added to the scope of its body and its
handlers. Here the blocks around a statement are read off the tree instead: they are those whose
walk meets the path of the statement (`Trigger.enclosing`). A second writer takes each exception
name by what these blocks declare and keeps no scope. `exceptions_scoped` says that both writers
give the same output.
-/

namespace TriggerDialect

open List

/-! ### Statements directly inside -/

namespace Statement

/-- The statements of a list that stands at `path`, with their paths. -/
def numbered (path : String) (body : List Statement) : List (String × Statement) :=
  body.zipIdx.map fun entry => (Path.child path entry.2, entry.1)

/-- The statements directly inside a statement at `path`, with their paths. -/
def children (s : Statement) (path : String) : List (String × Statement) :=
  (s.form.label path).bodies.flatMap fun entry => numbered entry.1 entry.2

/-- All statements inside a statement at `path`, with their paths. -/
def inside (s : Statement) (path : String) : List (String × Statement) :=
  (s.children path).flatMap fun child => child.2.walk child.1

theorem walkList_numbered (path : String) (body : List Statement) :
    walkList path body = (numbered path body).flatMap fun child => child.2.walk child.1 := by
  rw [walkList_eq, numbered, flatMap_map]

theorem walk_eq (s : Statement) (path : String) : s.walk path = (path, s) :: s.inside path := by
  obtain ⟨form⟩ := s
  rw [walk_node, inside, children, flatMap_assoc]
  simp only [walkList_numbered, Statement.form]

theorem mem_of_mem_numbered {path : String} {body : List Statement} {child : String × Statement}
    (h : child ∈ numbered path body) : child.2 ∈ body := by
  obtain ⟨entry, hentry, rfl⟩ := mem_map.1 h
  exact fst_mem_of_mem_zipIdx hentry

/-- What holds for a statement at its path whenever it holds for those directly inside holds
everywhere. -/
theorem placedInduction {P : Statement → String → Prop}
    (step : ∀ s path, (∀ child ∈ s.children path, P child.2 child.1) → P s path)
    (s : Statement) (path : String) : P s path := by
  induction s using Statement.induction generalizing path with
  | node form ih =>
    refine step _ path fun child hchild => ?_
    obtain ⟨entry, hentry, hchild⟩ := mem_flatMap.1 hchild
    exact ih entry.2 (Form.snd_mem_bodies hentry) child.2 (mem_of_mem_numbered hchild) child.1

end Statement

/-! ### Blocks around a statement -/

namespace Trigger

/-- The declarations of the blocks around the statement at `path`: the block of the trigger, and
each block inside it that has the statement in its body or its handlers. -/
def enclosing (t : Trigger) (path : String) : List Declarations :=
  t.declarations ::
    (t.walk.filter fun outer => path ∈ pathsOf (outer.2.inside outer.1)).flatMap fun outer =>
      outer.2.form.declarations?.toList

theorem mem_enclosing {t : Trigger} {path : String} {d : Declarations} :
    d ∈ t.enclosing path ↔ d = t.declarations ∨ ∃ outer ∈ t.walk,
      path ∈ pathsOf (outer.2.inside outer.1) ∧ d ∈ outer.2.form.declarations? := by
  simp [enclosing, and_assoc]

end Trigger

namespace Statement

variable {place : String × List Declarations} {child : String × Statement}

/-- The paths of a statement and of all inside it, each with the declarations around it, when those
of `around` are around the statement itself. -/
def places : Statement → List Declarations → String → List (String × List Declarations) :=
  fold fun form around path =>
    (path, around) :: (form.label path).bodies.flatMap fun entry =>
      (entry.2.mapIdx fun i inner =>
        inner (form.declarations?.toList ++ around) (Path.child entry.1 i)).flatten

theorem places_eq (s : Statement) (around : List Declarations) (path : String) :
    s.places around path =
      (path, around) :: (s.children path).flatMap fun child =>
        child.2.places (s.form.declarations?.toList ++ around) child.1 := by
  obtain ⟨form⟩ := s
  have hdeclared : ∀ {β : Type} (f : List Statement → β),
      (form.map f).declarations? = form.declarations? := by
    intro β f
    cases form <;> rfl
  rw [places, fold_node, ← places, children, flatMap_assoc, Form.label_map, Form.bodies_map,
    flatMap_map, hdeclared]
  simp [numbered, mapIdx_eq_zipIdx_map, zipIdx_map, flatMap_def, Function.comp_def, Statement.form]

variable {s : Statement} {around : List Declarations} {path name : String} {d : Declarations}

/-- The places are those of the walk. -/
theorem map_fst_places (s : Statement) (around : List Declarations) (path : String) :
    (s.places around path).map Prod.fst = pathsOf (s.walk path) := by
  induction s, path using placedInduction generalizing around with
  | step s path ih =>
    rw [places_eq, walk_eq, inside, map_cons, map_flatMap]
    simp only [pathsOf, map_cons, map_flatMap, cons.injEq, true_and]
    exact flatMap_congr fun child hchild => ih child hchild _

theorem mem_pathsOf_walk (h : place ∈ s.places around path) : place.1 ∈ pathsOf (s.walk path) := by
  rw [← map_fst_places s around path]
  exact mem_map_of_mem h

/-- What is declared around a statement is declared around all inside it. -/
theorem subset_of_mem_places (h : place ∈ s.places around path) : around ⊆ place.2 := by
  induction s, path using placedInduction generalizing around with
  | step s path ih =>
    rw [places_eq, mem_cons] at h
    rcases h with rfl | h
    · exact List.Subset.refl around
    · obtain ⟨child, hchild, h⟩ := mem_flatMap.1 h
      exact List.Subset.trans (subset_append_right _ around) (ih child hchild h)

theorem inside_of_mem_child (hchild : child ∈ s.children path)
    (h : name ∈ pathsOf (child.2.walk child.1)) : name ∈ pathsOf (s.inside path) := by
  rw [inside, pathsOf_flatMap]
  exact mem_flatMap.2 ⟨child, hchild, h⟩

theorem mem_walk_of_mem_child {visited : String × Statement} (hchild : child ∈ s.children path)
    (h : visited ∈ child.2.walk child.1) : visited ∈ s.walk path := by
  rw [walk_eq]
  exact mem_cons_of_mem _ (mem_flatMap.2 ⟨child, hchild, h⟩)

/-- What is declared around a place comes from a block whose walk meets the place. -/
theorem declared_of_mem_places (h : place ∈ s.places around path) (hd : d ∈ place.2) :
    d ∈ around ∨ ∃ outer ∈ s.walk path, place.1 ∈ pathsOf (outer.2.inside outer.1) ∧
      d ∈ outer.2.form.declarations? := by
  induction s, path using placedInduction generalizing around with
  | step s path ih =>
    rw [places_eq, mem_cons] at h
    rcases h with rfl | h
    · exact .inl hd
    obtain ⟨child, hchild, h⟩ := mem_flatMap.1 h
    rcases ih child hchild h with hmem | ⟨outer, houter, hplace, hdeclared⟩
    · rcases mem_append.1 hmem with hdeclared | hmem
      · have hself : (path, s) ∈ s.walk path := by
          rw [walk_eq]
          exact mem_cons_self
        exact .inr ⟨(path, s), hself, inside_of_mem_child hchild (mem_pathsOf_walk h),
          Option.mem_toList.1 hdeclared⟩
      · exact .inl hmem
    · exact .inr ⟨outer, mem_walk_of_mem_child hchild houter, hplace, hdeclared⟩

/-- What a block declares is declared around each place that its walk meets. -/
theorem exists_place_of_declared {outer : String × Statement} (houter : outer ∈ s.walk path)
    (hname : name ∈ pathsOf (outer.2.inside outer.1)) (hd : d ∈ outer.2.form.declarations?)
    (around : List Declarations) :
    ∃ place ∈ s.places around path, place.1 = name ∧ d ∈ place.2 := by
  induction s, path using placedInduction generalizing around with
  | step s path ih =>
    rw [walk_eq, mem_cons] at houter
    rw [places_eq]
    simp only [mem_cons, mem_flatMap]
    rcases houter with rfl | houter
    · rw [inside, pathsOf_flatMap] at hname
      obtain ⟨child, hchild, hname⟩ := mem_flatMap.1 hname
      rw [← map_fst_places child.2 (s.form.declarations?.toList ++ around)] at hname
      obtain ⟨place, hplace, rfl⟩ := mem_map.1 hname
      refine ⟨place, .inr ⟨child, hchild, hplace⟩, rfl, ?_⟩
      exact subset_of_mem_places hplace (mem_append_left _ (Option.mem_toList.2 hd))
    · obtain ⟨child, hchild, houter⟩ := mem_flatMap.1 houter
      obtain ⟨place, hplace, heq⟩ := ih child hchild houter _
      exact ⟨place, .inr ⟨child, hchild, hplace⟩, heq⟩

end Statement

namespace Trigger

variable {t : Trigger}

/-- The statements directly in the body and the handlers of a trigger, with their paths. -/
def children (t : Trigger) : List (String × Statement) :=
  t.lists.flatMap fun list => Statement.numbered list.1 list.2

theorem walk_eq (t : Trigger) : t.walk = t.children.flatMap fun child => child.2.walk child.1 := by
  rw [children, flatMap_assoc, walk, lists, flatMap_cons, flatMap_map]
  simp only [Statement.walkList_numbered]

/-- The paths of all statements, each with the declarations around it. -/
def places (t : Trigger) : List (String × List Declarations) :=
  t.children.flatMap fun child => child.2.places [t.declarations] child.1

theorem nodup_places (t : Trigger) : (t.places.map Prod.fst).Nodup := by
  have hpaths : t.places.map Prod.fst = pathsOf t.walk := by
    rw [places, walk_eq, pathsOf_flatMap, map_flatMap]
    simp only [Statement.map_fst_places]
  rw [hpaths]
  exact t.nodup_paths

/-- The declarations around a place are those of the blocks that enclose it. -/
theorem mem_enclosing_iff {place : String × List Declarations} (h : place ∈ t.places)
    (d : Declarations) : d ∈ place.2 ↔ d ∈ t.enclosing place.1 := by
  rw [mem_enclosing]
  obtain ⟨child, hchild, hplace⟩ := mem_flatMap.1 h
  constructor
  · intro hd
    rcases Statement.declared_of_mem_places hplace hd with hd | ⟨outer, houter, hinside⟩
    · exact .inl (mem_singleton.1 hd)
    · refine .inr ⟨outer, ?_, hinside⟩
      rw [walk_eq]
      exact mem_flatMap.2 ⟨child, hchild, houter⟩
  · rintro (rfl | ⟨outer, houter, hname, hd⟩)
    · exact Statement.subset_of_mem_places hplace mem_cons_self
    · rw [walk_eq] at houter
      obtain ⟨other, hother, houter⟩ := mem_flatMap.1 houter
      obtain ⟨place', hplace', heq, hd⟩ :=
        Statement.exists_place_of_declared houter hname hd [t.declarations]
      -- No two places have the same path.
      have hmem : place' ∈ t.places := mem_flatMap.2 ⟨other, hother, hplace'⟩
      rwa [inj_on_of_nodup_map t.nodup_places hmem h heq] at hd

end Trigger

namespace Generate

variable {enclosing : String → List Declarations}

/-! ### Exception names -/

/-- What the name of an exception stands for. -/
inductive Meaning where
  /-- An exception of the user. -/
  | declared
  /-- An exception of the table. -/
  | mapped (condition : String)
  | unknown
deriving Repr, DecidableEq

/-- What a name stands for inside blocks with these declarations. The table comes after them. -/
def meaning (mapping : Mapping) (around : List Declarations) (name : String) : Meaning :=
  if ∃ d ∈ around, d.declaresException name then .declared
  else ((mapping.exception? name).map .mapped).getD .unknown

/-- `RAISE` with a name of this meaning. -/
def Meaning.raised (path name : String) (offset : Nat) : Meaning → Output
  | .declared => ⟨[raiseUser name], []⟩
  | .mapped condition => ⟨[.line s!"RAISE {condition};"], []⟩
  | .unknown => ⟨[raiseUser name], [⟨.unmappedRaise name, offset, some path⟩]⟩

/-- The condition of a handler for a name of this meaning. -/
def Meaning.caught (path name : String) (offset : Nat) : Meaning → Draft
  | .declared => ⟨"raise_exception", [⟨.userHandler name, offset, some path⟩]⟩
  | .mapped condition => ⟨condition, []⟩
  | .unknown => ⟨name, [⟨.unmappedCondition name, offset, some path⟩]⟩

/-! ### Output from the blocks around each place -/

/-- The condition that a handler name stands for, inside blocks with these declarations. -/
def conditionAt (mapping : Mapping) (around : List Declarations) (path : String) (offset : Nat)
    (name : String) : Draft :=
  if Text.sameWord name "OTHERS" then .ofText "OTHERS"
  else (meaning mapping around name).caught path name offset

/-- A handler inside blocks with these declarations. -/
def handlerAt (scope : Scope) (around : List Declarations) (closing : List Statement → List Layout)
    (h : Handler Inner) : Output :=
  let conditions := h.names.map (conditionAt scope.mapping around h.body.path h.offset)
  let texts := (conditions.map Draft.text).eraseDups
  ⟨[.line ("WHEN " ++ Text.join " OR " texts ++ " THEN")], conditions.flatMap Draft.findings⟩ ++
    (h.body.output scope ++ .ofSteps (closing h.body.statements)).nested

/-- A block inside blocks with these declarations. Its own are around its handlers as well. -/
def blockAt (scope : Scope) (around : List Declarations) (closing : List Statement → List Layout)
    (b : Block Inner) : Output :=
  let declarations := b.declarations.getD .empty
  let statements := b.body.statements ++ b.handlers.flatMap fun h => h.body.statements
  let inside := b.declarations.toList ++ around
  let handlers := (ordered b.handlers).map (handlerAt scope inside closing)
  let comments := unparsedComments b.unparsed
  declareSection scope declarations statements ++ .line "BEGIN" ++
    (b.body.output scope ++ .ofSteps (closing b.body.statements) ++
      if b.handlers.isEmpty then comments else .empty).nested ++
    (if b.handlers.isEmpty then .empty
      else .line "EXCEPTION" ++ (comments ++ .concat handlers).nested) ++
    .line "END;"

/-- A statement at `path` inside blocks with these declarations, whose inner lists are known. -/
def formAt (scope : Scope) (around : List Declarations) (path : String) : Form Inner → Output
  | .simple (.raise (some name) offset) =>
    (meaning scope.mapping around name).raised path name offset
  | .block b => blockAt scope around (fun _ => []) b
  | f => form scope path f

/-- The output of a statement, where `enclosing` gives the declarations around each path. -/
def statementAt (scope : Scope) (enclosing : String → List Declarations) :
    Statement → String → Output :=
  Statement.foldWith fun f path =>
    formAt scope (enclosing path) path ((f.label path).map fun entry =>
      inner entry.1 (entry.2.map fun written => (written.1, fun _ => written.2)))

/-- A list of statements at `path`, where `enclosing` gives the declarations around each path. -/
def bodyAt (scope : Scope) (enclosing : String → List Declarations) (path : String)
    (statements : List Statement) : Inner :=
  inner path (statements.map fun s => (s, fun _ => statementAt scope enclosing s))

/-- The block of a trigger, with the declarations around each path read off the tree. -/
def triggerBlockAt (scope : Scope) (t : Trigger) : Output :=
  blockAt scope [] (trailingReturn scope) {
    declarations := some t.declarations
    body := bodyAt scope t.enclosing "" t.body
    handlers := (labelHandlers "" t.handlers).map
      (Handler.map fun entry => bodyAt scope t.enclosing entry.1 entry.2)
    unparsed := t.unparsed }

theorem statementAt_node (scope : Scope) (enclosing : String → List Declarations)
    (f : Form (List Statement)) (path : String) :
    statementAt scope enclosing (.node f) path =
      formAt scope (enclosing path) path
        ((f.label path).map fun entry => bodyAt scope enclosing entry.1 entry.2) := by
  rw [statementAt, Statement.foldWith_node, Form.label_map, Form.map_map]
  simp only [map_map]
  rfl

theorem output_bodyAt (scope scope' : Scope) (enclosing : String → List Declarations)
    (path : String) (statements : List Statement) :
    (bodyAt scope enclosing path statements).output scope' =
      .concat (statements.zipIdx.map fun entry =>
        statementAt scope enclosing entry.1 (Path.child path entry.2)) := by
  simp [bodyAt, inner, mapIdx_eq_zipIdx_map, zipIdx_map, Function.comp_def]

/-! ### Scopes and the blocks around -/

/-- The names of the exceptions in upper case. -/
def exceptionKeys (d : Declarations) : List String := d.exceptions.map fun e => Text.upper e.name

/-- The scope inside blocks with these declarations. -/
def Scope.inside (scope : Scope) (around : List Declarations) : Scope :=
  { scope with exceptions := around.flatMap exceptionKeys }

variable {scope : Scope} {around around' : List Declarations} {path name : String}

theorem mapping_inside : (scope.inside around).mapping = scope.mapping := rfl

theorem declares_inside :
    (scope.inside around).declares name ↔ ∃ d ∈ around, d.declaresException name := by
  simp only [Scope.declares, Scope.inside, contains_iff_mem, mem_flatMap, exceptionKeys,
    mem_map, Declarations.declaresException, any_eq_true, Text.sameWord, beq_iff_eq]

/-- A meaning goes by which declarations are around, and not by their order. -/
theorem meaning_congr (h : ∀ d, d ∈ around ↔ d ∈ around') (mapping : Mapping) (name : String) :
    meaning mapping around name = meaning mapping around' name := by
  simp only [meaning, h]

theorem meaning_eq_declared {mapping : Mapping} :
    meaning mapping around name = .declared ↔ ∃ d ∈ around, d.declaresException name := by
  unfold meaning
  split
  next h => exact iff_of_true rfl h
  next h =>
    refine iff_of_false ?_ h
    cases mapping.exception? name <;> exact nofun

theorem raiseLine_inside (h : ∀ d, d ∈ around ↔ d ∈ around') (offset : Nat) :
    raiseLine (scope.inside around) path (some name) offset =
      (meaning scope.mapping around' name).raised path name offset := by
  rw [← meaning_congr h, raiseLine, meaning, mapping_inside]
  simp only [declares_inside]
  split
  · rfl
  · cases scope.mapping.exception? name <;> rfl

theorem condition_inside (h : ∀ d, d ∈ around ↔ d ∈ around') (offset : Nat) :
    condition (scope.inside around) path offset name =
      conditionAt scope.mapping around' path offset name := by
  have hothers : Text.upper "OTHERS" = "OTHERS" := by decide
  rw [condition, conditionAt, ← meaning_congr h, meaning, mapping_inside]
  simp only [declares_inside, Text.sameWord, beq_iff_eq, hothers]
  split
  · rfl
  · split
    · rfl
    · cases scope.mapping.exception? name <;> rfl

theorem declaring_inside (declarations : Option Declarations) :
    (scope.inside around).declaring (declarations.getD .empty) =
      scope.inside (declarations.toList ++ around) := by
  cases declarations <;> rfl

/-! ### Both writers -/

/-- Two inner lists are written alike, the one in the scope inside blocks with these declarations,
the other without their exceptions. -/
structure Inner.Agree (scope : Scope) (around : List Declarations) (a b : Inner) : Prop where
  path : a.path = b.path
  statements : a.statements = b.statements
  output : a.output (scope.inside around) = b.output scope

section Forms

variable {ι : Type} {g g' : ι → Inner} {f : Form ι}

theorem handler_agree (hsame : ∀ d, d ∈ around ↔ d ∈ around')
    {closing : List Statement → List Layout} {h : Handler ι}
    (hbody : Inner.Agree scope around (g h.body) (g' h.body)) :
    handler (scope.inside around) closing (h.map g) =
      handlerAt scope around' closing (h.map g') := by
  have hconditions : h.names.map (condition (scope.inside around) (g h.body).path h.offset) =
      h.names.map (conditionAt scope.mapping around' (g' h.body).path h.offset) := by
    rw [hbody.path]
    exact map_congr_left fun name _ => condition_inside hsame h.offset
  have hnames : ∀ f : ι → Inner, (h.map f).names = h.names := fun _ => rfl
  simp only [handler, handlerLine, handlerAt, hnames]
  simp only [Handler.map, hconditions, hbody.output, hbody.statements]

theorem block_agree (hsame : ∀ d, d ∈ around ↔ d ∈ around')
    (closing : List Statement → List Layout) {b : Block ι}
    (hbodies : ∀ body ∈ (Form.block b).bodies,
      Inner.Agree scope (b.declarations.toList ++ around) (g body) (g' body)) :
    block (scope.inside around) closing
        ⟨b.declarations, g b.body, b.handlers.map (Handler.map g), b.unparsed⟩ =
      blockAt scope around' closing
        ⟨b.declarations, g' b.body, b.handlers.map (Handler.map g'), b.unparsed⟩ := by
  have hbody := hbodies _ mem_cons_self
  have hhandlers : ∀ h ∈ b.handlers,
      Inner.Agree scope (b.declarations.toList ++ around) (g h.body) (g' h.body) :=
    fun h hh => hbodies _ (mem_cons_of_mem _ (mem_map_of_mem hh))
  have hsame' : ∀ d,
      d ∈ b.declarations.toList ++ around ↔ d ∈ b.declarations.toList ++ around' := by
    intro d
    rw [mem_append, mem_append, hsame]
  have hstatements : (b.handlers.map (Handler.map g)).flatMap (fun h => h.body.statements) =
      (b.handlers.map (Handler.map g')).flatMap fun h => h.body.statements := by
    rw [flatMap_map, flatMap_map]
    exact flatMap_congr fun h hh => (hhandlers h hh).statements
  have hwritten :
      (ordered (b.handlers.map (Handler.map g))).map
          (handler (scope.inside (b.declarations.toList ++ around)) closing) =
        (ordered (b.handlers.map (Handler.map g'))).map
          (handlerAt scope (b.declarations.toList ++ around') closing) := by
    rw [ordered_map (Handler.map g) (fun _ => rfl), ordered_map (Handler.map g') (fun _ => rfl),
      map_map, map_map]
    exact map_congr_left fun h hh => handler_agree hsame' (hhandlers h (mem_ordered.1 hh))
  simp only [block, blockAt, exceptionSection, declaring_inside, hbody.output, hbody.statements,
    hstatements, hwritten, isEmpty_map]
  rfl

theorem formAt_map (hf : f.isCompound) :
    formAt scope around path (f.map g) = form scope path (f.map g) := by
  cases f with
  | simple | block => cases hf
  | _ => rfl

/-- The output of a statement is that of the second writer if its inner lists are written alike. -/
theorem form_agree (hsame : ∀ d, d ∈ around ↔ d ∈ around')
    (h : ∀ body ∈ f.bodies, Inner.Agree scope (f.declarations?.toList ++ around) (g body) (g' body))
    : form (scope.inside around) path (f.map g) = formAt scope around' path (f.map g') := by
  -- Nothing but `RAISE` with a name and the handlers of a block looks at the exceptions of a scope.
  cases f with
  | simple s =>
    cases s with
    | raise name offset =>
      cases name with
      | none => rfl
      | some name => exact raiseLine_inside hsame offset
    | _ => rfl
  | block b =>
    simp only [Form.map, form, formAt]
    exact block_agree hsame (fun _ => []) h
  | _ =>
    rw [formAt_map rfl]
    have hcontext : (scope.inside around).context = scope.context := rfl
    exact form_rel_of_context .eq hcontext rfl fun body hbody => (h body hbody).output

end Forms

theorem body_agree {statements : List Statement}
    (h : ∀ child ∈ Statement.numbered path statements,
      statement child.2 (scope.inside around) child.1 =
        statementAt scope enclosing child.2 child.1) :
    Inner.Agree scope around (body path statements) (bodyAt scope enclosing path statements) := by
  constructor
  case path => rfl
  case statements => simp [statements_body, bodyAt, inner, Function.comp_def]
  case output =>
    rw [output_body, output_bodyAt]
    refine congrArg Output.concat (map_congr_left fun entry hentry => ?_)
    exact h _ (mem_map_of_mem hentry)

/-- A statement is written by both writers alike if the declarations around each place inside it are
those that `enclosing` gives. -/
theorem statement_eq_statementAt (s : Statement)
    (h : ∀ place ∈ s.places around path, ∀ d, d ∈ place.2 ↔ d ∈ enclosing place.1) :
    statement s (scope.inside around) path = statementAt scope enclosing s path := by
  induction s, path using Statement.placedInduction generalizing around with
  | step s path ih =>
    obtain ⟨form⟩ := s
    rw [statement_node, statementAt_node]
    rw [Statement.places_eq] at h
    refine form_agree (h _ mem_cons_self) fun entry hentry => body_agree fun child hchild => ?_
    have hmem : child ∈ (Statement.node form).children path :=
      mem_flatMap.2 ⟨entry, hentry, hchild⟩
    have hdeclared : (form.label path).declarations? = form.declarations? := by cases form <;> rfl
    rw [hdeclared]
    refine ih child hmem fun place hplace => h place (mem_cons_of_mem _ ?_)
    exact mem_flatMap.2 ⟨child, hmem, hplace⟩

/-- The block of a trigger is written by both writers alike, if no exceptions are known outside. -/
theorem triggerBlock_eq_triggerBlockAt (t : Trigger) (hscope : scope.inside [] = scope) :
    triggerBlock scope t = triggerBlockAt scope t := by
  let b : Block (String × List Statement) :=
    ⟨some t.declarations, ("", t.body), labelHandlers "" t.handlers, t.unparsed⟩
  have hbodies : ∀ list ∈ (Form.block b).bodies, Inner.Agree scope (b.declarations.toList ++ [])
      (body list.1 list.2) (bodyAt scope t.enclosing list.1 list.2) := by
    intro list hlist
    refine body_agree fun child hchild => statement_eq_statementAt child.2 fun place hplace => ?_
    have hmem : child ∈ t.children := mem_flatMap.2 ⟨list, hlist, hchild⟩
    exact Trigger.mem_enclosing_iff (mem_flatMap.2 ⟨child, hmem, hplace⟩)
  have hblock := block_agree (fun d => Iff.rfl) (trailingReturn scope) hbodies
  rw [hscope] at hblock
  exact hblock

/-- The name of an exception is taken by the declarations of the blocks around it, wherever it
stands in a trigger: the output is that of the second writer, for which a name is that of an
exception of the user exactly if one of the blocks around declares it in some letter case. -/
theorem exceptions_scoped (mapping : Mapping) (options : Options) (t : Trigger) :
    triggerBlock (scopeOf mapping options t) t = triggerBlockAt (scopeOf mapping options t) t ∧
      ∀ around name, meaning mapping around name = .declared ↔
        ∃ d ∈ around, ∃ e ∈ d.exceptions, Text.sameWord e.name name := by
  refine ⟨triggerBlock_eq_triggerBlockAt t rfl, fun around name => ?_⟩
  rw [meaning_eq_declared]
  simp [Declarations.declaresException]

-- The inner block declares the exception for its handler, but not for the statement after it.
example : (convert .empty .standard ("BEGIN DECLARE e_in EXCEPTION; BEGIN RAISE e_in; " ++
      "EXCEPTION WHEN E_IN THEN NULL; END; RAISE e_in; END;")).toOption.map
        (fun c => c.diagnostics.map Diagnostic.path) = some [some "1.handler1", some "2"] := by
  decide +kernel

end Generate

end TriggerDialect
