import TriggerDialect.Proofs.Placement.Recast
import TriggerDialect.Proofs.Reading.Declared
import TriggerDialect.Proofs.Writing.Congruence

/-!
# Writing trees with moved offsets

The output of a tree is the same up to offsets when all offsets are moved, provided that the
declarations of each block stay in their order: they are the one thing that is sorted by offsets
(`output_moved`). The text written is the same, and so are the reports, up to their offsets
(`trigger_moved`).
-/

namespace TriggerDialect

open List

variable (r : Relocation)

/-! ### Findings -/

instance : Placed Finding := ⟨fun r f => { f with offset := r.target f.offset }⟩

namespace Finding

theorem firstOfEach_moved (seen : List String) (fs : List Finding) :
    firstOfEach seen (moved r fs) = moved r (firstOfEach seen fs) := by
  induction fs generalizing seen with
  | nil => rfl
  | cons f fs ih =>
    have hkey : (moved r f).key = f.key := rfl
    simp only [moved_cons, firstOfEach, hkey, ih]
    split <;> rfl

theorem report_moved (fs : List Finding) : report (moved r fs) = moved r (report fs) := by
  rw [report, report, firstOfEach_moved]
  exact moved_map r fun _ _ => rfl

/-- What is reported is decided by the findings up to their offsets. -/
theorem report_alike {fs fs' : List Finding} (h : Alike fs fs') :
    Alike (report fs) (report fs') := by
  rw [Alike, ← report_moved, ← report_moved, h]

end Finding

namespace Generate

/-! ### Outputs and drafts -/

instance : Placed Output := ⟨fun r o => { o with findings := moved r o.findings }⟩

instance : Placed Draft := ⟨fun r d => { d with findings := moved r d.findings }⟩

namespace Output

variable {a a' b b' : Output}

theorem alike_iff : Alike a b ↔ a.steps = b.steps ∧ Alike a.findings b.findings := by
  simp [Alike, moved]

theorem alike_append (h : Alike a a') (h' : Alike b b') : Alike (a ++ b) (a' ++ b') := by
  rw [alike_iff] at h h' ⊢
  refine ⟨?_, h.2.append h'.2⟩
  change _ ++ _ = _ ++ _
  rw [h.1, h'.1]

theorem alike_nested (h : Alike a b) : Alike a.nested b.nested := by
  rw [alike_iff] at h ⊢
  exact ⟨congrArg Layout.nested h.1, h.2⟩

theorem isCongruence_alike : IsCongruence Alike := ⟨.refl, alike_append, alike_nested⟩

end Output

namespace Draft

variable {a a' b b' : Draft} {ι : Type}

theorem alike_iff : Alike a b ↔ a.text = b.text ∧ Alike a.findings b.findings := by
  simp [Alike, moved]

theorem alike_append (h : Alike a a') (h' : Alike b b') : Alike (a ++ b) (a' ++ b') := by
  rw [alike_iff] at h h' ⊢
  refine ⟨?_, h.2.append h'.2⟩
  change _ ++ _ = _ ++ _
  rw [h.1, h'.1]

theorem alike_line (h : Alike a b) : Alike a.line b.line := by
  rw [alike_iff] at h
  rw [Output.alike_iff]
  exact ⟨congrArg (fun text => [Layout.line text]) h.1, h.2⟩

theorem texts_alike {f g : ι → Draft} {xs : List ι} (h : ∀ x ∈ xs, Alike (f x) (g x)) :
    (xs.map f).map text = (xs.map g).map text := by
  simp only [map_map]
  exact map_congr_left fun x hx => (alike_iff.1 (h x hx)).1

theorem findings_alike {f g : ι → Draft} {xs : List ι} (h : ∀ x ∈ xs, Alike (f x) (g x)) :
    Alike ((xs.map f).flatMap findings) ((xs.map g).flatMap findings) := by
  simp only [flatMap_map]
  exact Alike.flatMap fun x hx => (alike_iff.1 (h x hx)).2

end Draft

/-! ### Fragments and types -/

variable (scope : Scope)

theorem findings_alike {remarks remarks' : List Recast.Remark} (path : Option String)
    (h : moved .erase remarks = moved .erase remarks') :
    Alike (Scope.findings path remarks) (Scope.findings path remarks') := by
  have hmoved : ∀ remarks : List Recast.Remark,
      Scope.findings path (moved .erase remarks) = moved .erase (Scope.findings path remarks) :=
    fun remarks => moved_map .erase fun _ _ => rfl
  rw [Alike, ← hmoved, ← hmoved, h]

theorem recast_alike (path : Option String) (f : Fragment) :
    Alike (scope.recast path (moved r f)) (scope.recast path f) := by
  obtain ⟨htext, hremarks⟩ := Recast.fragment_congr scope.context (Fragment.text_moved r f)
  exact Draft.alike_iff.2 ⟨htext, findings_alike path hremarks⟩

theorem type_alike (type : DeclaredType) (offset : Nat) :
    Alike (scope.type type (r.target offset)) (scope.type type offset) := by
  have hmoved := Recast.typeText_moved .erase scope.context type (r.target offset)
  have hplain := Recast.typeText_moved .erase scope.context type offset
  have hsame := Prod.ext_iff.1 (hmoved.symm.trans hplain)
  exact Draft.alike_iff.2 ⟨hsame.1, findings_alike none hsame.2⟩

/-! ### Declarations -/

theorem initializer_alike (value : Initializer) :
    Alike (initializer scope (moved r value)) (initializer scope value) := by
  cases value with
  | string value => exact .refl _
  | expression text => exact recast_alike r scope none text

theorem defaultValue_alike (value : Option Initializer) :
    Alike (defaultValue scope (moved r value)) (defaultValue scope value) := by
  cases value with
  | none => exact .refl _
  | some value => exact Draft.alike_append (.refl _) (initializer_alike r scope value)

theorem parameters_alike (c : Cursor) :
    Alike (parameters scope (moved r c)) (parameters scope c) := by
  have hparameters : (moved r c).parameters = c.parameters := rfl
  unfold parameters
  rw [hparameters]
  split
  · exact .refl _
  · refine Draft.alike_append (Draft.alike_append (.refl _) ?_) (.refl _)
    have hdrafts : ∀ p ∈ c.parameters,
        Alike (Draft.ofText (p.name ++ " ") ++ scope.type p.type (moved r c).offset)
          (Draft.ofText (p.name ++ " ") ++ scope.type p.type c.offset) :=
      fun p _ => Draft.alike_append (.refl _) (type_alike r scope p.type c.offset)
    rw [Draft.alike_iff]
    exact ⟨congrArg (Text.join ", ") (Draft.texts_alike hdrafts), Draft.findings_alike hdrafts⟩

theorem declaration_alike (d : Declaration) :
    Alike (declaration scope (moved r d)) (declaration scope d) := by
  cases d with
  | ofVariable v =>
    refine Draft.alike_line (Draft.alike_append ?_ (.refl _))
    refine Draft.alike_append (Draft.alike_append ?_ (.refl _))
      (defaultValue_alike r scope v.default)
    exact Draft.alike_append (.refl _) (type_alike r scope v.type v.offset)
  | ofConstant c =>
    refine Draft.alike_line (Draft.alike_append ?_ (.refl _))
    refine Draft.alike_append (Draft.alike_append ?_ (.refl _)) (initializer_alike r scope c.value)
    exact Draft.alike_append (.refl _) (type_alike r scope c.type c.offset)
  | ofCursor c =>
    refine Draft.alike_line (Draft.alike_append ?_ (.refl _))
    refine Draft.alike_append (Draft.alike_append ?_ (.refl _)) (recast_alike r scope none c.query)
    exact Draft.alike_append (.refl _) (parameters_alike r scope c)
  | ofException e => exact .refl _
  | ofRaw text => exact .refl _

end Generate

namespace Declarations

theorem byKind_moved (d : Declarations) : (moved r d).byKind = moved r d.byKind := by
  simp only [byKind, moved, map_append, map_map]
  rfl

/-- Moving offsets keeps the order of the declarations. -/
def KeepsOrder (d : Declarations) : Prop :=
  ∀ a ∈ d.byKind, ∀ b ∈ d.byKind, a.offset ≤ b.offset ↔ r.target a.offset ≤ r.target b.offset

theorem toList_moved {d : Declarations} (h : d.KeepsOrder r) :
    (moved r d).toList = moved r d.toList := by
  have hoffset : ∀ a : Declaration, (moved r a).offset = r.target a.offset := by
    rintro ⟨⟩ <;> rfl
  have hsort := map_mergeSort (l := d.byKind) (f := moved r)
    (r := fun a b => decide (a.offset ≤ b.offset)) (s := fun a b => decide (a.offset ≤ b.offset))
    fun a ha b hb => by simp only [hoffset, h a ha b hb]
  rw [← moved_list, ← moved_list, ← byKind_moved] at hsort
  exact hsort.symm

end Declarations

/-- Moving the offsets of statements. -/
def Relocation.change : Change where
  form := Form.relocate r
  bodies_form := Form.bodies_relocate r
  map_form := Form.map_relocate r
  label_form := Form.label_relocate r
  queryVariable_form f := by cases f <;> rfl
  isBlock_form f := by cases f <;> rfl

namespace Statement

end Statement

namespace Generate

variable (scope : Scope) (path : String)

theorem recordNames_moved (d : Declarations) (statements : List Statement) :
    recordNames (moved r d) (moved r statements) = recordNames d statements := by
  have hvariables : (moved r statements).flatMap Statement.queryVariables =
      statements.flatMap Statement.queryVariables := by
    rw [moved_list, flatMap_map]
    exact flatMap_congr fun s _ => s.queryVariables_changed r.change
  have hnames : (moved r d).vars.map (fun v => Text.upper v.name) =
      d.vars.map fun v => Text.upper v.name := map_map
  simp only [recordNames, hvariables, hnames]

theorem declareSection_alike {d : Declarations} (h : d.KeepsOrder r) (statements : List Statement) :
    Alike (declareSection scope (moved r d) (moved r statements))
      (declareSection scope d statements) := by
  simp only [declareSection, d.toList_moved r h, recordNames_moved, isEmpty_moved]
  split
  · exact .refl _
  · refine Output.alike_append (.refl _) (Output.alike_nested (Output.alike_append ?_ (.refl _)))
    rw [moved_list, map_map]
    exact Output.isCongruence_alike.concat fun d _ => declaration_alike r scope d

/-! ### Simple statements -/

theorem recastLine_alike (path before : String) (f : Fragment) (after : String) :
    Alike (recastLine scope path before (moved r f) after) (recastLine scope path before f after) :=
  Draft.alike_line (Draft.alike_append
    (Draft.alike_append (.refl _) (recast_alike r scope (some path) f)) (.refl _))

theorem exitLine_alike (path word : String) (loop : Option String) (condition : Option Fragment) :
    Alike (exitLine scope path word loop (moved r condition))
      (exitLine scope path word loop condition) := by
  refine Draft.alike_line (Draft.alike_append (Draft.alike_append (.refl _) ?_) (.refl _))
  cases condition with
  | none => exact .refl _
  | some f => exact Draft.alike_append (.refl _) (recast_alike r scope (some path) f)

theorem returnLine_alike (value : Option Fragment) :
    Alike (returnLine scope path (moved r value)) (returnLine scope path value) := by
  cases value with
  | none => exact .refl _
  | some f => exact recastLine_alike r scope path "RETURN " f ";"

theorem callLine_alike (path name : String) (arguments : List Fragment) (offset : Nat) :
    Alike (callLine scope path name (moved r arguments) (r.target offset))
      (callLine scope path name arguments offset) := by
  have hdrafts : ∀ f ∈ arguments,
      Alike (scope.recast (some path) (moved r f)) (scope.recast (some path) f) :=
    fun f _ => recast_alike r scope (some path) f
  have htexts := Draft.texts_alike hdrafts
  have hfound := Draft.findings_alike hdrafts
  have hmap : (moved r arguments).map (scope.recast (some path)) =
      arguments.map fun f => scope.recast (some path) (moved r f) := map_map
  simp only [callLine, hmap, htexts]
  cases scope.mapping.function? name with
  | none => exact Output.alike_iff.2 ⟨rfl, hfound.append rfl⟩
  | some template =>
    simp only
    cases template.expand? ((arguments.map (scope.recast (some path))).map Draft.text) with
    | none => exact Output.alike_iff.2 ⟨rfl, hfound.append rfl⟩
    | some text => exact Output.alike_iff.2 ⟨rfl, hfound⟩

theorem raiseLine_alike (name : Option String) (offset : Nat) :
    Alike (raiseLine scope path name (r.target offset)) (raiseLine scope path name offset) := by
  unfold raiseLine
  repeat' split
  all_goals rfl

theorem simple_alike (s : Simple) :
    Alike (simple scope path (moved r s)) (simple scope path s) := by
  cases s with
  | select | insert | update | delete | executeImmediate | cursor =>
    exact recastLine_alike r scope path _ _ _
  | assignment target value =>
    refine Draft.alike_line (Draft.alike_append (Draft.alike_append ?_ ?_) (.refl _))
    · exact Draft.alike_append (recast_alike r scope (some path) target) (.refl _)
    · exact recast_alike r scope (some path) value
  | exitLoop loop condition => exact exitLine_alike r scope path "EXIT" loop condition
  | continueLoop loop condition => exact exitLine_alike r scope path "CONTINUE" loop condition
  | returnValue value => exact returnLine_alike r scope path value
  | call name arguments offset => exact callLine_alike r scope path name arguments offset
  | raise name offset => exact raiseLine_alike r scope path name offset
  | label | null | raw => exact .refl _

/-! ### Branches, loops and blocks -/

/-- An inner list beside the same list with its offsets moved. -/
abbrev Inner.Follows : Inner → Inner → Prop := Inner.Changes r.change Alike

section Forms

variable {ι : Type} {g g' : ι → Inner}

theorem range_alike (reverse : Bool) (lower upper : Fragment) :
    Alike (range scope path reverse (moved r lower) (moved r upper))
      (range scope path reverse lower upper) := by
  obtain ⟨hlow, hlowFound⟩ := Draft.alike_iff.1 (recast_alike r scope (some path) lower)
  obtain ⟨hhigh, hhighFound⟩ := Draft.alike_iff.1 (recast_alike r scope (some path) upper)
  exact Draft.alike_iff.2 ⟨by simp only [range, hlow, hhigh], hlowFound.append hhighFound⟩

theorem headsRel_alike : HeadsRel Alike (moved r) scope scope path where
  recast before f after := recastLine_alike r scope path before f after
  range _ reverse lower upper _ :=
    Draft.alike_line (Draft.alike_append
      (Draft.alike_append (.refl _) (range_alike r scope path reverse lower upper)) (.refl _))

theorem condition_alike (offset : Nat) (name : String) :
    Alike (condition scope path (r.target offset) name) (condition scope path offset name) := by
  unfold condition
  repeat' split
  all_goals rfl

/-- A handler with its offset moved and another body. -/
def movedHandler (g' : ι → Inner) (h : Handler ι) : Handler Inner :=
  ⟨h.name, h.moreNames, g' h.body, r.target h.offset⟩

theorem handlerLine_alike (h : Handler ι) (hbody : (g' h.body).Follows r (g h.body)) :
    Alike (handlerLine scope (movedHandler r g' h)) (handlerLine scope (h.map g)) := by
  have hconditions : ∀ name ∈ h.names,
      Alike (condition scope (g' h.body).path (r.target h.offset) name)
        (condition scope (g h.body).path h.offset name) := by
    intro name _
    rw [hbody.path]
    exact condition_alike r scope (g h.body).path h.offset name
  have htexts := Draft.texts_alike hconditions
  have hfindings := Draft.findings_alike hconditions
  have hnames : (movedHandler r g' h).names = h.names := rfl
  have hnames' : (h.map g).names = h.names := rfl
  simp only [handlerLine, hnames, hnames']
  rw [Output.alike_iff]
  refine ⟨?_, hfindings⟩
  simp only [movedHandler, Handler.map]
  rw [htexts]

theorem unparsedComments_moved (unparsed : List Fragment) :
    unparsedComments (moved r unparsed) = unparsedComments unparsed := by
  rw [unparsedComments, moved_list, map_map]
  rfl

/-- A block is written in the same way when its offsets are moved and its declarations stay in
order. -/
theorem block_alike (closing : List Statement → List Layout) (g g' : ι → Inner)
    (hclosing : ∀ statements, closing (moved r statements) = closing statements) (b : Block ι)
    (hdeclared : ∀ d ∈ b.declarations, d.KeepsOrder r) (hbody : (g' b.body).Follows r (g b.body))
    (hhandlers : ∀ h ∈ b.handlers, (g' h.body).Follows r (g h.body)) :
    Alike
      (block scope closing ⟨moved r b.declarations, g' b.body, b.handlers.map (movedHandler r g'),
        moved r b.unparsed⟩)
      (block scope closing
        ⟨b.declarations, g b.body, b.handlers.map (Handler.map g), b.unparsed⟩) := by
  have hdeclarations : (moved r b.declarations).getD .empty =
      moved r (b.declarations.getD .empty) := by
    cases b.declarations <;> rfl
  have horder : (b.declarations.getD .empty).KeepsOrder r := by
    cases hd : b.declarations with
    | none => exact fun a ha => by cases ha
    | some d => exact hdeclared d hd
  have hscope : scope.declaring (moved r (b.declarations.getD .empty)) =
      scope.declaring (b.declarations.getD .empty) := by
    simp only [Scope.declaring]
    congr 2
    exact map_map
  rw [← hdeclarations] at hscope
  refine block_rel (c := r.change) Output.isCongruence_alike hclosing hscope
    (fun scope statements => ?_) hbody (fun h hh => ⟨hhandlers h hh, fun scope => ?_⟩) ?_
    fun _ => ⟨rfl, rfl⟩
  · rw [hdeclarations]
    exact declareSection_alike r scope horder statements
  · exact handlerLine_alike r scope h (hhandlers h hh)
  · rw [unparsedComments_moved]
    exact .refl _

/-- A statement is written in the same way when its offsets are moved and its inner lists follow. -/
theorem form_alike (f : Form ι) (hdeclared : ∀ d ∈ f.declarations?, d.KeepsOrder r)
    (h : ∀ body ∈ f.bodies, (g' body).Follows r (g body)) :
    Alike (form scope path ((f.relocate r).map g')) (form scope path (f.map g)) := by
  cases f with
  | simple s => exact simple_alike r scope path s
  | block b =>
    simp only [Form.bodies, mem_cons, mem_map] at h
    have hblock := block_alike r scope (fun _ => []) g g' (fun _ => rfl) b hdeclared
      (h _ (.inl rfl)) fun handler hhandler => h _ (.inr ⟨handler, hhandler, rfl⟩)
    simp only [Form.relocate, Form.map, form, map_map]
    exact hblock
  | _ =>
    exact form_rel Output.isCongruence_alike (headsRel_alike r scope path) rfl
      fun body hbody => (h body hbody).output scope

end Forms

/-! ### All statements -/

/-- Moving offsets keeps the order of the declarations in every block inside a list. -/
def KeepsOrder (statements : List Statement) : Prop :=
  Statement.AllInside (fun outline => ∀ d ∈ outline.declarations?, d.KeepsOrder r) statements

/-- A statement is written in the same way when all offsets are moved. -/
theorem statement_alike (s : Statement) (h : KeepsOrder r [s]) (path : String) :
    Alike (statement (moved r s) scope path) (statement s scope path) := by
  induction s using Statement.induction generalizing scope path with
  | node f ih =>
    rw [moved_node, moved_form, statement_node, statement_node, Form.label_relocate, Form.label_map,
      ← Form.map_relocate, Form.map_map]
    refine form_alike r scope path (f.label path) ?_ fun entry hentry => ?_
    · have hdeclared : (f.label path).declarations? = f.outline.declarations? := by cases f <;> rfl
      rw [hdeclared]
      exact h (.node f) (.here (mem_singleton_self _))
    · have hbody := Form.snd_mem_bodies hentry
      refine body_changes Output.isCongruence_alike fun s hs scope path =>
        ih entry.2 hbody s hs scope ?_ path
      exact fun s' hs' => h s' (.deeper (mem_singleton_self _) hbody (hs'.of_mem hs))

theorem body_follows_of_keepsOrder {statements : List Statement} (h : KeepsOrder r statements) :
    (body path (moved r statements)).Follows r (body path statements) :=
  body_changes Output.isCongruence_alike fun s hs scope path =>
    statement_alike r scope s (fun s' hs' => h s' (hs'.of_mem hs)) path

end Generate

/-! ### Triggers -/

theorem Trigger.walk_moved (t : Trigger) : (moved r t).walk = moved r t.walk := by
  refine walk_changed r.change ?_
  change ("", moved r t.body) :: (labelHandlers "" (moved r t.handlers)).map Handler.body = _
  rw [labelHandlers_moved, lists, map_cons, map_map]
  exact congrArg _ map_map

namespace Generate

theorem leaves_moved (mapping : Mapping) (s : Statement) :
    leaves mapping (moved r s) = leaves mapping s := by
  obtain ⟨form⟩ := s
  rw [moved_node]
  cases form with
  | simple s => cases s <;> rfl
  | _ => rfl

theorem trailingReturn_moved (scope : Scope) (statements : List Statement) :
    trailingReturn scope (moved r statements) = trailingReturn scope statements :=
  trailingReturn_changed (c := r.change) (leaves_moved r scope.mapping) statements

theorem blockCursors_moved (s : Statement) :
    blockCursors (moved r s) = moved r (blockCursors s) := by
  obtain ⟨form⟩ := s
  rw [moved_node]
  cases form with
  | block b =>
    obtain ⟨declarations, body, handlers, unparsed⟩ := b
    cases declarations <;> rfl
  | _ => rfl

theorem cursorNames_moved (t : Trigger) : cursorNames (moved r t) = cursorNames t := by
  have hblocks : (moved r t.walk).flatMap (fun entry => blockCursors entry.2) =
      moved r (t.walk.flatMap fun entry => blockCursors entry.2) :=
    moved_flatMap r fun entry _ => blockCursors_moved r entry.2
  have hcursors : (moved r t).declarations.cursors = moved r t.declarations.cursors := rfl
  simp only [cursorNames, Trigger.walk_moved, hblocks, hcursors, ← moved_append]
  exact map_map

theorem scopeOf_moved (mapping : Mapping) (options : Options) (t : Trigger) :
    scopeOf mapping options (moved r t) = scopeOf mapping options t := by
  have hheader : (moved r t).header = moved r t.header := rfl
  have hrow : returnRow (moved r t.header) = returnRow t.header := by cases t.header <;> rfl
  have hcontext : headerContext mapping (moved r t.header) = headerContext mapping t.header := by
    cases t.header <;> rfl
  simp only [scopeOf, contextOf, cursorNames_moved, hheader, hcontext, hrow]

/-- Moving offsets keeps the order of the declarations in every block of a trigger. -/
structure TriggerKeepsOrder (t : Trigger) : Prop where
  declarations : t.declarations.KeepsOrder r
  body : KeepsOrder r t.body
  handlers : ∀ h ∈ t.handlers, KeepsOrder r h.body

variable {r} {t : Trigger}

theorem triggerBlock_alike (h : TriggerKeepsOrder r t) (scope : Scope) :
    Alike (triggerBlock scope (moved r t)) (triggerBlock scope t) := by
  have hlabels : (labelHandlers "" (moved r t.handlers)).map (Handler.map fun e => body e.1 e.2) =
      (labelHandlers "" t.handlers).map (movedHandler r fun e => body e.1 (moved r e.2)) := by
    rw [labelHandlers_moved]
    exact map_map
  have hblock := block_alike r scope _ (fun e => body e.1 e.2) (fun e => body e.1 (moved r e.2))
    (trailingReturn_moved r scope)
    ⟨some t.declarations, ("", t.body), labelHandlers "" t.handlers, t.unparsed⟩
    (by rintro d ⟨⟩; exact h.declarations) (body_follows_of_keepsOrder r "" h.body)
    (by
      intro handler hhandler
      refine body_follows_of_keepsOrder r handler.body.1 ?_
      have hmem := mem_map_of_mem (f := Handler.map Prod.snd) hhandler
      rw [map_snd_labelHandlers] at hmem
      exact h.handlers _ hmem)
  rw [triggerBlock, triggerBlock]
  change Alike (block scope _ ⟨some (moved r t.declarations), body "" (moved r t.body),
    (labelHandlers "" (moved r t.handlers)).map _, moved r t.unparsed⟩) _
  rw [hlabels]
  exact hblock

theorem headerCondition_alike (context : Recast.Context) (header : Header) :
    Alike (headerCondition context (moved r header)) (headerCondition context header) := by
  obtain ⟨name, orReplace, timing, events, table, forEachRow, newAlias, oldAlias, condition⟩ :=
    header
  cases condition with
  | none => rfl
  | some f =>
    obtain ⟨htext, hremarks⟩ :=
      Recast.fragment_congr { context with bareRows := true } (Fragment.text_moved r f)
    exact congrArg some (Draft.alike_iff.2 ⟨htext, findings_alike none hremarks⟩)

theorem triggerLines_alike (context : Recast.Context) (header : Option Header) :
    Alike (triggerLines context (moved r header)) (triggerLines context header) := by
  cases header with
  | none => exact .refl _
  | some h =>
    have hcondition := headerCondition_alike (r := r) context h
    simp only [moved_some, triggerLines]
    cases hmoved : headerCondition context (moved r h) <;> cases hplain : headerCondition context h
    all_goals rw [hmoved, hplain] at hcondition
    · exact .refl _
    · cases hcondition
    · cases hcondition
    · obtain ⟨htext, hfound⟩ := Draft.alike_iff.1 (Option.some.inj hcondition)
      simp only [Option.map_some, htext]
      exact Output.alike_iff.2 ⟨rfl, hfound⟩

theorem triggerFunction_alike (h : TriggerKeepsOrder r t) (scope : Scope) (indent : Nat) :
    Alike (triggerFunction scope indent (moved r t)) (triggerFunction scope indent t) := by
  obtain ⟨hsteps, hfound⟩ := Output.alike_iff.1 (triggerBlock_alike h scope)
  have hname : functionName (moved r t).header = functionName t.header := by
    change functionName (moved r t.header) = _
    cases t.header <;> rfl
  refine Output.alike_append ?_ (triggerLines_alike scope.context t.header)
  rw [hname, hsteps]
  exact Output.alike_iff.2 ⟨rfl, (Alike.refl _).append hfound⟩

/-- The output of a trigger is the same up to offsets when all offsets are moved. -/
theorem output_moved (h : TriggerKeepsOrder r t) (mapping : Mapping) (options : Options) :
    Alike (output mapping options (moved r t)) (output mapping options t) := by
  unfold output
  rw [scopeOf_moved]
  split
  · exact triggerBlock_alike h _
  · exact triggerFunction_alike h _ options.indent

/-- The text of a trigger is the same when all offsets are moved. -/
theorem trigger_moved (h : TriggerKeepsOrder r t) (mapping : Mapping) (options : Options) :
    (trigger mapping options (moved r t)).sql = (trigger mapping options t).sql ∧
      Alike (trigger mapping options (moved r t)).diagnostics
        (trigger mapping options t).diagnostics := by
  obtain ⟨hsteps, hfound⟩ := Output.alike_iff.1 (output_moved h mapping options)
  exact ⟨congrArg (Layout.write options.indent) hsteps, Finding.report_alike hfound⟩

end Generate

end TriggerDialect
