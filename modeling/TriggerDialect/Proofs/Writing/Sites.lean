import TriggerDialect.Proofs.Writing.Calls
import TriggerDialect.Proofs.Writing.Exceptions

/-!
# What a trigger is searched for

Something can be found about the texts, the types, the calls and the names of exceptions in a
trigger. They are listed here in the order in which they are written, each with its path, and what
is found about one of them is said without the output: by the remarks of the recasting, by the
tables and by the exceptions that the blocks around it declare. `findings_output` says that the
output of a trigger has these findings and no others.
-/

namespace TriggerDialect.Generate

open List Output

/-- A part of a trigger about which something can be found. -/
inductive Part where
  | text (f : Fragment)
  /-- The condition of the header, where rows are named without a colon. -/
  | rowTest (f : Fragment)
  | type (declared : DeclaredType) (offset : Nat)
  /-- A call as a statement, with the number of its arguments. -/
  | call (name : String) (count offset : Nat)
  /-- The name after `RAISE`, inside blocks with these declarations. -/
  | raised (around : List Declarations) (name : String) (offset : Nat)
  /-- A name of a handler, inside blocks with these declarations. -/
  | handled (around : List Declarations) (name : String) (offset : Nat)
  | missingHeader

/-- A part and where it stands. -/
structure Site where
  part : Part
  path : Option String

/-- What there is to say about a part. -/
def Part.remarks (context : Recast.Context) : Part → List Recast.Remark
  | .text f => (Recast.fragment context f).2
  | .rowTest f => (Recast.fragment { context with bareRows := true } f).2
  | .type declared offset => (Recast.typeText context declared offset).2
  | .call name count offset =>
    match context.mapping.function? name with
    | none => [⟨.unmappedProcedure name, offset⟩]
    | some template =>
      if template.isServedBy count then []
      else [⟨.missingArguments name count template.source, offset⟩]
  | .raised around name offset =>
    match meaning context.mapping around name with
    | .unknown => [⟨.unmappedRaise name, offset⟩]
    | _ => []
  | .handled around name offset =>
    if Text.sameWord name "OTHERS" then []
    else match meaning context.mapping around name with
      | .declared => [⟨.userHandler name, offset⟩]
      | .mapped _ => []
      | .unknown => [⟨.unmappedCondition name, offset⟩]
  | .missingHeader => [⟨.noHeader, 0⟩]

/-- What is found at a site. -/
def Site.findings (context : Recast.Context) (site : Site) : List Finding :=
  Scope.findings site.path (site.part.remarks context)

/-- What is found at sites, in order. -/
def findingsAt (context : Recast.Context) (sites : List Site) : List Finding :=
  sites.flatMap (Site.findings context)

/-! ### The sites of a trigger -/

/-- A text of the statement at `path`. -/
def textAt (path : String) (f : Fragment) : Site := ⟨.text f, some path⟩

/-- The sites of a value. -/
def initializerSites : Initializer → List Site
  | .string _ => []
  | .expression text => [⟨.text text, none⟩]

/-- The sites of a declaration. -/
def declarationSites : Declaration → List Site
  | .ofVariable v => ⟨.type v.type v.offset, none⟩ :: v.default.toList.flatMap initializerSites
  | .ofConstant c => ⟨.type c.type c.offset, none⟩ :: initializerSites c.value
  | .ofCursor c =>
    c.parameters.map (fun p => ⟨.type p.type c.offset, none⟩) ++ [⟨.text c.query, none⟩]
  | .ofException _ => []
  | .ofRaw _ => []

/-- The sites of a simple statement at `path`, inside blocks with these declarations. -/
def simpleSites (around : List Declarations) (path : String) : Simple → List Site
  | .select sql => [textAt path sql]
  | .insert sql _ => [textAt path sql]
  | .update sql => [textAt path sql]
  | .delete sql => [textAt path sql]
  | .assignment target value => [textAt path target, textAt path value]
  | .exitLoop _ condition => condition.toList.map (textAt path)
  | .continueLoop _ condition => condition.toList.map (textAt path)
  | .returnValue value => value.toList.map (textAt path)
  | .call name arguments offset =>
    arguments.map (textAt path) ++ [⟨.call name arguments.length offset, some path⟩]
  | .raise name offset => name.toList.map fun name => ⟨.raised around name offset, some path⟩
  | .executeImmediate sql => [textAt path sql]
  | .cursor _ text => [textAt path text]
  | .label _ => []
  | .null => []
  | .raw _ => []

/-- The path of an inner list, and its sites inside blocks with given declarations. -/
abbrev InnerSites := String × (List Declarations → List Site)

/-- The sites of an arm of the statement at `path`. -/
def armSites (around : List Declarations) (path : String) (a : Arm InnerSites) : List Site :=
  textAt path a.condition :: a.body.2 around

/-- The sites of a handler, whose names stand at the path of its body. -/
def handlerSites (around : List Declarations) (h : Handler InnerSites) : List Site :=
  h.names.map (fun name => ⟨.handled around name h.offset, some h.body.1⟩) ++ h.body.2 around

/-- The sites of a block. Its declarations are around its body and its handlers. -/
def blockSites (around : List Declarations) (b : Block InnerSites) : List Site :=
  let inside := b.declarations.toList ++ around
  (b.declarations.toList.flatMap Declarations.toList).flatMap declarationSites ++
    b.body.2 inside ++ (ordered b.handlers).flatMap (handlerSites inside)

/-- The sites of a statement at `path` whose inner lists are known. -/
def formSites (around : List Declarations) (path : String) : Form InnerSites → List Site
  | .simple s => simpleSites around path s
  | .conditional first others otherwise =>
    (first :: others).flatMap (armSites around path) ++ otherwise.toList.flatMap (·.2 around)
  | .selection selector arms otherwise =>
    selector.toList.map (textAt path) ++ arms.flatMap (armSites around path) ++
      otherwise.toList.flatMap (·.2 around)
  | .queryLoop _ query body => textAt path query :: body.2 around
  | .rangeLoop _ _ lower upper body => textAt path lower :: textAt path upper :: body.2 around
  | .whileLoop condition body => textAt path condition :: body.2 around
  | .endlessLoop body => body.2 around
  | .block b => blockSites around b

/-- An inner list at `path`, whose statements are known by their sites. -/
def innerSites (path : String) (body : List (List Declarations → String → List Site)) :
    InnerSites :=
  (path, fun around => (body.mapIdx fun i sites => sites around (Path.child path i)).flatten)

/-- The sites of a statement inside blocks with these declarations, at a path. -/
def statementSites : Statement → List Declarations → String → List Site :=
  Statement.fold fun form around path =>
    formSites around path ((form.label path).map fun entry => innerSites entry.1 entry.2)

/-- The sites of a list of statements at `path`. -/
def bodySites (path : String) (statements : List Statement) : InnerSites :=
  innerSites path (statements.map statementSites)

/-- The sites of the block of a trigger. -/
def triggerBlockSites (t : Trigger) : List Site :=
  blockSites [] {
    declarations := some t.declarations
    body := bodySites "" t.body
    handlers := (labelHandlers "" t.handlers).map
      (Handler.map fun entry => bodySites entry.1 entry.2)
    unparsed := t.unparsed }

/-- The sites of a trigger in the order of its output. Its header counts in a function only. -/
def triggerSites (wrap : Wrap) (t : Trigger) : List Site :=
  match wrap, t.header with
  | .block, _ => triggerBlockSites t
  | .function, none => ⟨.missingHeader, none⟩ :: triggerBlockSites t
  | .function, some header =>
    triggerBlockSites t ++ header.condition.toList.map fun f => ⟨.rowTest f, none⟩

/-! ### Findings of parts -/

section Parts

variable (context : Recast.Context) {α : Type}

@[simp] theorem findingsAt_nil : findingsAt context [] = [] := rfl

@[simp] theorem findingsAt_cons (site : Site) (sites : List Site) :
    findingsAt context (site :: sites) = site.findings context ++ findingsAt context sites := rfl

@[simp] theorem findingsAt_append (sites sites' : List Site) :
    findingsAt context (sites ++ sites') = findingsAt context sites ++ findingsAt context sites' :=
  flatMap_append

theorem findingsAt_map (f : α → Site) (xs : List α) :
    findingsAt context (xs.map f) = xs.flatMap fun x => (f x).findings context :=
  flatMap_map ..

theorem findingsAt_flatMap (f : α → List Site) (xs : List α) :
    findingsAt context (xs.flatMap f) = xs.flatMap fun x => findingsAt context (f x) :=
  flatMap_assoc ..

end Parts

variable {scope : Scope} {around : List Declarations} {path : String}

@[simp] theorem context_inside : (scope.inside around).context = scope.context := rfl

theorem findings_recast (place : Option String) (f : Fragment) :
    (scope.recast place f).findings = Site.findings scope.context ⟨.text f, place⟩ := rfl

theorem findings_type (type : DeclaredType) (offset : Nat) :
    (scope.type type offset).findings = Site.findings scope.context ⟨.type type offset, none⟩ := rfl

theorem findings_initializer (value : Initializer) :
    (initializer scope value).findings = findingsAt scope.context (initializerSites value) := by
  cases value with
  | string value => rfl
  | expression text => simp [initializer, initializerSites, findings_recast]

theorem findings_defaultValue (value : Option Initializer) :
    (defaultValue scope value).findings =
      findingsAt scope.context (value.toList.flatMap initializerSites) := by
  cases value with
  | none => rfl
  | some value => simp [defaultValue, findings_initializer]

theorem findings_parameters (c : Cursor) :
    (parameters scope c).findings =
      findingsAt scope.context (c.parameters.map fun p => ⟨.type p.type c.offset, none⟩) := by
  unfold parameters
  split
  next hempty => rw [isEmpty_iff.1 hempty]; rfl
  next => simp [findingsAt_map, flatMap_map, findings_type]

theorem findings_declaration (d : Declaration) :
    (declaration scope d).findings = findingsAt scope.context (declarationSites d) := by
  cases d with
  | ofVariable v => simp [declaration, declarationSites, findings_type, findings_defaultValue]
  | ofConstant c => simp [declaration, declarationSites, findings_type, findings_initializer]
  | ofCursor c => simp [declaration, declarationSites, findings_parameters, findings_recast]
  | ofException e => rfl
  | ofRaw text => rfl

/-- The declarations of a block have the findings of each in order. Variables of loops add none. -/
theorem findings_declareSection (d : Declarations) (statements : List Statement) :
    (declareSection scope d statements).findings =
      findingsAt scope.context (d.toList.flatMap declarationSites) := by
  unfold declareSection
  simp only
  split
  next hempty =>
    rw [Bool.and_eq_true, List.isEmpty_iff] at hempty
    rw [hempty.1]
    rfl
  next =>
    simp [findingsAt_flatMap, flatMap_map, findings_declaration]

/-! ### Findings of simple statements -/

theorem findings_recastLine (before : String) (f : Fragment) (after : String) :
    (recastLine scope path before f after).findings =
      Site.findings scope.context (textAt path f) := by
  simp [recastLine, findings_recast, textAt]

theorem findings_exitLine (word : String) (loop : Option String) (condition : Option Fragment) :
    (exitLine scope path word loop condition).findings =
      findingsAt scope.context (condition.toList.map (textAt path)) := by
  cases condition <;> simp [exitLine, findings_recast, textAt]

theorem findings_returnLine (value : Option Fragment) :
    (returnLine scope path value).findings =
      findingsAt scope.context (value.toList.map (textAt path)) := by
  cases value with
  | none => cases hrow : scope.returnRow <;> simp [returnLine, hrow]
  | some f => simp [returnLine, findings_recastLine]

/-- Whether a template has what it asks for goes by the number of arguments, not by their texts. -/
theorem findings_callLine (name : String) (arguments : List Fragment) (offset : Nat) :
    (callLine scope path name arguments offset).findings =
      findingsAt scope.context
        (arguments.map (textAt path) ++ [⟨.call name arguments.length offset, some path⟩]) := by
  have harguments : (arguments.map (scope.recast (some path))).flatMap Draft.findings =
      findingsAt scope.context (arguments.map (textAt path)) := by
    rw [findingsAt_map, flatMap_map]
    rfl
  have hlength : ((arguments.map (scope.recast (some path))).map Draft.text).length =
      arguments.length := by
    rw [length_map, length_map]
  rw [findingsAt_append, ← harguments]
  simp only [callLine, Template.expand?_eq, hlength, findingsAt_cons, findingsAt_nil, append_nil,
    Site.findings, Part.remarks, Scope.mapping]
  cases scope.context.mapping.function? name with
  | none => rfl
  | some template =>
    simp only
    cases template.isServedBy arguments.length with
    | true => simp [Scope.findings]
    | false => rfl

theorem findings_raiseLine (name : Option String) (offset : Nat) :
    (raiseLine (scope.inside around) path name offset).findings =
      findingsAt scope.context
        (name.toList.map fun name => ⟨.raised around name offset, some path⟩) := by
  cases name with
  | none => rfl
  | some name =>
    rw [raiseLine_inside fun _ => Iff.rfl]
    simp only [Option.toList_some, map_cons, map_nil, findingsAt_cons, findingsAt_nil, append_nil,
      Site.findings, Part.remarks, Scope.mapping]
    cases meaning scope.context.mapping around name <;> rfl

theorem findings_simple (s : Simple) :
    (simple (scope.inside around) path s).findings =
      findingsAt scope.context (simpleSites around path s) := by
  cases s with
  | select | insert | update | delete | executeImmediate | cursor =>
    simp [simple, simpleSites, findings_recastLine]
  | assignment target value =>
    simp [simple, simpleSites, findings_recast, textAt]
  | exitLoop | continueLoop => exact findings_exitLine ..
  | returnValue => exact findings_returnLine ..
  | call => exact findings_callLine ..
  | raise => exact findings_raiseLine ..
  | label | null | raw => rfl

/-! ### Findings of all statements -/

/-- The sites of an inner list are those at which something is found when it is written. -/
structure Inner.FoundAt (scope : Scope) (inner : Inner) (sites : InnerSites) : Prop where
  path : inner.path = sites.1
  findings : ∀ around, (inner.output (scope.inside around)).findings =
    findingsAt scope.context (sites.2 around)

section Forms

variable {ι : Type} {g : ι → Inner} {g' : ι → InnerSites}

theorem findings_arm (word : String) {a : Arm ι} (h : Inner.FoundAt scope (g a.body) (g' a.body)) :
    (arm (scope.inside around) path word (a.map g)).findings =
      findingsAt scope.context (armSites around path (a.map g')) := by
  rw [arm, findings_append, findings_recastLine, findings_nested]
  exact congrArg (_ ++ ·) (h.findings around)

theorem findings_arms (word : String) {arms : List (Arm ι)}
    (h : ∀ a ∈ arms, Inner.FoundAt scope (g a.body) (g' a.body)) :
    (Output.concat ((arms.map (Arm.map g)).map (arm (scope.inside around) path word))).findings =
      findingsAt scope.context ((arms.map (Arm.map g')).flatMap (armSites around path)) := by
  rw [findings_concat, map_map, flatMap_map, flatMap_map, findingsAt_flatMap]
  exact flatMap_congr fun a ha => findings_arm word (h a ha)

theorem findings_elseBranch {otherwise : Option ι}
    (h : ∀ body ∈ otherwise, Inner.FoundAt scope (g body) (g' body)) :
    (elseBranch (scope.inside around) (otherwise.map g)).findings =
      findingsAt scope.context ((otherwise.map g').toList.flatMap (·.2 around)) := by
  cases otherwise with
  | none => rfl
  | some body => simpa [elseBranch] using (h body rfl).findings around

theorem findings_loopBody {body : ι} (h : Inner.FoundAt scope (g body) (g' body)) :
    (loopBody (scope.inside around) (g body)).findings =
      findingsAt scope.context ((g' body).2 around) := by
  simpa [loopBody] using h.findings around

theorem findings_condition (offset : Nat) (name : String) :
    (condition (scope.inside around) path offset name).findings =
      Site.findings scope.context ⟨.handled around name offset, some path⟩ := by
  rw [condition_inside fun _ => Iff.rfl, conditionAt]
  simp only [Site.findings, Part.remarks, Scope.mapping]
  split
  · rfl
  · cases meaning scope.context.mapping around name <;> rfl

theorem findings_handler (closing : List Statement → List Layout) {h : Handler ι}
    (hbody : Inner.FoundAt scope (g h.body) (g' h.body)) :
    (handler (scope.inside around) closing (h.map g)).findings =
      findingsAt scope.context (handlerSites around (h.map g')) := by
  have hnames : (handlerLine (scope.inside around) (h.map g)).findings =
      findingsAt scope.context
        (h.names.map fun name => ⟨.handled around name h.offset, some (g' h.body).1⟩) := by
    rw [findingsAt_map, ← hbody.path, handlerLine, flatMap_map]
    exact flatMap_congr fun name _ => findings_condition h.offset name
  rw [handler, findings_append, hnames, findings_nested, findings_append, findings_ofSteps,
    append_nil, handlerSites, findingsAt_append]
  exact congrArg (_ ++ ·) (hbody.findings around)

theorem findings_exceptionSection (closing : List Statement → List Layout)
    {handlers : List (Handler ι)} (unparsed : List Fragment)
    (h : ∀ handler ∈ handlers, Inner.FoundAt scope (g handler.body) (g' handler.body)) :
    (exceptionSection (scope.inside around) closing (handlers.map (Handler.map g))
        unparsed).findings =
      findingsAt scope.context
        ((ordered (handlers.map (Handler.map g'))).flatMap (handlerSites around)) := by
  have hwritten : ((ordered (handlers.map (Handler.map g))).map
        (handler (scope.inside around) closing)).flatMap findings =
      findingsAt scope.context
        ((ordered (handlers.map (Handler.map g'))).flatMap (handlerSites around)) := by
    rw [ordered_map (Handler.map g) (fun _ => rfl), ordered_map (Handler.map g') (fun _ => rfl),
      map_map, flatMap_map, flatMap_map, findingsAt_flatMap]
    exact flatMap_congr fun handler hhandler =>
      findings_handler closing (h handler (mem_ordered.1 hhandler))
  unfold exceptionSection
  split
  next hempty =>
    rw [List.isEmpty_map, List.isEmpty_iff] at hempty
    rw [hempty]
    rfl
  next => simpa [unparsedComments] using hwritten

theorem findings_block (around : List Declarations) (closing : List Statement → List Layout)
    {b : Block ι} (h : ∀ body ∈ (Form.block b).bodies, Inner.FoundAt scope (g body) (g' body)) :
    (block (scope.inside around) closing
        ⟨b.declarations, g b.body, b.handlers.map (Handler.map g), b.unparsed⟩).findings =
      findingsAt scope.context (blockSites around
        ⟨b.declarations, g' b.body, b.handlers.map (Handler.map g'), b.unparsed⟩) := by
  have hdeclared : (b.declarations.getD .empty).toList =
      b.declarations.toList.flatMap Declarations.toList := by
    cases b.declarations with
    | none => decide +kernel
    | some d => simp
  have hcomments : (if (b.handlers.map (Handler.map g)).isEmpty then unparsedComments b.unparsed
      else .empty).findings = [] := by
    split <;> rfl
  have hhandlers : ∀ handler ∈ b.handlers,
      Inner.FoundAt scope (g handler.body) (g' handler.body) :=
    fun handler hhandler => h _ (mem_cons_of_mem _ (mem_map_of_mem hhandler))
  simp only [block, blockSites, declaring_inside, findings_append, findings_line, findings_nested,
    findings_ofSteps, append_nil, findingsAt_append, hcomments, (h _ mem_cons_self).findings,
    findings_declareSection, hdeclared, findings_exceptionSection closing b.unparsed hhandlers]
  rfl

/-- A statement has the findings of its sites if its inner lists do. -/
theorem findings_form {f : Form ι} (h : ∀ body ∈ f.bodies, Inner.FoundAt scope (g body) (g' body)) :
    (form (scope.inside around) path (f.map g)).findings =
      findingsAt scope.context (formSites around path (f.map g')) := by
  cases f with
  | simple s => exact findings_simple s
  | conditional first others otherwise =>
    simp only [Form.bodies, cons_append, mem_cons, mem_append, mem_map, Option.mem_toList] at h
    simp only [Form.map, form, formSites, Output.findings_append, Output.findings_line, append_nil,
      flatMap_cons, findingsAt_append]
    rw [findings_arm "IF" (h _ (.inl rfl)),
      findings_arms "ELSIF" fun a ha => h _ (.inr (.inl ⟨a, ha, rfl⟩)),
      findings_elseBranch fun body hbody => h body (.inr (.inr hbody))]
  | selection selector arms otherwise =>
    have hselector : (caseLine (scope.inside around) path selector).findings =
        findingsAt scope.context (selector.toList.map (textAt path)) := by
      cases selector with
      | none => rfl
      | some selector => simp [caseLine, findings_recastLine]
    simp only [Form.bodies, mem_append, mem_map, Option.mem_toList] at h
    simp only [Form.map, form, formSites, Output.findings_append, Output.findings_line,
      Output.findings_nested, append_nil, findingsAt_append, hselector, List.append_assoc]
    rw [findings_arms "WHEN" fun a ha => h _ (.inl ⟨a, ha, rfl⟩),
      findings_elseBranch fun body hbody => h body (.inr hbody)]
  | queryLoop _ _ body
  | whileLoop _ body =>
    have hbody := h body (mem_singleton_self body)
    simp [Form.map, form, formSites, findings_recastLine, findings_loopBody hbody]
  | rangeLoop _ reverse lower upper body =>
    have hbody := h body (mem_singleton_self body)
    simp [Form.map, form, formSites, range, findings_recast, textAt, findings_loopBody hbody]
  | endlessLoop body =>
    have hbody := h body (mem_singleton_self body)
    simp [Form.map, form, formSites, findings_loopBody hbody]
  | block b => exact findings_block around (fun _ => []) h

end Forms

theorem statementSites_node (f : Form (List Statement)) (around : List Declarations)
    (path : String) :
    statementSites (.node f) around path =
      formSites around path ((f.label path).map fun entry => bodySites entry.1 entry.2) := by
  rw [statementSites, Statement.fold_node, Form.label_map, Form.map_map]
  rfl

theorem sites_body (path : String) (statements : List Statement) (around : List Declarations) :
    (bodySites path statements).2 around = statements.zipIdx.flatMap fun entry =>
      statementSites entry.1 around (Path.child path entry.2) := by
  simp [bodySites, innerSites, mapIdx_eq_zipIdx_map, zipIdx_map, flatMap_def, Function.comp_def]

theorem foundAt_body {statements : List Statement}
    (h : ∀ s ∈ statements, ∀ around path, (statement s (scope.inside around) path).findings =
      findingsAt scope.context (statementSites s around path)) :
    Inner.FoundAt scope (body path statements) (bodySites path statements) := by
  constructor
  case path => rfl
  case findings =>
    intro around
    rw [output_body, findings_concat, flatMap_map, sites_body, findingsAt_flatMap]
    exact flatMap_congr fun entry hentry =>
      h entry.1 (fst_mem_of_mem_zipIdx hentry) around _

/-- What is found when a statement is written is what is found at its sites. -/
theorem findings_statement (s : Statement) (around : List Declarations) (path : String) :
    (statement s (scope.inside around) path).findings =
      findingsAt scope.context (statementSites s around path) := by
  induction s using Statement.induction generalizing around path with
  | node form ih =>
    rw [statement_node, statementSites_node]
    exact findings_form fun entry hentry => foundAt_body (ih entry.2 (Form.snd_mem_bodies hentry))

/-! ### Findings of triggers -/

theorem findings_triggerLines (context : Recast.Context) (header : Header) :
    (triggerLines context (some header)).findings =
      findingsAt context (header.condition.toList.map fun f => ⟨.rowTest f, none⟩) := by
  cases hcondition : header.condition with
  | none => simp [triggerLines, headerCondition, hcondition]
  | some f => simp [triggerLines, headerCondition, hcondition, Site.findings, Part.remarks]

theorem findings_triggerBlock (t : Trigger) (hscope : scope.inside [] = scope) :
    (triggerBlock scope t).findings = findingsAt scope.context (triggerBlockSites t) := by
  let b : Block (String × List Statement) :=
    ⟨some t.declarations, ("", t.body), labelHandlers "" t.handlers, t.unparsed⟩
  have hbodies : ∀ list ∈ (Form.block b).bodies,
      Inner.FoundAt scope (body list.1 list.2) (bodySites list.1 list.2) :=
    fun list _ => foundAt_body fun s _ => findings_statement s
  have hblock := findings_block [] (trailingReturn scope) hbodies
  rw [hscope] at hblock
  exact hblock

/-- The findings made when a trigger is written are those at its sites, in their order. -/
theorem findings_output (mapping : Mapping) (options : Options) (t : Trigger) :
    (output mapping options t).findings =
      findingsAt (contextOf mapping t) (triggerSites options.wrap t) := by
  have hblock : (triggerBlock (scopeOf mapping options t) t).findings =
      findingsAt (contextOf mapping t) (triggerBlockSites t) := findings_triggerBlock t rfl
  cases hwrap : options.wrap with
  | block => simp only [output, hwrap, triggerSites, hblock]
  | function =>
    cases hheader : t.header with
    | none =>
      simp only [output, hwrap, triggerFunction, triggerSites, hheader, findings_append, hblock,
        findingsAt_cons]
      simp [functionName, triggerLines, Site.findings, Part.remarks, Scope.findings]
    | some header =>
      have hlines := findings_triggerLines (contextOf mapping t) header
      have hcontext : (scopeOf mapping options t).context = contextOf mapping t := rfl
      simp only [output, hwrap, triggerFunction, triggerSites, hheader, findings_append, hblock,
        findingsAt_append, hcontext, hlines]
      simp [functionName]

end TriggerDialect.Generate
