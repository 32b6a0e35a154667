import Mathlib.Data.List.Forall2
import Mathlib.Data.List.Nodup
import TriggerDialect.Conversion
import TriggerDialect.Proofs.Mapping.Tables
import TriggerDialect.Proofs.Placement.Writing

/-!
# Declarations of loop variables

The variable of a loop over a query is declared as a record in the innermost block around the loop.
Loop variables are gathered by their exact spelling, and only the variables of the block count as
declared already, although names mean the same in any letter case. `records_declared_once_iff` says
for which triggers every loop variable is nevertheless declared once and no section declares a name
twice.
-/

namespace TriggerDialect

open List Text

variable {name : String} {statements : List Statement} {s : Statement}
  {entry : String × Statement} {b : Block Generate.Inner} {closing : List Statement → List Layout}
  {t : Trigger}

namespace Table

/-! ### Sorted texts -/

variable {α : Type}

theorem mem_keys_insertEntry {key : String} {value : α} {entries : List (String × α)} :
    name ∈ (insertEntry key value entries).map Prod.fst ↔
      name = key ∨ name ∈ entries.map Prod.fst := by
  induction entries with
  | nil => simp [insertEntry]
  | cons first entries ih =>
    unfold insertEntry
    split
    next => simp
    next =>
      split
      next heq => simp [heq]
      next =>
        rw [map_cons, mem_cons, ih, map_cons, mem_cons]
        exact or_left_comm

/-- Texts inserted into a table in order. -/
theorem foldl_insert_texts (texts : List String) {t : Table Unit} (h : Sorted t.entries) :
    let result := (texts.map fun text => (text, ())).foldl
      (fun t entry => t.insert entry.1 entry.2) t
    Sorted result.entries ∧
      ∀ name, name ∈ result.entries.map Prod.fst ↔
        name ∈ t.entries.map Prod.fst ∨ name ∈ texts := by
  induction texts generalizing t with
  | nil => exact ⟨h, fun name => by simp⟩
  | cons text texts ih =>
    obtain ⟨hsorted, hkeys⟩ := ih (t := t.insert text ()) (h.insertEntry text ())
    refine ⟨hsorted, fun name => (hkeys name).trans ?_⟩
    rw [insert, mem_keys_insertEntry, mem_cons, or_assoc, or_left_comm]

theorem mem_sortedTexts {texts : List String} : name ∈ sortedTexts texts ↔ name ∈ texts := by
  have hkeys := (foldl_insert_texts texts (t := .empty) .nil).2 name
  exact hkeys.trans (by simp [Table.empty])

theorem nodup_sortedTexts (texts : List String) : (sortedTexts texts).Nodup := by
  have hsorted := (foldl_insert_texts texts (t := .empty) .nil).1
  have hne : ∀ {a b : String × Unit}, a.1 < b.1 → a.1 ≠ b.1 :=
    fun hlt heq => String.lt_irrefl _ (heq ▸ hlt)
  exact pairwise_map.2 (hsorted.imp hne)

end Table

/-! ### Loops and the blocks around them -/

/-- Some loop over a query in the statements has this variable, with no block between. -/
inductive LoopIn (name : String) : List Statement → Prop where
  | here {statements : List Statement} {form : Form (List Statement)}
      (mem : .node form ∈ statements) (isVariable : name ∈ form.queryVariable) :
      LoopIn name statements
  | inside {statements body : List Statement} {form : Form (List Statement)}
      (mem : .node form ∈ statements) (noBlock : form.isBlock = false) (isBody : body ∈ form.bodies)
      (later : LoopIn name body) : LoopIn name statements

theorem LoopIn.of_mem_queryVariables (h : name ∈ s.queryVariables) (hs : s ∈ statements) :
    LoopIn name statements := by
  induction s using Statement.induction generalizing statements with
  | node form ih =>
    rw [Statement.queryVariables_node, mem_append] at h
    rcases h with h | h
    · exact .here hs h
    · split at h
      next => cases h
      next hblock =>
        obtain ⟨body, hbody, h⟩ := mem_flatMap.1 h
        obtain ⟨s, hmem, h⟩ := mem_flatMap.1 h
        exact .inside hs (Bool.not_eq_true _ ▸ hblock) hbody (ih body hbody s hmem h hmem)

/-- The loop variables that are gathered for a list of statements. -/
theorem mem_queryVariables_iff :
    name ∈ statements.flatMap Statement.queryVariables ↔ LoopIn name statements := by
  constructor
  · intro h
    obtain ⟨s, hs, h⟩ := mem_flatMap.1 h
    exact .of_mem_queryVariables h hs
  · intro h
    induction h with
    | here mem isVariable =>
      refine mem_flatMap.2 ⟨_, mem, ?_⟩
      rw [Statement.queryVariables_node]
      exact mem_append_left _ isVariable
    | @inside statements body form mem noBlock isBody _ ih =>
      refine mem_flatMap.2 ⟨_, mem, ?_⟩
      rw [Statement.queryVariables_node, noBlock]
      exact mem_append_right _ (mem_flatMap.2 ⟨body, isBody, ih⟩)

/-- The declarations of a block and the statements of its body and its handlers. -/
structure BlockParts where
  declarations : Declarations
  statements : List Statement

/-- The parts of a statement that is a block. -/
def Form.blockParts? : Form (List Statement) → Option BlockParts
  | .block b => some ⟨b.declarations.getD .empty, b.body ++ b.handlers.flatMap Handler.body⟩
  | _ => none

/-- The block of a trigger and all blocks inside it. -/
def Trigger.blockParts (t : Trigger) : List BlockParts :=
  ⟨t.declarations, t.body ++ t.handlers.flatMap Handler.body⟩ ::
    t.walk.filterMap fun entry => entry.2.form.blockParts?

theorem Form.exists_blockParts {form : Form (List Statement)} (h : form.isBlock) :
    ∃ parts, form.blockParts? = some parts ∧
      ∀ body ∈ form.bodies, ∀ s ∈ body, s ∈ parts.statements := by
  cases form with
  | block b =>
    refine ⟨_, rfl, fun body hbody s hs => ?_⟩
    rcases mem_cons.1 hbody with rfl | hbody
    · exact mem_append_left _ hs
    · obtain ⟨handler, hhandler, rfl⟩ := mem_map.1 hbody
      exact mem_append_right _ (mem_flatMap.2 ⟨handler, hhandler, hs⟩)
  | _ => cases h

/-- A loop inside a statement belongs to the list of the statement or to a block inside it. -/
theorem Statement.loop_cases (s : Statement) {path : String} (hentry : entry ∈ s.walk path)
    (hname : name ∈ entry.2.form.queryVariable) :
    name ∈ s.queryVariables ∨ ∃ visited ∈ s.walk path, ∃ parts,
      visited.2.form.blockParts? = some parts ∧ LoopIn name parts.statements := by
  induction s using Statement.induction generalizing path entry with
  | node form ih =>
    rw [queryVariables_node]
    rw [walk_node, mem_cons] at hentry
    rcases hentry with rfl | hentry
    · exact .inl (mem_append_left _ hname)
    obtain ⟨inner, hinner, hentry⟩ := mem_flatMap.1 hentry
    have hbody := Form.snd_mem_bodies hinner
    have hsub : ∀ visited ∈ walkList inner.1 inner.2, visited ∈ (node form).walk path := by
      intro visited hvisited
      rw [walk_node]
      exact mem_cons_of_mem _ (mem_flatMap.2 ⟨inner, hinner, hvisited⟩)
    rw [walkList_eq] at hentry hsub
    obtain ⟨numbered, hnumbered, hentry⟩ := mem_flatMap.1 hentry
    have hs := fst_mem_of_mem_zipIdx hnumbered
    rcases ih inner.2 hbody numbered.1 hs hentry hname with hvariable | ⟨visited, hvisited, hparts⟩
    · cases hblock : form.isBlock with
      | false =>
        exact .inl (mem_append_right _
          (mem_flatMap.2 ⟨inner.2, hbody, mem_flatMap.2 ⟨numbered.1, hs, hvariable⟩⟩))
      | true =>
        obtain ⟨parts, hparts, hmem⟩ := Form.exists_blockParts hblock
        refine .inr ⟨(path, node form), ?_, parts, hparts, ?_⟩
        · rw [walk_node]
          exact mem_cons_self
        · exact .of_mem_queryVariables hvariable (hmem _ hbody _ hs)
    · exact .inr ⟨visited, hsub _ (mem_flatMap.2 ⟨numbered, hnumbered, hvisited⟩), hparts⟩

/-! ### The names of a section -/

/-- The name that a declaration gives in the output, where exceptions and what could not be read are
comments. -/
def Declaration.writtenName? : Declaration → Option String
  | .ofVariable v => some v.name
  | .ofConstant c => some c.name
  | .ofCursor c => some c.name
  | .ofException _ => none
  | .ofRaw _ => none

namespace Declarations

/-- The names of the variables in upper case. -/
def variableKeys (d : Declarations) : List String := d.vars.map fun v => upper v.name

/-- The names of the constants and cursors in upper case. -/
def otherKeys (d : Declarations) : List String :=
  (d.constants.map fun c => upper c.name) ++ d.cursors.map fun c => upper c.name

/-- All declared names in upper case. -/
def keys (d : Declarations) : List String :=
  d.variableKeys ++ d.otherKeys ++ d.exceptions.map fun e => upper e.name

theorem perm_writtenNames (d : Declarations) :
    ((d.toList.filterMap Declaration.writtenName?).map upper).Perm
      (d.variableKeys ++ d.otherKeys) := by
  have hsorted : d.toList.Perm (d.vars.map .ofVariable ++ d.constants.map .ofConstant ++
      d.cursors.map .ofCursor ++ d.exceptions.map .ofException ++ d.raw.map .ofRaw) :=
    mergeSort_perm _ _
  refine ((hsorted.filterMap Declaration.writtenName?).map upper).trans (.of_eq ?_)
  simp [filterMap_map, Function.comp_def, Declaration.writtenName?, variableKeys, otherKeys]

end Declarations

namespace BlockParts

variable {p : BlockParts}

/-- The loop variables that the section declares. -/
def records (p : BlockParts) : List String := Generate.recordNames p.declarations p.statements

/-- The names that the section of the block declares, in order. -/
def sectionNames (p : BlockParts) : List String :=
  p.declarations.toList.filterMap Declaration.writtenName? ++ p.records

/-- The names that the section of the block declares, in upper case. -/
def sectionKeys (p : BlockParts) : List String := p.sectionNames.map upper

theorem perm_sectionKeys (p : BlockParts) :
    p.sectionKeys.Perm
      (p.declarations.variableKeys ++ p.declarations.otherKeys ++ p.records.map upper) := by
  rw [sectionKeys, sectionNames, map_append]
  exact p.declarations.perm_writtenNames.append_right _

theorem mem_records_iff :
    name ∈ p.records ↔
      LoopIn name p.statements ∧ upper name ∉ p.declarations.variableKeys := by
  simp [records, Generate.recordNames, Table.mem_sortedTexts, ← mem_queryVariables_iff,
    Declarations.variableKeys]

/-- Every loop variable is declared, as a variable of the block or as a record. -/
theorem upper_mem_sectionKeys (h : LoopIn name p.statements) : upper name ∈ p.sectionKeys := by
  rw [p.perm_sectionKeys.mem_iff]
  by_cases hdeclared : upper name ∈ p.declarations.variableKeys
  · exact mem_append_left _ (mem_append_left _ hdeclared)
  · exact mem_append_right _ (mem_map_of_mem (mem_records_iff.2 ⟨h, hdeclared⟩))

/-- Loop variables that are not declared have one spelling each, and none has the name of a constant
or a cursor. -/
structure LoopsApart (p : BlockParts) : Prop where
  oneSpelling : ∀ a b, LoopIn a p.statements → LoopIn b p.statements →
    upper a = upper b → upper a ∉ p.declarations.variableKeys → a = b
  noOther : ∀ a, LoopIn a p.statements → upper a ∉ p.declarations.otherKeys

instance (p : BlockParts) : Decidable p.LoopsApart :=
  let loops := p.statements.flatMap Statement.queryVariables
  decidable_of_iff ((∀ a ∈ loops, ∀ b ∈ loops, upper a = upper b →
      upper a ∉ p.declarations.variableKeys → a = b) ∧
      ∀ a ∈ loops, upper a ∉ p.declarations.otherKeys)
    ⟨fun h => ⟨fun a b ha hb => h.1 a (mem_queryVariables_iff.2 ha) b (mem_queryVariables_iff.2 hb),
      fun a ha => h.2 a (mem_queryVariables_iff.2 ha)⟩,
    fun h => ⟨fun a ha b hb =>
        h.oneSpelling a b (mem_queryVariables_iff.1 ha) (mem_queryVariables_iff.1 hb),
      fun a ha => h.noOther a (mem_queryVariables_iff.1 ha)⟩⟩

/-- A section declares no name twice exactly if the loop variables are apart. -/
theorem nodup_sectionKeys_iff (h : p.declarations.keys.Nodup) :
    p.sectionKeys.Nodup ↔ p.LoopsApart := by
  have hwritten := (nodup_append.1 h).1
  have hapart := (nodup_append.1 hwritten).2.2
  rw [p.perm_sectionKeys.nodup_iff]
  constructor
  · intro hnodup
    obtain ⟨_, hrecords, hdisjoint⟩ := nodup_append.1 hnodup
    constructor
    · intro a b ha hb heq hdeclared
      exact inj_on_of_nodup_map hrecords (mem_records_iff.2 ⟨ha, hdeclared⟩)
        (mem_records_iff.2 ⟨hb, heq ▸ hdeclared⟩) heq
    · intro a ha hother
      have hdeclared : upper a ∉ p.declarations.variableKeys :=
        fun hmem => hapart _ hmem _ hother rfl
      exact hdisjoint _ (mem_append_right _ hother) _
        (mem_map_of_mem (mem_records_iff.2 ⟨ha, hdeclared⟩)) rfl
  · intro hloops
    refine nodup_append.2 ⟨hwritten, ?_, ?_⟩
    · refine ((Table.nodup_sortedTexts _).filter _).map_on fun a ha b hb heq => ?_
      obtain ⟨ha, hdeclared⟩ := mem_records_iff.1 ha
      exact hloops.oneSpelling a b ha (mem_records_iff.1 hb).1 heq hdeclared
    · rintro key hkey _ hrecord rfl
      obtain ⟨a, ha, rfl⟩ := mem_map.1 hrecord
      obtain ⟨ha, hdeclared⟩ := mem_records_iff.1 ha
      rcases mem_append.1 hkey with hkey | hkey
      · exact hdeclared hkey
      · exact hloops.noOther a ha hkey

/-- Every loop variable is declared once and no name twice. -/
def DeclaresOnce (p : BlockParts) : Prop :=
  (∀ name, LoopIn name p.statements → p.sectionKeys.count (upper name) = 1) ∧
    p.sectionKeys.Nodup

theorem declaresOnce_iff (h : p.declarations.keys.Nodup) : p.DeclaresOnce ↔ p.LoopsApart := by
  rw [← nodup_sectionKeys_iff h]
  refine ⟨And.right, fun hnodup => ⟨fun name hname => ?_, hnodup⟩⟩
  exact count_eq_one_of_mem hnodup (upper_mem_sectionKeys hname)

end BlockParts

/-! ### The lines of a section -/

/-- The text of a line. -/
def Layout.line? : Layout → Option String
  | .line text => some text
  | _ => none

namespace Generate

/-- A line that declares a name starts with it. -/
def Introduces (line name : String) : Prop := (name ++ " ").toList <+: line.toList

theorem Introduces.append {a : Draft} (h : Introduces a.text name) (b : Draft) :
    Introduces (a ++ b).text name := by
  have htext : (a ++ b).text.toList = a.text.toList ++ b.text.toList := String.toList_append
  rw [Introduces, htext]
  exact h.trans (prefix_append _ _)

/-- A declaration is one line, which starts with its name, or a comment. -/
theorem introduces_declaration (scope : Scope) (d : Declaration) :
    List.Forall₂ Introduces ((declaration scope d).steps.filterMap Layout.line?)
      d.writtenName?.toList := by
  cases d with
  | ofVariable v =>
    have hname : Introduces (Draft.ofText (v.name ++ " ")).text v.name := prefix_rfl
    exact .cons ((((hname.append _).append _).append _).append _) .nil
  | ofConstant c =>
    have hname : Introduces (Draft.ofText (c.name ++ " CONSTANT ")).text c.name :=
      ⟨"CONSTANT ".toList, by simp [Draft.ofText]⟩
    exact .cons ((((hname.append _).append _).append _).append _) .nil
  | ofCursor c =>
    have hname : Introduces (Draft.ofText (c.name ++ " CURSOR")).text c.name :=
      ⟨"CURSOR".toList, by simp [Draft.ofText]⟩
    exact .cons ((((hname.append _).append _).append _).append _) .nil
  | ofException e => exact .nil
  | ofRaw text => exact .nil

theorem introduces_declarations (scope : Scope) (items : List Declaration) :
    List.Forall₂ Introduces
      ((items.flatMap fun d => (declaration scope d).steps).filterMap Layout.line?)
      (items.filterMap Declaration.writtenName?) := by
  induction items with
  | nil => exact .nil
  | cons d items ih =>
    have hname : [d].filterMap Declaration.writtenName? = d.writtenName?.toList := by
      cases d <;> rfl
    rw [flatMap_cons, filterMap_append, ← singleton_append, filterMap_append, hname]
    exact rel_append (introduces_declaration scope d) ih

theorem introduces_records (names : List String) :
    List.Forall₂ Introduces
      ((names.map fun name => Layout.line s!"{name} RECORD;").filterMap Layout.line?) names := by
  induction names with
  | nil => exact .nil
  | cons name names ih => exact .cons ⟨"RECORD;".toList, by simp [toString]⟩ ih

/-- After the word `DECLARE`, the lines of a section declare its names in order. -/
def DeclaresInOrder (steps : List Layout) (names : List String) : Prop :=
  ∃ head lines, steps.filterMap Layout.line? = head ++ lines ∧
    (head = [] ∨ head = ["DECLARE"]) ∧ List.Forall₂ Introduces lines names

theorem declareSection_declares (scope : Scope) (p : BlockParts) :
    DeclaresInOrder (declareSection scope p.declarations p.statements).steps p.sectionNames := by
  have hitems := introduces_declarations scope p.declarations.toList
  have hrecords := introduces_records p.records
  unfold declareSection
  simp only
  split
  next hempty =>
    rw [Bool.and_eq_true, List.isEmpty_iff, List.isEmpty_iff] at hempty
    obtain ⟨hnone, hnorecords⟩ := hempty
    refine ⟨[], [], rfl, .inl rfl, ?_⟩
    rw [BlockParts.sectionNames, BlockParts.records, hnone, hnorecords]
    exact .nil
  next =>
    refine ⟨["DECLARE"], _, ?_, .inr rfl, rel_append hitems hrecords⟩
    change filterMap Layout.line? ([.line "DECLARE"] ++ ([.indent] ++
      ((p.declarations.toList.map (declaration scope)).flatMap Output.steps ++
        p.records.map fun name => Layout.line s!"{name} RECORD;") ++ [.dedent])) = _
    simp only [filterMap_append, flatMap_map]
    exact congrArg (["DECLARE"] ++ ·) (append_nil _)

/-! ### Sections in the output -/

/-- One output is a part of another. -/
def Output.Within (part whole : Output) : Prop := part.steps <:+: whole.steps

namespace Output.Within

variable {part a b : Output}

theorem trans (h : part.Within a) (h' : a.Within b) : part.Within b := List.IsInfix.trans h h'

theorem append_left (h : part.Within a) : part.Within (a ++ b) :=
  List.IsInfix.trans h (prefix_append a.steps b.steps).isInfix

theorem append_right (h : part.Within b) : part.Within (a ++ b) :=
  List.IsInfix.trans h (suffix_append a.steps b.steps).isInfix

theorem nested (h : part.Within a) : part.Within a.nested :=
  List.IsInfix.trans h ⟨[.indent], [.dedent], rfl⟩

theorem concat {outputs : List Output} (ha : a ∈ outputs) (h : part.Within a) :
    part.Within (.concat outputs) := by
  refine List.IsInfix.trans h ?_
  change a.steps <:+: outputs.flatMap Output.steps
  rw [flatMap_def]
  exact infix_of_mem_flatten (mem_map_of_mem ha)

end Output.Within

variable {scope : Scope} {path : String} {inner : Inner}

theorem within_arms {word : String} {arms : List (Arm Inner)} (h : inner ∈ arms.map Arm.body) :
    (inner.output scope).Within (.concat (arms.map (arm scope path word))) := by
  obtain ⟨a, ha, rfl⟩ := mem_map.1 h
  exact .concat (mem_map_of_mem ha) (.append_right (.nested infix_rfl))

theorem within_elseBranch {otherwise : Option Inner} (h : inner ∈ otherwise.toList) :
    (inner.output scope).Within (elseBranch scope otherwise) := by
  obtain rfl : otherwise = some inner := Option.mem_toList.1 h
  exact .append_right (.nested infix_rfl)

theorem within_block (h : inner ∈ (Form.block b).bodies) :
    (inner.output (scope.declaring (b.declarations.getD .empty))).Within
      (block scope closing b) := by
  rcases mem_cons.1 h with rfl | h
  · refine .append_left (.append_left (.append_right (.nested ?_)))
    exact .append_left (.append_left infix_rfl)
  · obtain ⟨handler, hhandler, rfl⟩ := mem_map.1 h
    refine .append_left (.append_right ?_)
    rw [exceptionSection, if_neg (by simpa using ne_nil_of_mem hhandler)]
    refine .append_right (.nested (.append_right (.concat
      (mem_map_of_mem (mem_ordered.2 hhandler)) ?_)))
    exact .append_right (.nested (.append_left infix_rfl))

/-- The output of a statement holds that of each inner list. -/
theorem exists_within_form {form : Form Inner} (h : inner ∈ form.bodies) :
    ∃ scope', (inner.output scope').Within (Generate.form scope path form) := by
  cases form with
  | simple s => cases h
  | conditional first others otherwise =>
    refine ⟨scope, .append_left ?_⟩
    simp only [Form.bodies, cons_append, mem_cons, mem_append] at h
    rcases h with rfl | h | h
    · exact .append_left (.append_left (.append_right (.nested infix_rfl)))
    · exact .append_left (.append_right (within_arms h))
    · exact .append_right (within_elseBranch h)
  | selection selector arms otherwise =>
    refine ⟨scope, .append_left (.append_right (.nested ?_))⟩
    rcases mem_append.1 h with h | h
    · exact .append_left (within_arms h)
    · exact .append_right (within_elseBranch h)
  | queryLoop _ _ body
  | rangeLoop _ _ _ _ body
  | whileLoop _ body
  | endlessLoop body =>
    obtain rfl : inner = body := mem_singleton.1 h
    exact ⟨scope, .append_right (.append_left (.nested infix_rfl))⟩
  | block b =>
    refine ⟨scope.declaring (b.declarations.getD .empty), ?_⟩
    rw [Generate.form]
    exact within_block h

/-- The section of the block is written somewhere in the output. -/
def IsSectionIn (whole : Output) (p : BlockParts) : Prop :=
  ∃ scope, (declareSection scope p.declarations p.statements).Within whole

theorem IsSectionIn.mono {part whole : Output} {p : BlockParts} (h : IsSectionIn part p)
    (hpart : part.Within whole) : IsSectionIn whole p :=
  h.imp fun _ hscope => hscope.trans hpart

/-- The section of a block is written at its start. -/
theorem isSectionIn_block (hdeclarations : b.declarations.getD .empty = p.declarations)
    (hstatements : b.body.statements ++ b.handlers.flatMap (fun h => h.body.statements) =
      p.statements) : IsSectionIn (block scope closing b) p := by
  refine ⟨scope.declaring (b.declarations.getD .empty), ?_⟩
  rw [← hdeclarations, ← hstatements]
  exact .append_left (.append_left (.append_left (.append_left infix_rfl)))

theorem within_body {i : Nat} (h : (s, i) ∈ statements.zipIdx) :
    (statement s scope (Path.child path i)).Within ((body path statements).output scope) := by
  rw [output_body]
  exact .concat (mem_map.2 ⟨(s, i), h, rfl⟩) infix_rfl

/-- The output of a statement holds that of every statement inside. -/
theorem exists_within_walk (s : Statement) (h : entry ∈ s.walk path) :
    ∃ scope', (statement entry.2 scope' entry.1).Within (statement s scope path) := by
  induction s using Statement.induction generalizing scope path entry with
  | node form ih =>
    rw [Statement.walk_node, mem_cons] at h
    rcases h with rfl | h
    · exact ⟨scope, infix_rfl⟩
    · obtain ⟨labelled, hlabelled, h⟩ := mem_flatMap.1 h
      rw [Statement.walkList_eq] at h
      obtain ⟨⟨s, i⟩, hnumbered, h⟩ := mem_flatMap.1 h
      have hs := fst_mem_of_mem_zipIdx hnumbered
      have hinner : body labelled.1 labelled.2 ∈
          ((form.label path).map fun entry => body entry.1 entry.2).bodies := by
        rw [Form.bodies_map]
        exact mem_map_of_mem hlabelled
      rw [statement_node]
      obtain ⟨inside, hwithin⟩ : ∃ inside, ((body labelled.1 labelled.2).output inside).Within
          (Generate.form scope path ((form.label path).map fun entry => body entry.1 entry.2)) :=
        exists_within_form hinner
      obtain ⟨scope', hfound⟩ : ∃ scope', (statement entry.2 scope' entry.1).Within
          (statement s inside (Path.child labelled.1 i)) :=
        ih labelled.2 (Form.snd_mem_bodies hlabelled) s hs h
      exact ⟨scope', hfound.trans ((within_body hnumbered).trans hwithin)⟩

/-- The section of a block is written with the block. -/
theorem isSectionIn_statement (hparts : s.form.blockParts? = some p) :
    IsSectionIn (statement s scope path) p := by
  obtain ⟨form⟩ := s
  rw [statement_node]
  cases form with
  | block b =>
    cases hparts
    rw [Form.label, Form.map, Generate.form]
    refine isSectionIn_block rfl ?_
    simp only [statements_body, statements_labelHandlers]
  | _ => cases hparts

end Generate

/-! ### Triggers -/

namespace Trigger

variable {t : Trigger} {entry : String × Statement}

theorem mem_walk_iff :
    entry ∈ t.walk ↔ ∃ list ∈ t.lists, ∃ numbered ∈ list.2.zipIdx,
      entry ∈ numbered.1.walk (Path.child list.1 numbered.2) := by
  simp only [walk_eq_flatMap_lists, Statement.walkList_eq, mem_flatMap]

theorem mem_statements {list : String × List Statement} (h : list ∈ t.lists) (hs : s ∈ list.2) :
    s ∈ t.body ++ t.handlers.flatMap Handler.body := by
  rcases mem_cons.1 h with rfl | h
  · exact mem_append_left _ hs
  · obtain ⟨labelled, hlabelled, rfl⟩ := mem_map.1 h
    have hhandler : labelled.map Prod.snd ∈ t.handlers := by
      rw [← map_snd_labelHandlers "" t.handlers]
      exact mem_map_of_mem hlabelled
    exact mem_append_right _ (mem_flatMap.2 ⟨_, hhandler, hs⟩)

/-- Every loop over a query belongs to a block. -/
theorem exists_block_of_loop (hentry : entry ∈ t.walk) (hname : name ∈ entry.2.form.queryVariable) :
    ∃ p ∈ t.blockParts, LoopIn name p.statements := by
  obtain ⟨list, hlist, numbered, hnumbered, hwalk⟩ := mem_walk_iff.1 hentry
  have hs := fst_mem_of_mem_zipIdx hnumbered
  rcases numbered.1.loop_cases hwalk hname with hvariable | ⟨visited, hvisited, p, hparts, hloop⟩
  · exact ⟨_, mem_cons_self, .of_mem_queryVariables hvariable (mem_statements hlist hs)⟩
  · have hmem : visited ∈ t.walk := mem_walk_iff.2 ⟨list, hlist, numbered, hnumbered, hvisited⟩
    exact ⟨p, mem_cons_of_mem _ (mem_filterMap.2 ⟨visited, hmem, hparts⟩), hloop⟩

end Trigger

namespace Generate

/-- The output of a trigger holds that of every statement inside. -/
theorem exists_within_triggerBlock (scope : Scope) (h : entry ∈ t.walk) :
    ∃ scope', (statement entry.2 scope' entry.1).Within (triggerBlock scope t) := by
  obtain ⟨list, hlist, numbered, hnumbered, hwalk⟩ := Trigger.mem_walk_iff.1 h
  have hbody : body list.1 list.2 ∈ (Form.block ⟨some t.declarations, body "" t.body,
      (labelHandlers "" t.handlers).map (Handler.map fun entry => body entry.1 entry.2),
      t.unparsed⟩).bodies := by
    rw [Form.bodies, map_map]
    rcases mem_cons.1 hlist with rfl | hlist
    · exact mem_cons_self
    · obtain ⟨labelled, hlabelled, rfl⟩ := mem_map.1 hlist
      exact mem_cons_of_mem _ (mem_map.2 ⟨labelled, hlabelled, rfl⟩)
  obtain ⟨scope', hfound⟩ := exists_within_walk numbered.1 hwalk
  exact ⟨scope', hfound.trans ((within_body hnumbered).trans (within_block hbody))⟩

/-- The section of each block is written. -/
theorem isSectionIn_triggerBlock (scope : Scope) (hp : p ∈ t.blockParts) :
    IsSectionIn (triggerBlock scope t) p := by
  rcases mem_cons.1 hp with rfl | hp
  · refine isSectionIn_block rfl ?_
    simp only [statements_body, statements_labelHandlers]
  · obtain ⟨visited, hvisited, hparts⟩ := mem_filterMap.1 hp
    obtain ⟨scope', hwithin⟩ := exists_within_triggerBlock scope hvisited
    exact (isSectionIn_statement hparts).mono hwithin

/-- For a trigger whose blocks declare different names, the sections in the output declare every
loop variable in its innermost block, and they do so once and declare no name twice exactly if the
loop variables of each block are apart. -/
theorem records_declared_once_iff (mapping : Mapping) (options : Options) (t : Trigger)
    (h : ∀ p ∈ t.blockParts, p.declarations.keys.Nodup) :
    (∀ p ∈ t.blockParts, ∃ scope,
      (declareSection scope p.declarations p.statements).Within
          (triggerBlock (scopeOf mapping options t) t) ∧
        DeclaresInOrder (declareSection scope p.declarations p.statements).steps p.sectionNames) ∧
    (∀ entry ∈ t.walk, ∀ name ∈ entry.2.form.queryVariable,
      ∃ p ∈ t.blockParts, LoopIn name p.statements) ∧
    (∀ p ∈ t.blockParts, ∀ name, LoopIn name p.statements → upper name ∈ p.sectionKeys) ∧
    ((∀ p ∈ t.blockParts, p.DeclaresOnce) ↔ ∀ p ∈ t.blockParts, p.LoopsApart) := by
  refine ⟨fun p hp => ?_, fun entry hentry name hname => t.exists_block_of_loop hentry hname,
    fun p _ name hname => BlockParts.upper_mem_sectionKeys hname, ?_⟩
  · obtain ⟨scope, hwithin⟩ := isSectionIn_triggerBlock (scopeOf mapping options t) hp
    exact ⟨scope, hwithin, declareSection_declares scope p⟩
  · exact forall₂_congr fun p hp => BlockParts.declaresOnce_iff (h p hp)

/-- A loop over a declared variable, and one in a block inside it. -/
def nestedLoops : Trigger where
  header := none
  declarations := ⟨[⟨"r", ⟨"NUMBER", [], none⟩, none, false, 0⟩], [], [], [], []⟩
  body := [.node (.queryLoop "R" ⟨"SELECT 1 FROM t", 0⟩
    [.node (.block ⟨none, [.node (.queryLoop "s" ⟨"WITH q AS (SELECT 2) SELECT * FROM q", 0⟩ [])],
      [], []⟩)])]
  handlers := []
  unparsed := []

theorem records_declared_once_nested :
    nestedLoops.blockParts.map BlockParts.sectionNames = [["r"], ["s"]] ∧
      ∀ p ∈ nestedLoops.blockParts, p.DeclaresOnce := by
  have hkeys : ∀ p ∈ nestedLoops.blockParts, p.declarations.keys.Nodup := by decide +kernel
  have hloops : ∀ p ∈ nestedLoops.blockParts, p.LoopsApart := by decide +kernel
  refine ⟨by decide +kernel, ?_⟩
  exact (records_declared_once_iff .oracle .standard nestedLoops hkeys).2.2.2.2 hloops

/-- Two loops that differ in the letter case of their variables. -/
theorem records_declared_twice :
    (convert .oracle .standard ("BEGIN FOR r IN (SELECT 1 FROM t) LOOP NULL; END LOOP; " ++
        "FOR R IN (SELECT 2 FROM t) LOOP NULL; END LOOP; END;")).toOption.map Conversion.sql =
      some ("DECLARE\n    R RECORD;\n    r RECORD;\nBEGIN\n" ++
        "    FOR r IN SELECT 1 FROM t LOOP\n        NULL;\n    END LOOP;\n" ++
        "    FOR R IN SELECT 2 FROM t LOOP\n        NULL;\n    END LOOP;\nEND;\n") := by
  decide +kernel

end Generate

end TriggerDialect
