import Mathlib.Data.List.TakeDrop
import TriggerDialect.Conversion
import TriggerDialect.Mapping.Defaults
import TriggerDialect.Proofs.Placement.Writing
import TriggerDialect.Proofs.Writing.Calls

/-!
# How trigger functions end

The body of a trigger function and each of its handlers end in `RETURN` or `RAISE`, by their last
statement or by a `RETURN` that is put after it. Whether it is put there is decided by the template
of a last call alone, also where the call has too few arguments and is not written by its template.
`closedBody_exits_iff` says that only such calls leave a body open.
-/

namespace TriggerDialect

open List Text

variable {blanks rest word : List Char} {row text : String} {template : Template} {s : Statement}
  {scope : Scope}

namespace Text

/-- Words end at blanks. -/
theorem nextWord_append (hblanks : ∀ c ∈ blanks, isBlank c) (hword : ∀ c ∈ word, isBlank c = false)
    (hne : word ≠ []) (hrest : ∀ c ∈ rest.head?, isBlank c) :
    nextWord (blanks ++ word ++ rest) = (word, rest) := by
  have htrim : trimStartChars (blanks ++ word ++ rest) = word ++ rest := by
    obtain ⟨c, word, rfl⟩ := exists_cons_of_ne_nil hne
    rw [trimStartChars, append_assoc, dropWhile_append_of_pos hblanks, cons_append,
      dropWhile_cons_of_neg (by simp [hword c mem_cons_self])]
  have hrest' : rest.takeWhile (!isBlank ·) = [] ∧ rest.dropWhile (!isBlank ·) = rest := by
    cases rest with
    | nil => exact ⟨rfl, rfl⟩
    | cons c rest => simp [hrest c rfl]
  have hinside : ∀ c ∈ word, (!isBlank c) := fun c hc => by rw [hword c hc, Bool.not_false]
  rw [nextWord, htrim, span_eq_takeWhile_dropWhile, takeWhile_append_of_pos hinside,
    dropWhile_append_of_pos hinside, hrest'.1, hrest'.2, append_nil]

/-- The blanks before the first word, the word, and what follows it. -/
theorem exists_nextWord (cs : List Char) :
    ∃ blanks, (∀ c ∈ blanks, isBlank c) ∧
      cs = blanks ++ (nextWord cs).1 ++ (nextWord cs).2 ∧
      (∀ c ∈ (nextWord cs).1, isBlank c = false) ∧
      ∀ c ∈ (nextWord cs).2.head?, isBlank c := by
  have hspan : nextWord cs = ((trimStartChars cs).takeWhile (!isBlank ·),
      (trimStartChars cs).dropWhile (!isBlank ·)) := span_eq_takeWhile_dropWhile _ _
  refine ⟨cs.takeWhile isBlank, fun c hc => all_eq_true.1 all_takeWhile c hc, ?_, ?_, ?_⟩
  · rw [hspan, append_assoc, takeWhile_append_dropWhile, trimStartChars, takeWhile_append_dropWhile]
  · intro c hc
    rw [hspan] at hc
    simpa using all_eq_true.1 all_takeWhile c hc
  · intro c hc
    rw [hspan] at hc
    have hhead := head?_dropWhile_not (!isBlank ·) (trimStartChars cs)
    rw [Option.mem_def.1 hc] at hhead
    simpa using hhead

end Text

namespace Generate

/-! ### Lines that control does not pass -/

/-- The first word of a line, which a semicolon may end as well. -/
def leadingWord (text : String) : String :=
  firstWord (String.ofList (text.toList.takeWhile (· != ';')))

/-- Whether a step is a `RETURN` or `RAISE` statement. -/
def isExit : Layout → Bool
  | .line text =>
    sameWord (leadingWord text) "RETURN" || sameWord (leadingWord text) "RAISE"
  | _ => false

/-- A word before a blank, as a line starts. -/
theorem leadingWord_eq {c : Char} (htext : text.toList = blanks ++ word ++ c :: rest)
    (hblanks : ∀ d ∈ blanks, isBlank d) (hword : ∀ d ∈ word, isBlank d = false ∧ d ≠ ';')
    (hne : word ≠ []) (hc : isBlank c) : leadingWord text = String.ofList word := by
  have hmark : ∀ d : Char, isBlank d → (d != ';') := by
    rintro d hd
    rw [bne_iff_ne]
    rintro rfl
    exact absurd hd (by decide)
  have hfront : ∀ d ∈ blanks ++ word, (d != ';') := by
    intro d hd
    rcases mem_append.1 hd with hd | hd
    · exact hmark d (hblanks d hd)
    · exact bne_iff_ne.2 (hword d hd).2
  have htake : text.toList.takeWhile (· != ';') =
      blanks ++ word ++ c :: rest.takeWhile (· != ';') := by
    rw [htext, takeWhile_append_of_pos hfront, takeWhile_cons, if_pos (hmark c hc)]
  have hnext : nextWord (blanks ++ word ++ c :: rest.takeWhile (· != ';')) = (word, _) :=
    nextWord_append hblanks (fun d hd => (hword d hd).1) hne (by simpa using hc)
  rw [leadingWord, firstWord, String.toList_ofList, htake, hnext]

/-- A line that starts with a word and a space. -/
theorem leadingWord_of_start {word : String}
    (hword : (word.toList.all fun d => !Text.isBlank d && d != ';')) (hne : word.toList ≠ [])
    (h : word.toList ++ [' '] <+: text.toList) : leadingWord text = word := by
  obtain ⟨rest, hrest⟩ := h
  have hinside : ∀ d ∈ word.toList, isBlank d = false ∧ d ≠ ';' := by
    simpa [all_eq_true] using hword
  have htext : text.toList = [] ++ word.toList ++ ' ' :: rest := by simp [← hrest]
  rw [leadingWord_eq htext (by simp) hinside hne (by decide), String.ofList_toList]

theorem isExit_of_return (h : "RETURN ".toList <+: text.toList) : isExit (.line text) := by
  have hword : leadingWord text = "RETURN" := leadingWord_of_start (by decide) (by decide) h
  rw [isExit, hword, sameWord_self, Bool.true_or]

theorem isExit_of_raise (h : "RAISE ".toList <+: text.toList) : isExit (.line text) := by
  have hword : leadingWord text = "RAISE" := leadingWord_of_start (by decide) (by decide) h
  rw [isExit, hword, sameWord_self, Bool.or_true]

theorem isExit_performLine (name : String) (texts : List String) :
    isExit (.line (performLine name texts)) = false := by
  have hword : leadingWord (performLine name texts) = "PERFORM" :=
    leadingWord_of_start (by decide) (by decide) (by simp [performLine])
  rw [isExit, hword]
  decide

/-! ### Templates that raise an exception -/

/-- The template starts with the word `RAISE` in some letter case and a blank. -/
theorem exists_of_raisesError (h : raisesError template) :
    ∃ blanks word c rest, template.source.toList = blanks ++ word ++ c :: rest ∧
      (∀ d ∈ blanks, isBlank d) ∧ (∀ d ∈ word, isBlank d = false) ∧
      isBlank c ∧ sameWord (String.ofList word) "RAISE" := by
  obtain ⟨hfirst, hsecond⟩ := Bool.and_eq_true_iff.1 h
  obtain ⟨blanks, hblanks, hsource, hword, hafter⟩ := exists_nextWord template.source.toList
  cases hrest : (nextWord template.source.toList).2 with
  | nil =>
    rw [secondWord, hrest] at hsecond
    exact absurd hsecond (by decide)
  | cons c rest =>
    rw [hrest] at hsource hafter
    exact ⟨blanks, _, c, rest, hsource, hblanks, hword, hafter c rfl, hfirst⟩

/-- A character that is its own capital and no letter of `RAISE` is not in the word. -/
theorem not_mem_of_raise {d : Char} (h : sameWord (String.ofList word) "RAISE")
    (hd : d.toUpper ∉ "RAISE".toList) : d ∉ word := by
  intro hmem
  have hupper : word.map Char.toUpper = "RAISE".toList := by
    have htexts := congrArg String.toList (beq_iff_eq.1 h)
    simpa using htexts
  exact hd (hupper ▸ mem_map_of_mem hmem)

/-- A call by a template that raises an exception is a `RAISE` statement. -/
theorem isExit_expandedLine {arguments : List String} (h : raisesError template)
    (htext : template.expand? arguments = some text) : isExit (.line (expandedLine text)) := by
  obtain ⟨blanks, word, c, rest, hsource, hblanks, hword, hc, hraise⟩ := exists_of_raisesError h
  have hne : word ≠ [] := by
    rintro rfl
    exact absurd hraise (by decide)
  have hbrace : '\x7b' ∉ blanks ++ word ++ [c] := by
    simp only [mem_append, mem_singleton, not_or]
    refine ⟨⟨fun hmem => absurd (hblanks _ hmem) (by decide), not_mem_of_raise hraise (by decide)⟩,
      ?_⟩
    rintro rfl
    exact absurd hc (by decide)
  have hsplit : template.source.toList = blanks ++ word ++ [c] ++ rest := by simp [hsource]
  obtain ⟨more, hmore⟩ := Template.isPrefix_of_expand? htext hsplit hbrace
  have hstarts : text.toList = blanks ++ word ++ c :: more := by simp [← hmore]
  have hfirst : firstWord text = String.ofList word := by
    rw [firstWord, hstarts, nextWord_append hblanks hword hne (by simpa using hc)]
  have hstatement : isStatementText text := by
    simp [isStatementText, hfirst, hraise]
  have hline : (text ++ ";").toList = blanks ++ word ++ c :: (more ++ [';']) := by simp [hstarts]
  have hinside : ∀ d ∈ word, isBlank d = false ∧ d ≠ ';' := by
    refine fun d hd => ⟨hword d hd, ?_⟩
    rintro rfl
    exact not_mem_of_raise hraise (by decide) hd
  have hleading := leadingWord_eq hline hblanks hinside hne hc
  rw [expandedLine, if_pos hstatement, isExit, hleading, hraise, Bool.or_true]

/-! ### Last statements -/

/-- Whether a statement is a call by a template that raises an exception, with too few arguments
for it. -/
def isShortRaise (mapping : Mapping) (s : Statement) : Bool :=
  match s.form with
  | .simple (.call name arguments _) =>
    (mapping.function? name).any fun template =>
      raisesError template && !template.isServedBy arguments.length
  | _ => false

theorem isShortRaise_of_not_leaves {mapping : Mapping} (h : leaves mapping s = false) :
    isShortRaise mapping s = false := by
  obtain ⟨form⟩ := s
  unfold leaves at h
  unfold isShortRaise
  split
  next name arguments offset heq =>
    rw [heq] at h
    cases hfound : mapping.function? name with
    | none => rfl
    | some template =>
      have hraises : raisesError template = false := by simpa [hfound] using h
      simp [hraises]
  next => rfl

/-- A statement that `leaves` is one line, which leaves unless it is a call with too few
arguments. -/
theorem exists_line_of_leaves (hrow : scope.returnRow = some row)
    (h : leaves scope.mapping s) (path : String) :
    ∃ text, (statement s scope path).steps = [.line text] ∧
      isExit (.line text) = !isShortRaise scope.mapping s := by
  obtain ⟨form⟩ := s
  rw [statement_node]
  unfold leaves at h
  split at h
  next value heq =>
    obtain rfl : form = .simple (.returnValue value) := heq
    cases value with
    | none =>
      refine ⟨"RETURN " ++ row ++ ";", ?_, isExit_of_return (by simp)⟩
      simp only [Form.label, Form.map, Generate.form, simple, returnLine, hrow]
      rfl
    | some value =>
      exact ⟨"RETURN " ++ (scope.recast (some path) value).text ++ ";", rfl,
        isExit_of_return (by simp)⟩
  next name offset heq =>
    obtain rfl : form = .simple (.raise name offset) := heq
    cases name with
    | none =>
      have hexit : isExit (.line "RAISE;") := by decide
      exact ⟨"RAISE;", rfl, hexit⟩
    | some name =>
      simp only [Form.label, Form.map, Generate.form, simple, raiseLine]
      split
      · exact ⟨_, rfl, isExit_of_raise (by simp [toString])⟩
      · split
        · exact ⟨_, rfl, isExit_of_raise (by simp [toString])⟩
        · exact ⟨_, rfl, isExit_of_raise (by simp [toString])⟩
  next name arguments offset heq =>
    obtain rfl : form = .simple (.call name arguments offset) := heq
    obtain ⟨template, hfound, hraises⟩ := (Option.any_eq_true _ _).1 h
    have hshort : isShortRaise scope.mapping (.node (.simple (.call name arguments offset))) =
        !template.isServedBy arguments.length := by
      simp [isShortRaise, Statement.form, hfound, hraises]
    simp only [Form.label, Form.map, Generate.form, simple]
    cases hserved : template.isServedBy arguments.length with
    | false =>
      refine ⟨_, steps_callLine_of_not_isServedBy hfound hserved, ?_⟩
      rw [isExit_performLine, hshort, hserved]
      rfl
    | true =>
      have hcount : template.isServedBy (callTexts scope path arguments).length := by
        rw [callTexts, length_map, hserved]
      have htext := Template.expand?_of_isServedBy hcount
      refine ⟨_, congrArg Output.steps (callLine_of_expand? hfound htext), ?_⟩
      rw [isExit_expandedLine hraises htext, hshort, hserved]
      rfl
  next => cases h

/-! ### Bodies -/

/-- A body with the `RETURN` that may follow it. -/
def closedBody (scope : Scope) (path : String) (statements : List Statement) : List Layout :=
  ((body path statements).output scope).steps ++ trailingReturn scope statements

theorem steps_body_concat (scope : Scope) (path : String) (front : List Statement) (s : Statement) :
    ((body path (front ++ [s])).output scope).steps =
      ((body path front).output scope).steps ++
        (statement s scope (Path.child path front.length)).steps := by
  simp [output_body, Output.concat, zipIdx_append]

/-- A body ends in `RETURN` or `RAISE` exactly if its last statement is no call with too few
arguments for the exception that it should raise. -/
theorem getLast?_closedBody (hrow : scope.returnRow = some row) (path : String)
    (statements : List Statement) :
    (closedBody scope path statements).getLast?.any isExit =
      !statements.getLast?.any (isShortRaise scope.mapping) := by
  cases hleaves : statements.getLast?.any (leaves scope.mapping) with
  | false =>
    have hshort : statements.getLast?.any (isShortRaise scope.mapping) = false := by
      cases hlast : statements.getLast? with
      | none => rfl
      | some s =>
        rw [hlast] at hleaves
        exact isShortRaise_of_not_leaves hleaves
    rw [closedBody, trailingReturn, hrow, hshort]
    simp only [hleaves, Bool.false_eq_true, if_false, getLast?_append_cons, getLast?_singleton,
      Option.any_some]
    exact isExit_of_return (by simp [toString])
  | true =>
    obtain ⟨s, hlast, hs⟩ := (Option.any_eq_true _ _).1 hleaves
    obtain ⟨front, rfl⟩ := getLast?_eq_some_iff.1 hlast
    obtain ⟨text, hsteps, hexit⟩ := exists_line_of_leaves hrow hs (Path.child path front.length)
    have htrailing : trailingReturn scope (front ++ [s]) = [] := by
      rw [trailingReturn, hrow, hleaves]
      rfl
    rw [closedBody, htrailing, append_nil, steps_body_concat, hsteps, getLast?_concat, hlast,
      Option.any_some, Option.any_some, hexit]

/-! ### Trigger functions -/

/-- The comments on text that is no handler. -/
def unparsedSteps (unparsed : List Fragment) : List Layout := (unparsedComments unparsed).steps

/-- A handler of a trigger. -/
def handlerSteps (scope : Scope) (h : Handler (String × List Statement)) : List Layout :=
  (handlerLine scope (h.map fun entry => body entry.1 entry.2)).steps ++
    Layout.nested (closedBody scope h.body.1 h.body.2)

/-- The exception section of a trigger. -/
def exceptionSteps (scope : Scope) (t : Trigger) : List Layout :=
  if t.handlers.isEmpty then []
  else
    .line "EXCEPTION" :: Layout.nested (unparsedSteps t.unparsed ++
      (ordered (labelHandlers "" t.handlers)).flatMap (handlerSteps scope))

/-- The declarations of a trigger. -/
def declareSteps (scope : Scope) (t : Trigger) : List Layout :=
  (declareSection scope t.declarations
    (t.body ++ t.handlers.flatMap Handler.body)).steps

/-- The block of a trigger. -/
def blockSteps (scope : Scope) (t : Trigger) : List Layout :=
  declareSteps scope t ++ [.line "BEGIN"] ++
    Layout.nested (closedBody scope "" t.body ++
      if t.handlers.isEmpty then unparsedSteps t.unparsed else []) ++
    exceptionSteps scope t ++ [.line "END;"]

/-- The handlers of a trigger with their output. -/
def writtenHandlers (t : Trigger) : List (Handler Inner) :=
  (labelHandlers "" t.handlers).map (Handler.map fun entry => body entry.1 entry.2)

theorem isEmpty_writtenHandlers (t : Trigger) :
    (writtenHandlers t).isEmpty = t.handlers.isEmpty := by
  cases h : t.handlers <;> simp [writtenHandlers, labelHandlers, h]

theorem steps_exceptionSection (scope : Scope) (t : Trigger) :
    (exceptionSection scope (trailingReturn scope) (writtenHandlers t) t.unparsed).steps =
      exceptionSteps scope t := by
  have hhandler : ∀ h : Handler (String × List Statement),
      (handler scope (trailingReturn scope) (h.map fun entry => body entry.1 entry.2)).steps =
        handlerSteps scope h := by
    intro h
    simp only [handler, Handler.map, statements_body]
    rfl
  rw [exceptionSection, exceptionSteps, isEmpty_writtenHandlers]
  split
  · rfl
  · have hordered : ordered (writtenHandlers t) = (ordered (labelHandlers "" t.handlers)).map
        (Handler.map fun entry => body entry.1 entry.2) :=
      ordered_map (Handler.map fun entry : String × List Statement => body entry.1 entry.2)
        (fun _ => rfl) _
    rw [hordered, map_map, ← funext hhandler, ← flatMap_map]
    rfl

/-- The block of a trigger function part by part, with each body and what closes it. -/
theorem steps_triggerBlock (scope : Scope) (t : Trigger) :
    (triggerBlock scope t).steps = blockSteps (scope.declaring t.declarations) t := by
  have hexceptions := steps_exceptionSection (scope.declaring t.declarations) t
  have hstatements : (writtenHandlers t).flatMap (fun h => h.body.statements) =
      t.handlers.flatMap Handler.body := statements_labelHandlers "" t.handlers
  have hempty := isEmpty_writtenHandlers t
  have hblock : triggerBlock scope t =
      block scope (trailingReturn scope)
        ⟨some t.declarations, body "" t.body, writtenHandlers t, t.unparsed⟩ := rfl
  rw [hblock, blockSteps, ← hexceptions, ← hempty, declareSteps, ← hstatements, closedBody]
  simp only [block, Option.getD_some, statements_body]
  split
  · rfl
  · rfl

/-- In a trigger function, the body and each handler end in `RETURN` or `RAISE` exactly if their
last statement is no call with too few arguments for the exception that it should raise. -/
theorem closedBody_exits_iff (mapping : Mapping) (options : Options) (t : Trigger)
    (h : options.wrap = .function) :
    let scope := (scopeOf mapping options t).declaring t.declarations
    (output mapping options t).steps =
        functionLines (functionName t.header).text
          (Layout.write options.indent (blockSteps scope t)) ++
        (triggerLines scope.context t.header).steps ∧
      ((closedBody scope "" t.body).getLast?.any isExit = true ↔
        t.body.getLast?.any (isShortRaise mapping) = false) ∧
      ∀ handler ∈ labelHandlers "" t.handlers,
        (closedBody scope handler.body.1 handler.body.2).getLast?.any isExit = true ↔
          handler.body.2.getLast?.any (isShortRaise mapping) = false := by
  intro scope
  have hrow : scope.returnRow = some (returnRow t.header) := by
    simp only [scope, Scope.declaring, scopeOf, h]
  have hexits : ∀ path statements, (closedBody scope path statements).getLast?.any isExit ↔
      statements.getLast?.any (isShortRaise mapping) = false := by
    intro path statements
    have hmapping : scope.mapping = mapping := rfl
    rw [getLast?_closedBody hrow, hmapping, Bool.not_eq_true']
  refine ⟨?_, hexits _ _, fun handler _ => hexits _ _⟩
  simp only [output, h, triggerFunction, steps_triggerBlock]
  rfl

/-- A trigger without a header. -/
def bareTrigger (body : List Statement) (handlers : List (Handler (List Statement))) : Trigger :=
  ⟨none, .empty, body, handlers, []⟩

/-- A call of `RAISE_APPLICATION_ERROR`. -/
def applicationError (arguments : List Fragment) : Statement :=
  .simple (.call "RAISE_APPLICATION_ERROR" arguments 0)

theorem closedBody_exits_handled :
    let options : Options := { Options.standard with wrap := .function }
    let t := bareTrigger [.simple .null]
      [⟨"OTHERS", [], [applicationError [⟨"-20001", 0⟩, ⟨"'x'", 0⟩]], 0⟩]
    let scope := (scopeOf .oracle options t).declaring t.declarations
    options.wrap = .function ∧ (closedBody scope "" t.body).getLast?.any isExit = true ∧
      ∀ handler ∈ labelHandlers "" t.handlers,
        (closedBody scope handler.body.1 handler.body.2).getLast?.any isExit = true := by
  intro options t scope
  have hhandlers : ∀ handler ∈ labelHandlers "" t.handlers,
      handler.body.2.getLast?.any (isShortRaise .oracle) = false := by decide +kernel
  have hexits := (closedBody_exits_iff .oracle options t rfl).2
  exact ⟨rfl, hexits.1.2 rfl, fun h hmem => (hexits.2 h hmem).2 (hhandlers h hmem)⟩

/-- A call with too few arguments is not written by its template, but no `RETURN` follows it. -/
theorem closedBody_open :
    (convert .oracle { Options.standard with wrap := .function }
        "BEGIN RAISE_APPLICATION_ERROR(-20001); END;").toOption.map Conversion.sql =
      some ("CREATE OR REPLACE FUNCTION trigger_fn()\nRETURNS trigger\nLANGUAGE plpgsql\nAS $$\n" ++
        "BEGIN\n    PERFORM RAISE_APPLICATION_ERROR(-20001);\nEND;\n$$;\n") := by
  decide +kernel

end Generate

end TriggerDialect
