import TriggerDialect.Proofs.Accounting
import TriggerDialect.Proofs.Placement.Declarations

/-!
# Reading statements with moved offsets

A statement list is read in the same way when all offsets are moved (`statements_moved`): the same
statements are cut out and recognised, the same reports are made, and their offsets move along.
-/

namespace TriggerDialect.Grammar

open List Fragment Outcome

variable (r : Relocation) (path : String) (ts : List Token) {α : Type}

/-! ### Simple statements -/

theorem columnNames_moved (parts : List (List Token)) :
    columnNames (moved r parts) = columnNames parts := by
  rw [columnNames, moved_list, mapM_map]
  congr 1
  funext part
  match part with
  | [] => rfl
  | [t] => rfl
  | t :: u :: rest => rfl

@[simp] theorem skipIdentifier_moved :
    skipIdentifier (moved r ts) = moved r (skipIdentifier ts) := by
  cases ts with
  | nil => rfl
  | cons t rest =>
    simp only [moved_cons, skipIdentifier, toPiece_moved]
    split <;> rfl

theorem fragments_moved (parts : List (List Token)) :
    (moved r parts).map ofTokens = moved r (parts.map ofTokens) :=
  moved_map r fun part _ => ofTokens_moved r part

@[simp] theorem insertTarget_moved : insertTarget (moved r ts) = moved r (insertTarget ts) := by
  have hany : ∀ values : List Fragment,
      (moved r values).any isEmpty = values.any isEmpty := by
    intro values
    rw [moved_list, any_map]
    rfl
  simp only [insertTarget, eatWord?_moved]
  cases eatWord? "INTO" ts with
  | none => rfl
  | some rest =>
    simp only [moved_some, Option.bind_eq_bind, Option.bind_some, qualifiedName_moved]
    rcases qualifiedName rest with stuck | ⟨table, rest⟩
    · rfl
    simp only [moved_ok, moved_pair, Except.toOption, Option.bind_some, skipIdentifier_moved,
      bracketGroup_moved]
    rcases bracketGroup (skipIdentifier rest) with _ | ⟨columns, rest⟩
    · rfl
    simp only [moved_some, moved_pair, Option.bind_some, splitCommas_moved, columnNames_moved,
      eatWord?_moved]
    cases columnNames (splitCommas columns) with
    | none => rfl
    | some columns =>
      simp only [Option.bind_some]
      cases eatWord? "VALUES" rest with
      | none => rfl
      | some rest =>
        simp only [moved_some, Option.bind_some, bracketGroup_moved]
        rcases bracketGroup rest with _ | ⟨values, rest⟩
        · rfl
        simp only [moved_some, moved_pair, Option.bind_some, splitCommas_moved, fragments_moved,
          isEmpty_moved, length_moved, hany]
        split <;> rfl

@[simp] theorem raised_moved (offset : Nat) :
    raised (r.target offset) (moved r ts) = moved r (raised offset ts) := by
  cases ts with
  | nil => rfl
  | cons t rest =>
    have hname := qualifiedName_moved r (t :: rest)
    simp only [moved_cons, raised] at hname ⊢
    rw [hname]
    rcases qualifiedName (t :: rest) with stuck | ⟨name, _ | ⟨u, after⟩⟩ <;> rfl

@[simp] theorem loopLabel_moved : loopLabel (moved r ts) = moved r (loopLabel ts) := by
  cases ts with
  | nil => rfl
  | cons t rest =>
    simp only [moved_cons, loopLabel, toPiece_moved]
    split <;> rfl

@[simp] theorem exitClause_moved (word : String) :
    exitClause word (moved r ts) = moved r (exitClause word ts) := by
  simp only [exitClause, loopLabel_moved, fst_moved, snd_moved]
  cases (loopLabel ts).2 with
  | nil => rfl
  | cons t condition =>
    simp only [moved_cons, toPiece_moved, isEmpty_moved, ofTokens_moved]
    split <;> rfl

theorem exitStatement_moved (make : Option String → Option Fragment → Simple)
    (hmake : ∀ label condition, make label (moved r condition) = moved r (make label condition))
    (word : String) (ts : List Token) :
    exitStatement make word (moved r ts) = moved r (exitStatement make word ts) := by
  simp only [exitStatement, exitClause_moved]
  exact moved_map_except r fun entry => by simp [hmake]

@[simp] theorem cursorAction_moved (action : CursorAction) :
    cursorAction action (moved r ts) = moved r (cursorAction action ts) := by
  simp only [cursorAction, isEmpty_moved, ofTokens_moved]
  split <;> rfl

@[simp] theorem executeImmediate_moved :
    executeImmediate (moved r ts) = moved r (executeImmediate ts) := by
  cases ts with
  | nil => rfl
  | cons t rest =>
    simp only [moved_cons, executeImmediate, toPiece_moved, isEmpty_moved, ofTokens_moved]
    split <;> rfl

@[simp] theorem callArguments_moved (inner : List Token) :
    callArguments (moved r inner) = moved r (callArguments inner) := by
  simp only [callArguments, isEmpty_moved, splitCommas_moved, fragments_moved]
  split <;> rfl

@[simp] theorem procedureCall_moved (offset : Nat) :
    procedureCall (r.target offset) (moved r ts) = moved r (procedureCall offset ts) := by
  simp only [procedureCall, qualifiedName_moved]
  rcases qualifiedName ts with stuck | ⟨name, _ | ⟨t, after⟩⟩
  · rfl
  · rfl
  · have hgroup := bracketGroup_moved r (t :: after)
    have htext := render_moved r ((t :: after).take 3)
    rw [moved_list, map_take, ← moved_list] at htext
    simp only [moved_ok, moved_pair, moved_cons] at hgroup htext ⊢
    rw [hgroup, htext]
    rcases bracketGroup (t :: after) with _ | ⟨inner, _ | ⟨u, rest⟩⟩
    · rfl
    · simp only [moved_some, moved_pair, moved_nil, callArguments_moved]
      rfl
    · rfl

@[simp] theorem plainStatement_moved :
    plainStatement (moved r ts) = moved r (plainStatement ts) := by
  cases ts with
  | nil => rfl
  | cons t rest =>
    have hspan := spanAtDepth_moved r (·.isOp ":=") (t :: rest)
    have hcall := procedureCall_moved r (t :: rest) t.offset
    simp only [moved_cons, plainStatement, toPiece_moved, offset_moved] at hspan hcall ⊢
    rw [hspan, hcall]
    rcases spanAtDepth (·.isOp ":=") (t :: rest) with ⟨target, _ | ⟨sign, value⟩⟩
    · simp only [moved_pair, moved_nil]
      split <;> rfl
    · simp only [moved_pair, moved_cons, isEmpty_moved, ofTokens_moved]
      split <;> rfl

/-! ### Handlers -/

instance : Placed Slice where
  moved r slice := ⟨moved r slice.tokens, moved r slice.before⟩

instance : Placed HandlerSpan where
  moved r
    | .handler h => .handler (moved r h)
    | .unparsed reason text => .unparsed reason (moved r text)

instance : Placed HandlerSection where
  moved r found := ⟨moved r found.handlers, moved r found.unparsed, moved r found.after⟩

theorem splitAt_moved {p : Token → Bool} (hp : ∀ t, p (moved r t) = p t) (ts : List Token) :
    splitAt p (moved r ts) = moved r (splitAt p ts) := by
  induction ts with
  | nil => rfl
  | cons t rest ih =>
    simp only [moved_cons, splitAt, hp, ih]
    split
    · rfl
    · cases splitAt p rest <;> rfl

@[simp] theorem handlerNames_moved : handlerNames (moved r ts) = handlerNames ts := by
  have hany : ∀ parts : List (List Token),
      (moved r parts).any isEmpty = parts.any isEmpty := by
    intro parts
    simp [moved_list, Function.comp_def]
  have hrender : ∀ parts : List (List Token), (moved r parts).map render = parts.map render := by
    intro parts
    rw [moved_list, map_map]
    exact map_congr_left fun part _ => render_moved r part
  have hparts := splitAt_moved r (p := (·.isKeyword "OR")) (fun _ => rfl) ts
  simp only [handlerNames, hparts, hany, hrender]

@[simp] theorem handlerAfterWhen_moved (offset : Nat) :
    handlerAfterWhen (r.target offset) (moved r ts) = moved r (handlerAfterWhen offset ts) := by
  simp only [handlerAfterWhen, spanAtDepth_moved]
  rcases spanAtDepth (·.isKeyword "THEN") ts with ⟨front, _ | ⟨word, body⟩⟩
  · rfl
  · simp only [moved_pair, moved_cons, handlerNames_moved]
    cases handlerNames front <;> rfl

@[simp] theorem handlerSpan_moved (word : Token) :
    handlerSpan (moved r word) (moved r ts) = moved r (handlerSpan word ts) := by
  have htext := ofTokens_moved r (word :: ts)
  simp only [handlerSpan, offset_moved, handlerAfterWhen_moved, moved_cons] at htext ⊢
  rw [htext]
  cases handlerAfterWhen word.offset ts <;> rfl

@[simp] theorem handlersFrom_moved (word : Token) :
    handlersFrom (moved r word) (moved r ts) = moved r (handlersFrom word ts) := by
  fun_induction handlersFrom word ts with
  | case1 word ts span hspan =>
    rw [handlersFrom_eq, spanClause_moved, hspan]
    simp
  | case2 word ts span next rest hspan hlt ih =>
    rw [handlersFrom_eq, spanClause_moved, hspan]
    simp [ih]

@[simp] theorem textBefore_moved : textBefore (moved r ts) = moved r (textBefore ts) := by
  simp only [textBefore, isEmpty_moved, ofTokens_moved]
  split <;> rfl

@[simp] theorem handlerSpans_moved : handlerSpans (moved r ts) = moved r (handlerSpans ts) := by
  simp only [handlerSpans, spanClause_moved]
  rcases spanClause ["WHEN"] ts with ⟨front, _ | ⟨word, rest⟩⟩ <;> simp

@[simp] theorem withNotes_moved (pending : List Diagnostic) (spans : List HandlerSpan) :
    withNotes path (moved r pending) (moved r spans) = moved r (withNotes path pending spans) := by
  induction spans generalizing pending with
  | nil => rfl
  | cons span spans ih =>
    cases span with
    | handler h =>
      have hlater := ih []
      simp only [moved_cons, moved_nil] at hlater ⊢
      change (_ :: (withNotes path [] (moved r spans)).1, (withNotes path [] (moved r spans)).2) = _
      rw [hlater]
      rfl
    | unparsed reason text =>
      have hnote : unparsedNote path reason (moved r text) =
          moved r (unparsedNote path reason text) := rfl
      have hlater := ih (pending ++ [unparsedNote path reason text])
      rw [moved_append, moved_cons, ← hnote] at hlater
      exact hlater

theorem othersNotes_moved (handlers : List (Handler Slice)) :
    othersNotes (moved r handlers) = moved r (othersNotes handlers) := by
  have hdrop : (moved r handlers).dropWhile (fun h => !h.isOthers) =
      moved r (handlers.dropWhile fun h => !h.isOthers) := by
    rw [moved_list, dropWhile_map]
    rfl
  simp only [othersNotes, hdrop]
  generalize handlers.dropWhile (fun h => !h.isOthers) = left
  rcases left with _ | ⟨h, _ | ⟨next, rest⟩⟩ <;> rfl

theorem texts?_moved (spans : List HandlerSpan) :
    (moved r spans).filterMap HandlerSpan.text? = moved r (spans.filterMap HandlerSpan.text?) :=
  moved_filterMap r (fun span => by cases span <;> rfl) spans

@[simp] theorem readHandlers_moved :
    readHandlers path (moved r ts) = moved r (readHandlers path ts) := by
  have hnotes := withNotes_moved r path [] (handlerSpans ts)
  simp only [moved_nil] at hnotes
  simp only [readHandlers, handlerSpans_moved, hnotes, fst_moved, snd_moved, othersNotes_moved,
    texts?_moved, ← moved_append]
  rfl

/-! ### Branches and loops -/

instance : Placed Branches where
  moved r b := ⟨moved r b.first, moved r b.others, moved r b.otherwise⟩

instance : Placed Arms where
  moved r a := ⟨moved r a.arms, moved r a.otherwise⟩

instance : Placed Recognised where
  moved r found := ⟨moved r found.form, moved r found.after⟩

@[simp] theorem stripEnd_moved (word : String) :
    stripEnd word (moved r ts) = moved r (stripEnd word ts) := by
  simp only [stripEnd, ← moved_reverse]
  match ts.reverse with
  | [] => rfl
  | [t] => rfl
  | [last, before] =>
    simp only [moved_cons, moved_nil, toPiece_moved]
    split <;> rfl
  | last :: before :: first :: front =>
    simp only [moved_cons, toPiece_moved]
    split
    · simp
    · split
      · simp
      · rfl

@[simp] theorem conditionThen_moved (what : String) :
    conditionThen what (moved r ts) = moved r (conditionThen what ts) := by
  simp only [conditionThen, spanAtDepth_moved]
  rcases spanAtDepth (·.isKeyword "THEN") ts with ⟨condition, _ | ⟨word, rest⟩⟩
  · rfl
  · simp only [moved_pair, moved_cons, isEmpty_moved, ofTokens_moved]
    split <;> rfl

@[simp] theorem lastBranch_moved (first ts : List Token) :
    lastBranch (moved r first) (moved r ts) = moved r (lastBranch first ts) := by
  simp only [lastBranch, spanClause_moved]
  rcases spanClause ["ELSIF", "ELSE"] ts with ⟨body, _ | ⟨word, rest⟩⟩ <;> rfl

@[simp] theorem branches_moved : branches (moved r ts) = moved r (branches ts) := by
  fun_induction branches ts with
  | case1 ts body hspan =>
    rw [branches_eq, spanClause_moved, hspan]
    rfl
  | case2 ts body word rest hspan helsif reason hthen =>
    rw [branches_eq, spanClause_moved, hspan]
    simp [helsif, hthen]
  | case3 ts body word rest hspan helsif condition rest' hthen hlt ih =>
    rw [branches_eq, spanClause_moved, hspan]
    simp only [moved_pair, moved_cons, toPiece_moved, helsif, if_true, conditionThen_moved, hthen,
      moved_ok, ih]
    exact moved_map_except r fun _ => rfl
  | case4 ts body word rest hspan helsif =>
    rw [branches_eq, spanClause_moved, hspan]
    simp [helsif]

@[simp] theorem conditional_moved : conditional (moved r ts) = moved r (conditional ts) := by
  simp only [conditional, stripEnd_moved]
  cases stripEnd "IF" ts with
  | none => rfl
  | some inner =>
    simp only [moved_some, conditionThen_moved]
    rcases conditionThen "IF" inner with reason | ⟨condition, rest⟩
    · rfl
    · simp only [moved_ok, moved_pair, branches_moved]
      exact moved_map_except r fun _ => rfl

@[simp] theorem lastArm_moved : lastArm (moved r ts) = moved r (lastArm ts) := by
  simp only [lastArm, spanClause_moved]
  rcases spanClause ["WHEN", "ELSE"] ts with ⟨body, _ | ⟨word, rest⟩⟩ <;> rfl

@[simp] theorem arms_moved : arms (moved r ts) = moved r (arms ts) := by
  fun_induction arms ts with
  | case1 ts reason hthen =>
    rw [arms_eq, conditionThen_moved, hthen]
    rfl
  | case2 ts condition rest hthen body hspan =>
    rw [arms_eq, conditionThen_moved, hthen]
    simp only [moved_ok, moved_pair, spanClause_moved, hspan]
    rfl
  | case3 ts condition rest hthen body word rest' hspan helse =>
    rw [arms_eq, conditionThen_moved, hthen]
    simp only [moved_ok, moved_pair, spanClause_moved, hspan, moved_cons, toPiece_moved, helse,
      if_true, lastArm_moved]
    exact moved_map_except r fun _ => rfl
  | case4 ts condition rest hthen body word rest' hspan helse hlt ih =>
    rw [arms_eq, conditionThen_moved, hthen]
    simp only [moved_ok, moved_pair, spanClause_moved, hspan, moved_cons, toPiece_moved, helse,
      if_false, Bool.false_eq_true, ih]
    exact moved_map_except r fun _ => rfl

@[simp] theorem selection_moved : selection (moved r ts) = moved r (selection ts) := by
  simp only [selection, stripEnd_moved]
  cases stripEnd "CASE" ts with
  | none => rfl
  | some inner =>
    simp only [moved_some, spanAtDepth_moved]
    rcases spanAtDepth (·.isKeyword "WHEN") inner with ⟨front, _ | ⟨word, rest⟩⟩
    · rfl
    · simp only [moved_pair, moved_cons, isEmpty_moved, ofTokens_moved, arms_moved]
      refine moved_map_except r fun a => ?_
      cases front.isEmpty <;> rfl

@[simp] theorem loopParts_moved (what : String) :
    loopParts what (moved r ts) = moved r (loopParts what ts) := by
  simp only [loopParts, stripEnd_moved]
  cases stripEnd "LOOP" ts with
  | none => rfl
  | some inner =>
    simp only [moved_some, spanAtDepth_moved]
    rcases spanAtDepth (·.isKeyword "LOOP") inner with ⟨head, _ | ⟨word, body⟩⟩ <;> rfl

@[simp] theorem isReverse_moved : isReverse (moved r ts) = isReverse ts := by
  cases ts <;> rfl

@[simp] theorem lowerBound_moved : lowerBound (moved r ts) = moved r (lowerBound ts) := by
  simp only [lowerBound, isReverse_moved]
  split
  · exact (map_drop ..).symm
  · rfl

@[simp] theorem loopQuery_moved (head : List Token) :
    loopQuery (moved r head) = moved r (loopQuery head) := by
  simp only [loopQuery, bracketGroup_moved]
  rcases bracketGroup head with _ | ⟨inner, _ | ⟨t, rest⟩⟩ <;> simp

@[simp] theorem loopOver_moved (name : String) (head body : List Token) :
    loopOver name (moved r head) (moved r body) = moved r (loopOver name head body) := by
  simp only [loopOver, isEmpty_moved, spanAtDepth_moved]
  split
  · rfl
  · rcases spanAtDepth (·.isOp "..") head with ⟨front, _ | ⟨dots, upper⟩⟩
    · simp only [moved_pair, moved_nil, loopQuery_moved]
      rfl
    · simp only [moved_pair, moved_cons, lowerBound_moved, isReverse_moved, isEmpty_moved,
        ofTokens_moved]
      split <;> rfl

@[simp] theorem counted_moved : counted (moved r ts) = moved r (counted ts) := by
  match ts with
  | [] => rfl
  | [t] =>
    simp only [moved_cons, moved_nil, counted, toPiece_moved, countedIn]
    split <;> rfl
  | t :: u :: rest =>
    simp only [moved_cons, counted, countedIn, toPiece_moved, countedLoop, loopParts_moved]
    split
    · split
      · rcases loopParts "FOR" rest with reason | ⟨head, body⟩
        · rfl
        · exact loopOver_moved r t.text head body
      · rfl
    · rfl

@[simp] theorem whileLoop_moved : whileLoop (moved r ts) = moved r (whileLoop ts) := by
  simp only [whileLoop, loopParts_moved]
  rcases loopParts "WHILE" ts with reason | ⟨head, body⟩
  · rfl
  · simp only [moved_ok, moved_pair, isEmpty_moved, ofTokens_moved]
    split <;> rfl

@[simp] theorem endlessLoop_moved : endlessLoop (moved r ts) = moved r (endlessLoop ts) := by
  simp only [endlessLoop, stripEnd_moved]
  cases stripEnd "LOOP" ts <;> rfl

/-! ### Blocks -/

@[simp] theorem structureNote_moved (fault : StructureFault) :
    structureNote path (moved r fault) = moved r (structureNote path fault) := rfl

@[simp] theorem blockHandlers_moved (handlers : Option (List Token)) :
    blockHandlers path (moved r handlers) = moved r (blockHandlers path handlers) := by
  cases handlers with
  | none => rfl
  | some ts => exact readHandlers_moved r path ts

@[simp] theorem blockOf_moved (sections : Sections) :
    blockOf path (moved r sections) = moved r (blockOf path sections) := by
  obtain ⟨declarations, statements, handlers, label, trailing, warnings⟩ := sections
  have hdeclared : (moved r declarations).map readDeclarations =
      moved r (declarations.map readDeclarations) := moved_map_option r (readDeclarations_moved r)
  have hwarnings : (moved r warnings).map (structureNote path) =
      moved r (warnings.map (structureNote path)) := moved_map r fun _ _ => rfl
  have hfirst : (moved r (declarations.map readDeclarations)).map Prod.fst =
      moved r ((declarations.map readDeclarations).map Prod.fst) :=
    moved_map_option r fun _ => rfl
  have hsecond : ((moved r (declarations.map readDeclarations)).map Prod.snd).getD [] =
      moved r (((declarations.map readDeclarations).map Prod.snd).getD []) := by
    cases declarations <;> rfl
  have hleft :
      blockOf path (moved r ⟨declarations, statements, handlers, label, trailing, warnings⟩) =
      ⟨.block {
          declarations := ((moved r declarations).map readDeclarations).map Prod.fst
          body := ⟨moved r statements, (moved r warnings).map (structureNote path) ++
            (((moved r declarations).map readDeclarations).map Prod.snd).getD []⟩
          handlers := (blockHandlers path (moved r handlers)).handlers
          unparsed := (blockHandlers path (moved r handlers)).unparsed },
        (blockHandlers path (moved r handlers)).after⟩ := rfl
  rw [hleft, hdeclared, hwarnings, hfirst, hsecond, ← moved_append, blockHandlers_moved]
  rfl

@[simp] theorem block_moved : block path (moved r ts) = moved r (block path ts) := by
  simp only [block, Sections.split_moved]
  cases Sections.split ts with
  | error fault => rfl
  | ok sections =>
    have htrailing : (moved r sections).trailing.isEmpty = sections.trailing.isEmpty :=
      isEmpty_moved r sections.trailing
    simp only [moved_ok, htrailing, blockOf_moved]
    split <;> rfl

/-! ### All statements -/

@[simp] theorem quiet_moved (form : Form (List Token)) :
    quiet (moved r form) = moved r (quiet form) := by
  have hform : (moved r form).map (⟨·, []⟩ : List Token → Slice) =
      moved r (form.map (⟨·, []⟩)) := by
    rw [moved_form, moved_form, Form.map_relocate, Form.map_map, Form.map_map]
    rfl
  rw [quiet, hform]
  rfl

theorem map_quiet_moved (read : Except String (Form (List Token))) :
    (moved r read).map quiet = moved r (read.map quiet) :=
  moved_map_except r (quiet_moved r)

theorem map_simple_moved (read : Except String Simple) :
    (moved r read).map (fun s => quiet (.simple s)) =
      moved r (read.map fun s => quiet (.simple s)) :=
  moved_map_except r fun _ => rfl

@[simp] theorem leadOf_moved (t : Token) : leadOf (moved r t) = leadOf t := rfl

theorem recogniseLead_moved (lead : Lead) (t : Token) (rest : List Token) :
    recogniseLead path lead (moved r t) (moved r rest) =
      moved r (recogniseLead path lead t rest) := by
  have hwhole := ofTokens_moved r (t :: rest)
  rw [moved_cons] at hwhole
  cases lead with
  | conditional => simp only [recogniseLead, conditional_moved, map_quiet_moved]
  | selection => simp only [recogniseLead, selection_moved, map_quiet_moved]
  | counted => simp only [recogniseLead, counted_moved, map_quiet_moved]
  | whileLoop => simp only [recogniseLead, whileLoop_moved, map_quiet_moved]
  | endlessLoop => simp only [recogniseLead, endlessLoop_moved, map_quiet_moved]
  | block => exact block_moved r path (t :: rest)
  | select | update | delete =>
    simp only [recogniseLead, hwhole]
    rfl
  | insert =>
    simp only [recogniseLead, hwhole, insertTarget_moved]
    rfl
  | raise => simp only [recogniseLead, offset_moved, raised_moved, map_simple_moved]
  | null =>
    have hplain := plainStatement_moved r (t :: rest)
    rw [moved_cons] at hplain
    simp only [recogniseLead, isEmpty_moved, hplain, map_simple_moved]
    split <;> rfl
  | exitLoop =>
    simp [recogniseLead, exitStatement_moved r .exitLoop (fun _ _ => rfl), map_simple_moved]
  | continueLoop =>
    simp only [recogniseLead, toPiece_moved, exitStatement_moved r .continueLoop (fun _ _ => rfl),
      map_simple_moved]
  | returnValue =>
    simp only [recogniseLead, isEmpty_moved, ofTokens_moved]
    cases rest.isEmpty <;> rfl
  | cursor action => simp only [recogniseLead, cursorAction_moved, map_simple_moved]
  | execute => simp only [recogniseLead, executeImmediate_moved, map_simple_moved]

@[simp] theorem recognise_moved : recognise path (moved r ts) = moved r (recognise path ts) := by
  cases ts with
  | nil => exact map_simple_moved r (plainStatement [])
  | cons t rest =>
    have hplain := plainStatement_moved r (t :: rest)
    rw [moved_cons] at hplain
    simp only [moved_cons, recognise, leadOf_moved, recogniseLead_moved, hplain, map_simple_moved]
    cases leadOf t <;> rfl

/-! ### Statement lists -/

instance : Placed Piecewise where
  moved r
    | .label name => .label name
    | .statement span => .statement (moved r span)

instance {α : Type} [Placed α] : Placed (Outcome α) where
  moved r o := { o with value := moved r o.value, notes := moved r o.notes }

@[simp] theorem spanStatement_moved : spanStatement (moved r ts) = moved r (spanStatement ts) := by
  cases ts with
  | nil => rfl
  | cons t rest =>
    have hbegin := spanAtDepth_moved r (·.isKeyword "BEGIN") (t :: rest)
    have hend := spanAtDepth_moved r (·.isPunct ';') (t :: rest)
    simp only [moved_cons, spanStatement, toPiece_moved] at hbegin hend ⊢
    rw [hbegin, hend]
    split
    · rcases spanAtDepth (·.isKeyword "BEGIN") (t :: rest) with ⟨front, _ | ⟨word, body⟩⟩
      · rfl
      · have hbody := spanAtDepth_moved r (·.isPunct ';') (word :: body)
        simp only [moved_pair, moved_cons] at hbody ⊢
        rw [hbody]
        simp
    · rfl

@[simp] theorem leadingLabel?_moved : leadingLabel? (moved r ts) = moved r (leadingLabel? ts) := by
  match ts with
  | [] => rfl
  | [t] => rfl
  | [t, u] => rfl
  | opening :: name :: closing :: rest =>
    simp only [moved_cons, leadingLabel?, toPiece_moved]
    split <;> rfl

@[simp] theorem piecewise_moved : piecewise (moved r ts) = moved r (piecewise ts) := by
  fun_induction piecewise ts with
  | case1 ts name rest hlabel hlt ih =>
    rw [piecewise_eq, leadingLabel?_moved, hlabel]
    simp only [moved_some, moved_pair, ih]
    rfl
  | case2 ts hlabel span hspan hempty =>
    rw [piecewise_eq, leadingLabel?_moved, hlabel, spanStatement_moved, hspan]
    simp only [moved_none, moved_pair, moved_nil, isEmpty_moved, hempty, if_true]
  | case3 ts hlabel span hspan hempty =>
    rw [piecewise_eq, leadingLabel?_moved, hlabel, spanStatement_moved, hspan]
    simp only [moved_none, moved_pair, moved_nil, isEmpty_moved, hempty]
    rfl
  | case4 ts hlabel span semicolon rest hspan hlt hempty ih =>
    rw [piecewise_eq, leadingLabel?_moved, hlabel, spanStatement_moved, hspan]
    simp only [moved_none, moved_pair, moved_cons, isEmpty_moved, hempty, if_true, ih]
  | case5 ts hlabel span semicolon rest hspan hlt hempty ih =>
    rw [piecewise_eq, leadingLabel?_moved, hlabel, spanStatement_moved, hspan]
    simp only [moved_none, moved_pair, moved_cons, isEmpty_moved, hempty, ih]
    rfl

theorem after_moved [Placed α] (before : List Diagnostic) (o : Outcome α) :
    after (moved r before) (moved r o) = moved r (after before o) := by
  simp [Outcome.after, moved]

theorem all_moved [Placed α] (outcomes : List (Outcome α)) :
    Outcome.all (moved r outcomes) = moved r (Outcome.all outcomes) := by
  have hfound : total Outcome.found (moved r outcomes) = total Outcome.found outcomes := by
    induction outcomes with
    | nil => rfl
    | cons o outcomes ih =>
      rw [moved_cons, total_cons, total_cons, ih]
      rfl
  have hvalues : (moved r outcomes).map Outcome.value = moved r (outcomes.map Outcome.value) :=
    moved_map r fun _ _ => rfl
  have hnotes : (moved r outcomes).flatMap Outcome.notes =
      moved r (outcomes.flatMap Outcome.notes) :=
    moved_flatMap r fun _ _ => rfl
  simp only [Outcome.all, hfound, hvalues, hnotes]
  rfl

theorem assembled_moved (after : List Diagnostic) (form : Form (Outcome (List Statement))) :
    assembled (moved r after) (moved r form) = moved r (assembled after form) := by
  have hbodies : (moved r form).bodies = moved r form.bodies := by
    rw [moved_form, Form.bodies_relocate, Form.bodies_map]
    rfl
  have hfound : total found (moved r form.bodies) = total found form.bodies :=
    congrArg Outcome.found (all_moved r form.bodies)
  have hnotes : (moved r form.bodies).flatMap notes =
      moved r (form.bodies.flatMap notes) := moved_flatMap r fun _ _ => rfl
  have hunparsed : (moved r form).unparsedCount = form.unparsedCount := by
    cases form with
    | block b => exact length_moved r b.unparsed
    | _ => rfl
  have hvalue : Statement.node ((moved r form).map value) =
      moved r (Statement.node (form.map value)) := by
    rw [moved_node, moved_form, moved_form, Form.map_relocate, Form.map_map, Form.map_map]
    rfl
  simp only [assembled, hbodies, hfound, hnotes, hunparsed, hvalue, ← moved_append]
  rfl

@[simp] theorem keptVerbatim_moved (path reason : String) :
    keptVerbatim path reason (moved r ts) = moved r (keptVerbatim path reason ts) := by
  have hraw := moved_simple r (.raw (ofTokens ts))
  simp only [keptVerbatim, ofTokens_moved]
  exact congrArg (mk · _ 1) hraw.symm

@[simp] theorem unclosedNotes_moved (span : Span) :
    unclosedNotes path (moved r span) = moved r (unclosedNotes path span) := by
  obtain ⟨tokens, closed⟩ := span
  cases closed with
  | false =>
    simp only [unclosedNotes, moved_span, startOf_moved]
    rfl
  | true => rfl

theorem statementWith_moved {inner : String → List Token → Outcome (List Statement)} {path : String}
    {span : Span} (hinner : ∀ found, recognise path span.tokens = .ok found →
      ∀ slice ∈ found.form.bodies, ∀ place,
        inner place (moved r slice.tokens) = moved r (inner place slice.tokens)) :
    statementWith inner path (moved r span) = moved r (statementWith inner path span) := by
  simp only [statementWith, unclosedNotes_moved, tokens_moved, recognise_moved]
  rw [← after_moved]
  congr 1
  cases hread : recognise path span.tokens with
  | error reason => exact keptVerbatim_moved r span.tokens path reason
  | ok found =>
    change assembled (moved r found.after) (((moved r found.form).label path).map _) = _
    rw [← assembled_moved, moved_form, moved_form, Form.label_relocate, Form.label_map,
      Form.map_relocate, Form.map_map, Form.map_map]
    congr 2
    refine Form.map_congr fun entry hentry => ?_
    rw [← after_moved, ← hinner found hread entry.2 (Form.snd_mem_bodies hentry)]
    rfl

/-- A statement list is read in the same way when all offsets are moved. -/
@[simp] theorem statements_moved : statements path (moved r ts) = moved r (statements path ts) := by
  -- inner lists are shorter, so that the induction is on the number of tokens
  induction ts using shorterInduction generalizing path with
  | shorter ts ih =>
    have hpiece : ∀ piece ∈ piecewise ts, ∀ place,
        pieceWith statements place (moved r piece) =
          moved r (pieceWith statements place piece) := by
      intro piece hpiece place
      cases piece with
      | label name => exact congrArg (Outcome.mk · [] 1) (moved_simple r (.label name)).symm
      | statement span =>
        refine statementWith_moved r fun found hread slice hslice place => ?_
        have hshort := recognise_length hread slice hslice
        have hspan := piecewise_length hpiece
        exact ih slice.tokens (by omega) place
    rw [statements_eq, statements_eq, piecewise_moved, ← all_moved]
    congr 1
    apply ext_getElem
    · simp
    · intro i hleft hright
      simp only [moved_list, getElem_mapIdx, getElem_map]
      exact hpiece _ (getElem_mem _) _

end TriggerDialect.Grammar
