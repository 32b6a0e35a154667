import TriggerDialect.Proofs.Placement.Statements

/-!
# Reading triggers with moved offsets

A trigger is read in the same way when all offsets of its tokens are moved
(`triggerOfTokens_moved`). The one offset that does not move along is that of a header that breaks
off at the end of the tokens: it stands after the last of them.
-/

namespace TriggerDialect.Grammar

variable (r : Relocation) (header : Header) (ts : List Token)

/-! ### Headers -/

instance : Placed Timing := ⟨fun _ timing => timing⟩

instance : Placed Event := ⟨fun _ event => event⟩

instance : Placed RowName := ⟨fun _ row => row⟩

@[simp] theorem moved_events (events : List Event) : moved r events = events := List.map_id events

@[simp] theorem timing_moved : timing (moved r ts) = moved r (timing ts) := by
  cases ts with
  | nil => rfl
  | cons t rest =>
    simp only [moved_cons, timing, toPiece_moved, expectWord_moved]
    split
    · rfl
    · split
      · rfl
      · split
        · exact moved_map_except r fun _ => rfl
        · split <;> rfl

@[simp] theorem updateColumns_moved : updateColumns (moved r ts) = moved r (updateColumns ts) := by
  simp only [updateColumns, eatWord?_moved]
  cases eatWord? "OF" ts with
  | none => rfl
  | some rest =>
    simp only [moved_some, name_moved]
    rcases name rest with stuck | ⟨first, rest⟩
    · rfl
    · simp only [moved_ok, moved_pair, moreNames_moved]
      exact moved_map_except r fun _ => rfl

@[simp] theorem event_moved : event (moved r ts) = moved r (event ts) := by
  cases ts with
  | nil => rfl
  | cons t rest =>
    simp only [moved_cons, event, toPiece_moved, updateColumns_moved]
    split
    · rfl
    · split
      · exact moved_map_except r fun entry => by simp [moved]
      · split <;> rfl

@[simp] theorem events_moved : events (moved r ts) = moved r (events ts) := by
  fun_induction events ts with
  | case1 ts stuck hevent =>
    rw [events_eq, event_moved, hevent]
    rfl
  | case2 ts first rest hevent hor =>
    rw [events_eq, event_moved, hevent]
    simp only [moved_ok, moved_pair, eatWord?_moved, hor]
    rfl
  | case3 ts first rest hevent rest' hor hlt ih =>
    rw [events_eq, event_moved, hevent]
    simp only [moved_ok, moved_pair, eatWord?_moved, hor, moved_some, ih]
    exact moved_map_except r fun _ => rfl

@[simp] theorem rowName?_moved : rowName? (moved r ts) = moved r (rowName? ts) := by
  cases ts with
  | nil => rfl
  | cons t rest =>
    simp only [moved_cons, rowName?, toPiece_moved]
    repeat' split
    all_goals rfl

@[simp] theorem skipAs_moved : skipAs (moved r ts) = moved r (skipAs ts) := by
  simp only [skipAs, eatWord?_moved]
  cases eatWord? "AS" ts <;> rfl

@[simp] theorem withAlias_moved (row : RowName) (chosen : String) :
    withAlias (moved r header) row chosen = moved r (withAlias header row chosen) := by
  cases row <;> rfl

@[simp] theorem aliases_moved :
    aliases (moved r header) (moved r ts) = moved r (aliases header ts) := by
  fun_induction aliases header ts with
  | case1 header ts hrow =>
    rw [aliases_eq, rowName?_moved, hrow]
    rfl
  | case2 header ts row rest hrow stuck hname =>
    rw [aliases_eq, rowName?_moved, hrow]
    simp only [moved_some, moved_pair, skipAs_moved, name_moved, hname]
    rfl
  | case3 header ts row rest hrow chosen rest' hname hlt ih =>
    rw [aliases_eq, rowName?_moved, hrow]
    simp only [moved_some, moved_pair, skipAs_moved, name_moved, hname, moved_ok, ← ih]
    rw [← withAlias_moved]
    rfl

@[simp] theorem referencing_moved :
    referencing (moved r header) (moved r ts) = moved r (referencing header ts) := by
  have hsome : (moved r (rowName? ts)).isSome = (rowName? ts).isSome := by
    cases rowName? ts <;> rfl
  simp only [referencing, rowName?_moved, hsome, aliases_moved]
  split <;> rfl

@[simp] theorem eachRow_moved :
    eachRow (moved r header) (moved r ts) = moved r (eachRow header ts) := by
  simp only [eachRow, expectWord_moved]
  cases expectWord "EACH" ts with
  | error stuck => rfl
  | ok rest =>
    simp only [moved_ok, expectWord_moved]
    exact moved_map_except r fun _ => rfl

@[simp] theorem skipNames_moved :
    skipNames (moved r header) (moved r ts) = moved r (skipNames header ts) := by
  fun_induction skipNames header ts with
  | case1 ts stuck hname =>
    rw [skipNames_eq, qualifiedName_moved, hname]
    rfl
  | case2 ts text rest hname hcomma =>
    rw [skipNames_eq, qualifiedName_moved, hname]
    simp only [moved_ok, moved_pair, eatMark?_moved, hcomma]
    rfl
  | case3 ts text rest hname rest' hcomma hlt ih =>
    rw [skipNames_eq, qualifiedName_moved, hname]
    simp [hcomma, ih]

@[simp] theorem condition_moved :
    condition (moved r header) (moved r ts) = moved r (condition header ts) := by
  cases ts with
  | nil => rfl
  | cons t rest =>
    have hgroup := bracketGroup_moved r (t :: rest)
    simp only [moved_cons, condition, toPiece_moved] at hgroup ⊢
    rw [hgroup]
    split
    · rcases bracketGroup (t :: rest) with _ | ⟨inner, after⟩
      · rfl
      · simp only [moved_some, moved_pair, Fragment.ofTokens_moved]
        rfl
    · rfl

theorem optionReader?_moved {t : Token} {reader : Header → List Token → Reading Header}
    (hreader : optionReader? t = some reader) (header : Header) (ts : List Token) :
    reader (moved r header) (moved r ts) = moved r (reader header ts) := by
  unfold optionReader? at hreader
  repeat' split at hreader
  all_goals cases hreader
  · exact referencing_moved r header ts
  · exact eachRow_moved r header ts
  · exact skipNames_moved r header ts
  · rfl
  · exact condition_moved r header ts

@[simp] theorem options_moved :
    options (moved r header) (moved r ts) = moved r (options header ts) := by
  have hoption : ∀ t : Token, optionReader? (moved r t) = optionReader? t := fun _ => rfl
  induction ts using shorterInduction generalizing header with
  | shorter ts ih =>
    cases ts with
    | nil => simp [options]
    | cons t rest =>
      rw [moved_cons, options_cons, options_cons, hoption]
      cases hreader : optionReader? t with
      | none =>
        simp only [toPiece_moved]
        split <;> rfl
      | some reader =>
        simp only [optionReader?_moved r hreader]
        cases hread : reader header rest with
        | error stuck => rfl
        | ok found =>
          have hshort := optionReader?_length hreader hread
          exact ih found.2 (Nat.lt_succ_of_le hshort) found.1

@[simp] theorem orReplace_moved : orReplace (moved r ts) = moved r (orReplace ts) := by
  simp only [orReplace, eatWord?_moved]
  cases eatWord? "OR" ts with
  | none => rfl
  | some rest =>
    simp only [moved_some, expectWord_moved]
    exact moved_map_except r fun _ => rfl

@[simp] theorem skipEdition_moved : skipEdition (moved r ts) = moved r (skipEdition ts) := by
  simp only [skipEdition, eatWord?_moved]
  cases eatWord? "EDITIONABLE" ts with
  | some rest => rfl
  | none => cases eatWord? "NONEDITIONABLE" ts <;> rfl

theorem moved_bind {α β : Type} [Placed α] [Placed β] {f g : α → Except Stuck β}
    (e : Except Stuck α) (h : ∀ a, g (moved r a) = moved r (f a)) :
    (moved r e >>= g) = moved r (e >>= f) := by
  cases e with
  | error stuck => rfl
  | ok a => exact h a

@[simp] theorem triggerHeader_moved : triggerHeader (moved r ts) = moved r (triggerHeader ts) := by
  unfold triggerHeader
  rw [expectWord_moved]
  refine moved_bind r _ fun rest => ?_
  rw [orReplace_moved]
  refine moved_bind r _ fun (orReplace, rest) => ?_
  simp only [moved_pair, skipEdition_moved, expectWord_moved]
  refine moved_bind r _ fun rest => ?_
  rw [qualifiedName_moved]
  refine moved_bind r _ fun (name, rest) => ?_
  simp only [moved_pair, timing_moved]
  refine moved_bind r _ fun (timing, rest) => ?_
  simp only [moved_pair, events_moved]
  refine moved_bind r _ fun (events, rest) => ?_
  simp only [moved_pair, expectWord_moved, moved_events]
  refine moved_bind r _ fun rest => ?_
  rw [qualifiedName_moved]
  refine moved_bind r _ fun (table, rest) => ?_
  exact options_moved r ⟨name, orReplace, timing, events, table, false, none, none, none⟩ rest

theorem alike_moved_notes (notes : List Diagnostic) : Alike (moved r notes) notes := by
  have hnote : ∀ note : Diagnostic, moved .erase (moved r note) = moved .erase note := by
    rintro ⟨severity, stage, message, _ | offset, path⟩ <;> rfl
  simp [Alike, moved_list, hnote]

theorem dropWhile_moved :
    (moved r ts).dropWhile (fun t => !startsBlock t) =
      moved r (ts.dropWhile fun t => !startsBlock t) := by
  rw [moved_list, List.dropWhile_map]
  rfl

theorem readHeader_moved :
    (readHeader (moved r ts)).header = moved r (readHeader ts).header ∧
      (readHeader (moved r ts)).body = moved r (readHeader ts).body ∧
      Alike (readHeader (moved r ts)).notes (readHeader ts).notes := by
  cases ts with
  | nil => exact ⟨rfl, rfl, rfl⟩
  | cons t rest =>
    have hheader := triggerHeader_moved r (t :: rest)
    have hdrop := dropWhile_moved r (t :: rest)
    simp only [moved_cons, readHeader, toPiece_moved] at hheader hdrop ⊢
    split
    · rw [hheader, hdrop]
      cases triggerHeader (t :: rest) with
      | error stuck => exact ⟨rfl, rfl, rfl⟩
      | ok found => exact ⟨rfl, rfl, rfl⟩
    · exact ⟨rfl, rfl, rfl⟩

/-! ### Triggers -/

theorem handlerOutcomes_moved (path : String) (found : HandlerSection) :
    handlerOutcomes path (moved r found) = moved r (handlerOutcomes path found) := by
  have hlabels := labelHandlers_moved r path found.handlers
  change (labelHandlers path (moved r found.handlers)).map _ = _
  rw [hlabels]
  refine moved_map r fun h _ => ?_
  have hbody := after_moved r h.body.2.before (statements h.body.1 h.body.2.tokens)
  rw [← statements_moved] at hbody
  exact congrArg (fun body => Handler.mk h.name h.moreNames body (r.target h.offset)) hbody

theorem handlerSection_moved (path : String) (found : HandlerSection) :
    handlerSection path (moved r found) = moved r (handlerSection path found) := by
  have hvalues : (moved r (handlerOutcomes path found)).map (Handler.map Outcome.value) =
      moved r ((handlerOutcomes path found).map (Handler.map Outcome.value)) :=
    moved_map r fun _ _ => rfl
  have hnotes : (moved r (handlerOutcomes path found)).flatMap (fun h => h.body.notes) =
      moved r ((handlerOutcomes path found).flatMap fun h => h.body.notes) :=
    moved_flatMap r fun _ _ => rfl
  have hfound : total (fun h => h.body.found) (moved r (handlerOutcomes path found)) =
      total (fun h => h.body.found) (handlerOutcomes path found) := by
    rw [moved_list, total_map]
    rfl
  have hunparsed : (moved r found).unparsed.length = found.unparsed.length :=
    length_moved r found.unparsed
  simp only [handlerSection, handlerOutcomes_moved, hvalues, hnotes, hfound, hunparsed]
  change Outcome.mk _ (_ ++ moved r found.after) _ = _
  rw [← moved_append]
  rfl

@[simp] theorem sectionNotes_moved (sections : Sections) :
    sectionNotes (moved r sections) = moved r (sectionNotes sections) := by
  obtain ⟨declarations, statements, handlers, label, trailing, warnings⟩ := sections
  have hwarnings : (moved r warnings).map
      (fun fault => Diagnostic.warning .sections (some fault.offset) fault.message) =
      moved r (warnings.map fun fault => .warning .sections (some fault.offset) fault.message) :=
    moved_map r fun _ _ => rfl
  simp only [sectionNotes, moved_append, ← hwarnings]
  congr 1
  cases trailing with
  | nil => rfl
  | cons t rest =>
    have htext := render_moved r (t :: rest)
    rw [moved_cons] at htext
    change [Diagnostic.warning .sections (some (r.target t.offset))
      s!"ignored text after the terminal END: {render (moved r t :: moved r rest)}"] = _
    rw [htext]
    rfl

theorem triggerOf_moved {header header' : HeaderReading}
    (hheader : header'.header = moved r header.header) (hnotes : Alike header'.notes header.notes)
    (sections : Sections) :
    (triggerOf header' (moved r sections)).value = moved r (triggerOf header sections).value ∧
      Alike (triggerOf header' (moved r sections)).notes (triggerOf header sections).notes ∧
      (triggerOf header' (moved r sections)).found = (triggerOf header sections).found := by
  obtain ⟨declarations, statements, handlers, label, trailing, warnings⟩ := sections
  have hdeclared : ((moved r declarations).map readDeclarations).getD (.empty, []) =
      moved r ((declarations.map readDeclarations).getD (.empty, [])) := by
    cases declarations with
    | none => rfl
    | some ts => exact readDeclarations_moved r ts
  have hstatements := statements_moved r "" statements
  have hsection : handlerSection "" (blockHandlers "" (moved r handlers)) =
      moved r (handlerSection "" (blockHandlers "" handlers)) := by
    rw [blockHandlers_moved, handlerSection_moved]
  have hsections := sectionNotes_moved r
    ⟨declarations, statements, handlers, label, trailing, warnings⟩
  refine ⟨?_, ?_, ?_⟩
  · change Trigger.mk header'.header
      (((moved r declarations).map readDeclarations).getD (.empty, [])).1
      (Grammar.statements "" (moved r statements)).value
      (handlerSection "" (blockHandlers "" (moved r handlers))).value.1
      (handlerSection "" (blockHandlers "" (moved r handlers))).value.2 = _
    rw [hheader, hdeclared, hstatements, hsection]
    rfl
  · refine (((hnotes.append ?_).append ?_).append ?_).append ?_
    · rw [hsections]
      exact alike_moved_notes r _
    · change Alike (((moved r declarations).map readDeclarations).getD (.empty, [])).2 _
      rw [hdeclared]
      exact alike_moved_notes r _
    · change Alike (Grammar.statements "" (moved r statements)).notes _
      rw [hstatements]
      exact alike_moved_notes r _
    · change Alike (handlerSection "" (blockHandlers "" (moved r handlers))).notes _
      rw [hsection]
      exact alike_moved_notes r _
  · change (Grammar.statements "" (moved r statements)).found +
      (handlerSection "" (blockHandlers "" (moved r handlers))).found = _
    rw [hstatements, hsection]
    rfl

/-- A broken block is broken in the same way when all offsets are moved. -/
theorem triggerOfTokens_moved_error {ts : List Token} {fault : StructureFault}
    (h : triggerOfTokens ts = .error fault) :
    triggerOfTokens (moved r ts) = .error (moved r fault) := by
  obtain ⟨_, hbody, _⟩ := readHeader_moved r ts
  simp only [triggerOfTokens, hbody, Sections.split_moved] at h ⊢
  cases hsplit : Sections.split (readHeader ts).body with
  | error fault' =>
    rw [hsplit] at h
    cases h
    rfl
  | ok sections =>
    rw [hsplit] at h
    cases h

/-- A trigger is read in the same way when all offsets are moved. -/
theorem triggerOfTokens_moved {ts : List Token} {outcome : Outcome Trigger}
    (h : triggerOfTokens ts = .ok outcome) :
    ∃ outcome', triggerOfTokens (moved r ts) = .ok outcome' ∧
      outcome'.value = moved r outcome.value ∧ Alike outcome'.notes outcome.notes ∧
      outcome'.found = outcome.found := by
  obtain ⟨hheader, hbody, hnotes⟩ := readHeader_moved r ts
  simp only [triggerOfTokens, hbody, Sections.split_moved] at h ⊢
  cases hsplit : Sections.split (readHeader ts).body with
  | error fault =>
    rw [hsplit] at h
    cases h
  | ok sections =>
    rw [hsplit] at h
    cases h
    exact ⟨_, rfl, triggerOf_moved r hheader hnotes sections⟩

end TriggerDialect.Grammar
