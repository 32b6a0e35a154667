import TriggerDialect.Proofs.Accounting

/-!
# Reports and what could not be read

Nothing is given up in silence. The warnings that a statement is kept verbatim name the raw
statements of the tree, in the order of a walk, and the errors count the texts among handlers that
are no handlers. No report names a statement that the tree does not have, so that a statement which
is given up after some of its branches were read leaves nothing else behind (`trigger_reports`).
-/

namespace TriggerDialect

open List

variable {k : Nat} {stage : Stage} {notes : List Diagnostic} {path : String} {s : Simple}
  {ts : List Token} {r : Recognised}

variable {α β : Type} {form : Form β}

/-- Whether the report says that a statement is kept as it stands. -/
def Diagnostic.keepsVerbatim (d : Diagnostic) : Bool :=
  d.stage == .statement && "; kept verbatim".toList.isSuffixOf d.message.toList

/-- The text of a statement that could not be read. -/
def Form.rawText? : Form β → Option Fragment
  | .simple (.raw text) => some text
  | _ => none

/-- The paths and offsets that reports on statements kept as they stand give. -/
def keptPlaces (notes : List Diagnostic) : List (Option String × Option Nat) :=
  (notes.filter Diagnostic.keepsVerbatim).map fun d => (d.path, d.offset)

/-- The paths of the raw statements that a walk visits, and the offsets of their texts. -/
def rawPlaces (walk : List (String × Statement)) : List (Option String × Option Nat) :=
  walk.filterMap fun entry =>
    entry.2.form.rawText?.map fun text => (some entry.1, some text.offset)

/-- The number of texts that are no handlers, over all blocks that a walk visits. -/
def unparsedTexts (walk : List (String × Statement)) : Nat :=
  total (fun entry => entry.2.form.unparsedCount) walk

/-! ### Reports that are about no statement -/

/-- Reports of other stages than that of statements, with the number of errors among them. -/
structure Aside (errors : Nat) (notes : List Diagnostic) : Prop where
  stage_ne : ∀ d ∈ notes, d.stage ≠ .statement
  count : notes.countP Diagnostic.isError = errors

namespace Aside

theorem nil : Aside 0 [] := ⟨by simp, rfl⟩

theorem append {l : Nat} {xs ys : List Diagnostic} (hxs : Aside k xs) (hys : Aside l ys) :
    Aside (k + l) (xs ++ ys) where
  stage_ne d hd := (mem_append.1 hd).elim (hxs.stage_ne d) (hys.stage_ne d)
  count := by rw [countP_append, hxs.count, hys.count]

theorem error (h : stage ≠ .statement) (offset : Option Nat) (path : Option String)
    (message : String) : Aside 1 [.errorAt stage offset path message] :=
  ⟨by simpa [Diagnostic.errorAt] using h, rfl⟩

theorem warning (h : stage ≠ .statement) (offset : Option Nat) (message : String) :
    Aside 0 [.warning stage offset message] :=
  ⟨by simpa [Diagnostic.warning] using h, rfl⟩

theorem of_warnings (h : ∀ d ∈ notes, d.stage ≠ .statement ∧ d.isError = false) :
    Aside 0 notes where
  stage_ne d hd := (h d hd).1
  count := countP_eq_zero.2 fun d hd => by simp [(h d hd).2]

end Aside

/-! ### Reports against a walk -/

/-- The reports match what a walk visits. Of the errors, `aside` many are not about texts in blocks
that the walk visits. -/
structure Reports (notes : List Diagnostic) (walk : List (String × Statement)) (aside : Nat) :
    Prop where
  kept : keptPlaces notes = rawPlaces walk
  errors : notes.countP Diagnostic.isError = unparsedTexts walk + aside
  placed : ∀ d ∈ notes, d.stage = .statement → ∃ entry ∈ walk, d.path = some entry.1

theorem Aside.reports (h : Aside k notes) : Reports notes [] k where
  kept := by
    have hnone : notes.filter Diagnostic.keepsVerbatim = [] :=
      filter_eq_nil_iff.2 fun d hd => by
        simp [Diagnostic.keepsVerbatim, h.stage_ne d hd]
    rw [keptPlaces, hnone]
    rfl
  errors := by rw [h.count, unparsedTexts, total_nil, Nat.zero_add]
  placed d hd hstage := absurd hstage (h.stage_ne d hd)

namespace Reports

variable {notes notes' : List Diagnostic} {walk walk' : List (String × Statement)} {k l : Nat}

theorem append (h : Reports notes walk k) (h' : Reports notes' walk' l) :
    Reports (notes ++ notes') (walk ++ walk') (k + l) where
  kept := by
    have hkept := h.kept
    have hkept' := h'.kept
    simp only [keptPlaces, rawPlaces] at hkept hkept' ⊢
    rw [filter_append, map_append, filterMap_append, hkept, hkept']
  errors := by
    rw [countP_append, h.errors, h'.errors, unparsedTexts, unparsedTexts, unparsedTexts,
      total_append]
    omega
  placed d hd hstage := by
    rcases mem_append.1 hd with hd | hd
    · obtain ⟨entry, hentry, hpath⟩ := h.placed d hd hstage
      exact ⟨entry, mem_append_left walk' hentry, hpath⟩
    · obtain ⟨entry, hentry, hpath⟩ := h'.placed d hd hstage
      exact ⟨entry, mem_append_right walk hentry, hpath⟩

theorem flatMap {xs : List α} {notes : α → List Diagnostic} {walk : α → List (String × Statement)}
    {aside : α → Nat} (h : ∀ x ∈ xs, Reports (notes x) (walk x) (aside x)) :
    Reports (xs.flatMap notes) (xs.flatMap walk) (total aside xs) := by
  induction xs with
  | nil => exact Aside.nil.reports
  | cons x xs ih =>
    rw [forall_mem_cons] at h
    exact h.1.append (ih h.2)

/-- The texts among the handlers of a block that are none account for the errors left aside by its
inner lists. -/
theorem node {form : Form (List Statement)} (h : Reports notes walk k) (hraw : form.rawText? = none)
    (hunparsed : form.unparsedCount = k) : Reports notes ((path, .node form) :: walk) 0 where
  kept := by
    rw [h.kept, rawPlaces, rawPlaces, filterMap_cons_none]
    simp [Statement.form, hraw]
  errors := by
    rw [h.errors, ← hunparsed, unparsedTexts, unparsedTexts, total_cons]
    simp only [Statement.form]
    omega
  placed d hd hstage := by
    obtain ⟨entry, hentry, hpath⟩ := h.placed d hd hstage
    exact ⟨entry, mem_cons_of_mem _ hentry, hpath⟩

/-- A further report on a visited statement, which is neither an error nor says that it is kept. -/
theorem cons {d : Diagnostic} {path : String} {s : Statement}
    (h : Reports notes ((path, s) :: walk) k) (hverbatim : d.keepsVerbatim = false)
    (herror : d.isError = false) (hpath : d.path = some path) :
    Reports (d :: notes) ((path, s) :: walk) k where
  kept := by
    rw [← h.kept, keptPlaces, filter_cons_of_neg (by simp [hverbatim])]
    rfl
  errors := by rw [countP_cons_of_neg (by simp [herror]), h.errors]
  placed e he hstage := by
    rcases mem_cons.1 he with rfl | he
    · exact ⟨(path, s), mem_cons_self, hpath⟩
    · exact h.placed e he hstage

end Reports

theorem Form.rawText?_eq_none (h : form.isRaw = false) : form.rawText? = none := by
  unfold Form.rawText?
  split
  · cases h
  · rfl

theorem Form.isRaw_of_isCompound (h : form.isCompound) : form.isRaw = false := by
  cases form with
  | simple => cases h
  | conditional | selection | queryLoop | rangeLoop | whileLoop | endlessLoop | block => rfl

theorem Form.unparsedCount_of_isCompound (h : form.isCompound) : form.unparsedCount = 0 := by
  cases form with
  | block => cases h
  | simple | conditional | selection | queryLoop | rangeLoop | whileLoop | endlessLoop => rfl

@[simp] theorem Form.isRaw_map (f : α → β) (form : Form α) : (form.map f).isRaw = form.isRaw := by
  cases form <;> rfl

@[simp] theorem Form.isRaw_label (path : String) (form : Form β) :
    (form.label path).isRaw = form.isRaw := by
  cases form <;> rfl

theorem total_zero (xs : List α) : total (fun _ => 0) xs = 0 := by
  induction xs with
  | nil => rfl
  | cons x xs ih => rw [total_cons, ih]

theorem countP_flatMap {γ : Type} (p : γ → Bool) (f : α → List γ) (xs : List α) :
    (xs.flatMap f).countP p = total (fun x => (f x).countP p) xs := by
  induction xs with
  | nil => rfl
  | cons x xs ih => rw [flatMap_cons, countP_append, total_cons, ih]

namespace Grammar

/-! ### What is recognised is not raw -/

theorem exitStatement_isRaw {make : Option String → Option Fragment → Simple}
    (hmake : ∀ label condition, (make label condition).isRaw = false) {word : String}
    (h : exitStatement make word ts = .ok s) : s.isRaw = false := by
  unfold exitStatement at h
  cases hclause : exitClause word ts with
  | error reason => rw [hclause] at h; cases h
  | ok clause =>
    rw [hclause] at h
    cases h
    exact hmake _ _

theorem SimpleReading.isRaw (h : SimpleReading ts s) : s.isRaw = false := by
  cases h with
  | select | insert | update | delete | null | returnValue => rfl
  | exitLoop _ h => exact exitStatement_isRaw (fun _ _ => rfl) h
  | continueLoop _ h => exact exitStatement_isRaw (fun _ _ => rfl) h
  | raise _ h | cursor _ h | execute _ h | plain h =>
    simp only [raised, cursorAction, executeImmediate, plainStatement, procedureCall] at h
    repeat' split at h
    all_goals cases h
    all_goals rfl

/-- Raw text comes only from statements that are not recognised. -/
theorem recognise_isRaw (h : recognise path ts = .ok r) : r.form.isRaw = false := by
  cases Recognition.of_recognise h with
  | simple hread => exact hread.isRaw
  | compound _ hread =>
    rw [quiet, Form.isRaw_map]
    exact Form.isRaw_of_isCompound hread.isCompound
  | block => rfl

/-! ### Reports beside the inner lists -/

/-- The report on a stretch that is no handler. -/
def HandlerSpan.note? (path : String) : HandlerSpan → Option Diagnostic
  | .handler _ => none
  | .unparsed reason text => some (unparsedNote path reason text)

/-- Every report on text among handlers is given out, in order. -/
theorem withNotes_before (path : String) (pending : List Diagnostic) (spans : List HandlerSpan) :
    (withNotes path pending spans).1.flatMap (fun h => h.body.before) ++
      (withNotes path pending spans).2 = pending ++ spans.filterMap (HandlerSpan.note? path) := by
  fun_induction withNotes path pending spans with
  | case1 => simp
  | case2 pending h rest later ih =>
    rw [flatMap_cons, append_assoc, ih]
    rfl
  | case3 pending reason text rest ih =>
    rw [ih, append_assoc]
    rfl

theorem unparsedNotes_aside (path : String) (spans : List HandlerSpan) :
    Aside (spans.filterMap HandlerSpan.text?).length
      (spans.filterMap (HandlerSpan.note? path)) := by
  induction spans with
  | nil => exact .nil
  | cons span spans ih =>
    cases span with
    | handler h => exact ih
    | unparsed reason text =>
      have hnote : Aside 1 [unparsedNote path reason text] := .error (by decide) _ _ _
      simpa [HandlerSpan.text?, HandlerSpan.note?, Nat.add_comm] using hnote.append ih

theorem othersNotes_aside (handlers : List (Handler β)) : Aside 0 (othersNotes handlers) := by
  unfold othersNotes
  split
  · exact .warning (by decide) _ _
  · exact .nil

/-- The errors around the bodies of handlers are those about texts that are no handlers. -/
theorem blockHandlers_aside (path : String) (inner : Option (List Token)) :
    Aside (blockHandlers path inner).unparsed.length
      ((blockHandlers path inner).handlers.flatMap (fun h => h.body.before) ++
        (blockHandlers path inner).after) := by
  cases inner with
  | none => exact .nil
  | some ts =>
    simp only [blockHandlers, readHandlers]
    rw [← append_assoc, withNotes_before, nil_append]
    exact (unparsedNotes_aside path (handlerSpans ts)).append (othersNotes_aside _)

theorem readDeclarations_aside (ts : List Token) : Aside 0 (readDeclarations ts).2 := by
  refine .of_warnings fun d hd => ?_
  obtain ⟨span, -, hd⟩ := mem_flatMap.1 hd
  unfold declarationNotes at hd
  split at hd <;> grind [Diagnostic.warning, Diagnostic.isError]

/-- What is reported around the inner lists of a statement is about no statement, and its errors are
those about texts that are no handlers. -/
theorem recognise_aside (h : recognise path ts = .ok r) :
    Aside r.form.unparsedCount (r.form.bodies.flatMap Slice.before ++ r.after) := by
  have hquiet : ∀ form : Form (List Token), form.unparsedCount = 0 →
      Aside (quiet form).form.unparsedCount
        ((quiet form).form.bodies.flatMap Slice.before ++ (quiet form).after) := by
    intro form hcount
    have hnone : (form.map fun body => (⟨body, []⟩ : Slice)).bodies.flatMap Slice.before = [] := by
      simp [Form.bodies_map, flatMap_map]
    simp only [quiet, Form.unparsedCount_map, hcount, hnone, append_nil]
    exact .nil
  cases Recognition.of_recognise h with
  | @simple _ s _ => exact hquiet (.simple s) rfl
  | @compound _ _ form _ hread =>
    exact hquiet form (Form.unparsedCount_of_isCompound hread.isCompound)
  | @block _ _ sections _ _ _ =>
    have hwarnings : Aside 0 (sections.warnings.map (structureNote path)) := by
      refine .of_warnings fun d hd => ?_
      obtain ⟨fault, -, rfl⟩ := mem_map.1 hd
      exact ⟨by simp [structureNote, Diagnostic.warningAt], rfl⟩
    have hdeclared :
        Aside 0 (((sections.declarations.map readDeclarations).map Prod.snd).getD []) := by
      cases sections.declarations with
      | none => exact .nil
      | some inner => exact readDeclarations_aside inner
    have hhandlers := blockHandlers_aside path sections.handlers
    simpa [blockOf, Form.bodies, Form.unparsedCount, flatMap_map] using
      (hwarnings.append hdeclared).append hhandlers

/-! ### Statements, handlers and triggers -/

theorem keptVerbatim_reports (path reason : String) (ts : List Token) :
    Reports (keptVerbatim path reason ts).notes
      ((keptVerbatim path reason ts).value.walk path) 0 := by
  have hwalk : (keptVerbatim path reason ts).value.walk path =
      [(path, .node (.simple (.raw (Fragment.ofTokens ts))))] := by
    rw [keptVerbatim, Statement.simple, Statement.walk_node]
    rfl
  have hsuffix : "; kept verbatim".toList <:+ s!"{reason}; kept verbatim".toList :=
    ⟨reason.toList, (String.toList_append (s := reason) (t := "; kept verbatim")).symm⟩
  have hverbatim : ∀ d ∈ (keptVerbatim path reason ts).notes, d.keepsVerbatim := by
    intro d hd
    rw [mem_singleton.1 hd]
    exact isSuffixOf_iff_suffix.2 hsuffix
  rw [hwalk]
  refine ⟨?_, rfl, ?_⟩
  · rw [keptPlaces, filter_eq_self.2 hverbatim]
    rfl
  · simp [keptVerbatim, Diagnostic.warningAt]

theorem unclosedNotes_reports {span : Span} {s : Statement} {walk : List (String × Statement)}
    (h : Reports notes ((path, s) :: walk) 0) :
    Reports (unclosedNotes path span ++ notes) ((path, s) :: walk) 0 := by
  have hother : "; kept verbatim".toList.isSuffixOf
      "statement is missing its terminating ';'".toList = false := by decide +kernel
  unfold unclosedNotes
  split
  · exact h
  · refine h.cons ?_ rfl rfl
    simp only [Diagnostic.keepsVerbatim, Diagnostic.warningAt, hother, Bool.and_false]

/-- Reports on inner lists at their paths, with what is reported around them. -/
theorem bodies_reports {entries : List (String × Slice)} {after : List Diagnostic} {errors : Nat}
    (haside : Aside errors (entries.flatMap (fun entry => entry.2.before) ++ after))
    (hinner : ∀ entry ∈ entries, Reports (statements entry.1 entry.2.tokens).notes
      (Statement.walkList entry.1 (statements entry.1 entry.2.tokens).value) 0) :
    Reports ((entries.flatMap fun entry =>
          entry.2.before ++ (statements entry.1 entry.2.tokens).notes) ++ after)
      (entries.flatMap fun entry =>
        Statement.walkList entry.1 (statements entry.1 entry.2.tokens).value) errors := by
  have hbefore : ∀ entry ∈ entries,
      Aside (entry.2.before.countP Diagnostic.isError) entry.2.before := by
    intro entry hentry
    refine ⟨fun d hd => haside.stage_ne d (mem_append_left _ ?_), rfl⟩
    exact mem_flatMap.2 ⟨entry, hentry, hd⟩
  have hafter : Aside (after.countP Diagnostic.isError) after :=
    ⟨fun d hd => haside.stage_ne d (mem_append_right _ hd), rfl⟩
  have hlists := Reports.flatMap fun entry hentry =>
    (hbefore entry hentry).reports.append (hinner entry hentry)
  have hcount := haside.count
  rw [countP_append, countP_flatMap] at hcount
  simpa [hcount] using hlists.append hafter.reports

/-- The reports on one statement match a walk over it if those on all shorter lists do. -/
theorem statementWith_reports (path : String) (span : Span)
    (hinner : ∀ place inner, inner.length < span.tokens.length →
      Reports (statements place inner).notes
        (Statement.walkList place (statements place inner).value) 0) :
    Reports (statementWith statements path span).notes
      ((statementWith statements path span).value.walk path) 0 := by
  unfold statementWith
  cases hread : recognise path span.tokens with
  | error reason =>
    exact unclosedNotes_reports (keptVerbatim_reports path reason span.tokens)
  | ok r =>
    have hslices : (r.form.label path).bodies.flatMap (fun entry => entry.2.before) =
        r.form.bodies.flatMap Slice.before := by
      conv => rhs; rw [← Form.map_snd_label path r.form, Form.bodies_map, flatMap_map]
    have hbodies := bodies_reports (hslices ▸ recognise_aside hread) fun entry hentry =>
      hinner entry.1 entry.2.tokens (recognise_length hread _ (Form.snd_mem_bodies hentry))
    rw [Outcome.value_after, walk_assembled _ fun f => Form.label_map_label path r.form f]
    refine unclosedNotes_reports
      (Reports.node (k := r.form.unparsedCount) ?_ (Form.rawText?_eq_none ?_) ?_)
    · simpa [assembled, Form.bodies_map, flatMap_map, Outcome.after] using hbodies
    · simp [recognise_isRaw hread]
    · rw [Form.unparsedCount_map, Form.unparsedCount_map]
      cases r.form <;> rfl

/-- The reports on a statement list match a walk over the statements read. -/
theorem statements_reports (path : String) (ts : List Token) :
    Reports (statements path ts).notes (Statement.walkList path (statements path ts).value) 0 := by
  -- inner lists are shorter, so that the induction is on the number of tokens
  induction ts using shorterInduction generalizing path with
  | shorter ts ih =>
    have hpieces : ∀ entry ∈ (piecewise ts).zipIdx,
        Reports (pieceWith statements (Path.child path entry.2) entry.1).notes
          ((pieceWith statements (Path.child path entry.2) entry.1).value.walk
            (Path.child path entry.2)) 0 := by
      rintro ⟨piece, i⟩ hentry
      have hpiece := fst_mem_of_mem_zipIdx hentry
      cases piece with
      | label name =>
        simp only [pieceWith, Statement.simple, Statement.walk_node]
        exact Aside.nil.reports.node rfl rfl
      | statement span =>
        have hspan := piecewise_length hpiece
        exact statementWith_reports (Path.child path i) span fun place inner hinner =>
          ih inner (by omega) place
    have hall := Reports.flatMap hpieces
    rw [total_zero] at hall
    rw [statements_eq, walkList_all]
    simpa [Outcome.all, mapIdx_eq_zipIdx_map, flatMap_def, Function.comp_def] using hall

/-- The reports on an exception section match a walk over its handlers, and the errors left aside
are those about its texts that are no handlers. -/
theorem handlerSection_reports (path : String) (inner : Option (List Token)) :
    Reports (handlerSection path (blockHandlers path inner)).notes
      (walkHandlers path (handlerSection path (blockHandlers path inner)).value.1)
      (blockHandlers path inner).unparsed.length := by
  have hslices : ((labelHandlers path (blockHandlers path inner).handlers).map Handler.body).flatMap
      (fun entry => entry.2.before) =
      (blockHandlers path inner).handlers.flatMap fun h => h.body.before := by
    conv => rhs; rw [← map_snd_labelHandlers path (blockHandlers path inner).handlers]
    simp [flatMap_map, Handler.map]
  have hbodies := bodies_reports (hslices ▸ blockHandlers_aside path inner) fun entry _ =>
    statements_reports entry.1 entry.2.tokens
  rw [walkHandlers, labelHandlers_handlerSection]
  simpa [handlerSection, handlerOutcomes, flatMap_map, Handler.map, Outcome.after]
    using hbodies

theorem readHeader_aside (ts : List Token) : Aside 0 (readHeader ts).notes := by
  unfold readHeader
  repeat' split
  · exact .nil
  · exact .nil
  · exact .warning (by decide) _ _
  · exact .nil

theorem sectionNotes_aside (sections : Sections) : Aside 0 (sectionNotes sections) := by
  have hwarnings : Aside 0 (sections.warnings.map fun fault =>
      Diagnostic.warning .sections (some fault.offset) fault.message) := by
    refine .of_warnings fun d hd => ?_
    obtain ⟨fault, -, rfl⟩ := mem_map.1 hd
    exact ⟨by simp [Diagnostic.warning], rfl⟩
  unfold sectionNotes
  refine hwarnings.append (l := 0) ?_
  split
  · exact .nil
  · exact .warning (by decide) _ _

theorem triggerOf_reports (ts : List Token) (sections : Sections) :
    Reports (triggerOf (readHeader ts) sections).notes
      (triggerOf (readHeader ts) sections).value.walk
      (triggerOf (readHeader ts) sections).value.unparsed.length := by
  have hdeclared : Aside 0 ((sections.declarations.map readDeclarations).getD (.empty, [])).2 := by
    cases sections.declarations with
    | none => exact .nil
    | some inner => exact readDeclarations_aside inner
  have hasides := ((readHeader_aside ts).append (sectionNotes_aside sections)).append hdeclared
  have hbody := statements_reports "" sections.statements
  have hhandlers := handlerSection_reports "" sections.handlers
  simpa [triggerOf, Trigger.walk, walkHandlers, handlerSection] using
    (hasides.reports.append hbody).append hhandlers

theorem eq_triggerOf {source : String} {outcome : Outcome Trigger}
    (h : trigger source = .ok outcome) :
    ∃ ts sections, Token.ofSource source = .ok ts ∧
      Sections.split (readHeader ts).body = .ok sections ∧
      outcome = triggerOf (readHeader ts) sections := by
  unfold trigger triggerOfTokens at h
  split at h
  · cases h
  · rename_i ts hts
    simp only at h
    cases hsplit : Sections.split (readHeader ts).body with
    | error fault => rw [hsplit] at h; cases h
    | ok sections =>
      rw [hsplit] at h
      cases h
      exact ⟨ts, sections, hts, hsplit, rfl⟩

/-- For every trigger that can be read, the warnings that a statement is kept verbatim stand at the
paths and offsets of the raw statements, in the order of a walk over the body and then over the
handlers. There are as many errors as texts among handlers, at any depth, that are no handlers. And
each report of the statement stage is at the path of a statement of the tree. -/
theorem trigger_reports {source : String} {outcome : Outcome Trigger}
    (h : trigger source = .ok outcome) :
    keptPlaces outcome.notes = rawPlaces outcome.value.walk ∧
      outcome.notes.countP Diagnostic.isError =
        unparsedTexts outcome.value.walk + outcome.value.unparsed.length ∧
      ∀ d ∈ outcome.notes, d.stage = .statement →
        ∃ entry ∈ outcome.value.walk, d.path = some entry.1 := by
  obtain ⟨ts, sections, -, -, rfl⟩ := eq_triggerOf h
  have hreports := triggerOf_reports ts sections
  exact ⟨hreports.kept, hreports.errors, hreports.placed⟩

/-- A trigger with raw statements at several depths. The second statement is given up after its
first branch, and two texts among handlers are none. -/
def givenUp : String :=
  "BEGIN IF a THEN x:=; END IF; IF b THEN x:=; ELSE y; ELSE z; END IF; " ++
    "BEGIN f 1; EXCEPTION y; WHEN e THEN f 2; END; EXCEPTION WHEN THEN y; WHEN e THEN f 3; z END;"

theorem trigger_reports_givenUp :
    ∃ outcome, trigger givenUp = .ok outcome ∧
      keptPlaces outcome.notes = rawPlaces outcome.value.walk ∧
      (rawPlaces outcome.value.walk).map Prod.fst = [some "1.then.1", some "2", some "3.body.1",
        some "3.handler1.1", some "handler1.1"] ∧
      outcome.notes.countP Diagnostic.isError =
        unparsedTexts outcome.value.walk + outcome.value.unparsed.length ∧
      outcome.notes.countP Diagnostic.isError = 2 ∧
      ∀ d ∈ outcome.notes, d.stage = .statement →
        ∃ entry ∈ outcome.value.walk, d.path = some entry.1 := by
  have hread : (trigger givenUp).toOption.map (fun outcome =>
      ((rawPlaces outcome.value.walk).map Prod.fst, outcome.notes.countP Diagnostic.isError)) =
      some ([some "1.then.1", some "2", some "3.body.1", some "3.handler1.1",
        some "handler1.1"], 2) := by
    decide +kernel
  cases htrigger : trigger givenUp with
  | error fault => rw [htrigger] at hread; cases hread
  | ok outcome =>
    rw [htrigger] at hread
    obtain ⟨hkept, herrors, hplaced⟩ := trigger_reports htrigger
    obtain ⟨hplaces, hcount⟩ := Prod.ext_iff.1 (Option.some.inj hread)
    exact ⟨outcome, rfl, hkept, hplaces, herrors, hcount, hplaced⟩

end Grammar

end TriggerDialect
