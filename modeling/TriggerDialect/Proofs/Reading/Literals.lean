import TriggerDialect.Grammar.Trigger
import TriggerDialect.Proofs.Reading.Coverage
import TriggerDialect.Proofs.Reading.Inside

/-!
# No literal is lost

The reader drops reserved words, marks and names that it knows the meaning of, and nothing else. So
every literal and every bind variable of the tokens, however malformed they are, stands in a run of
them that the tree keeps as a text (`literals_kept`). Declarations apart, which are read by other
rules.
-/

namespace TriggerDialect

open List Piece
open Fragment (ofTokens)

variable {body head rest ts us : List Token} {name path what word : String} {s : Simple}
  {offset : Nat} {form : Form (List Token)} {spans : List HandlerSpan} {t : Token}

variable {P : List Token → Prop}

/-! ### Texts of the tree -/

/-- The texts of a statement without inner lists. -/
def Simple.fragments : Simple → List Fragment
  | .select sql => [sql]
  | .insert sql target => sql :: (target.map InsertTarget.values).getD []
  | .update sql => [sql]
  | .delete sql => [sql]
  | .assignment target value => [target, value]
  | .exitLoop _ condition => condition.toList
  | .continueLoop _ condition => condition.toList
  | .returnValue value => value.toList
  | .call _ arguments _ => arguments
  | .raise _ _ => []
  | .executeImmediate sql => [sql]
  | .cursor _ text => [text]
  | .label _ => []
  | .null => []
  | .raw text => [text]

namespace Form

variable {β γ : Type} (path : String)

/-- The texts of a statement itself, less those of its inner lists and declarations. -/
def fragments : Form β → List Fragment
  | .simple s => s.fragments
  | .conditional first others _ => first.condition :: others.map Arm.condition
  | .selection selector arms _ => selector.toList ++ arms.map Arm.condition
  | .queryLoop _ query _ => [query]
  | .rangeLoop _ _ lower upper _ => [lower, upper]
  | .whileLoop condition _ => [condition]
  | .endlessLoop _ => []
  | .block b => b.unparsed

/-- The names of the exceptions that a block handles. -/
def handlerNames : Form β → List String
  | .block b => b.handlers.flatMap Handler.names
  | _ => []

@[simp] theorem fragments_map (f : β → γ) (form : Form β) :
    (form.map f).fragments = form.fragments := by
  cases form <;> simp [map, fragments, Arm.map, Function.comp_def]

@[simp] theorem handlerNames_map (f : β → γ) (form : Form β) :
    (form.map f).handlerNames = form.handlerNames := by
  cases form with
  | block b => simp only [map, handlerNames, flatMap_map]; rfl
  | _ => rfl

@[simp] theorem fragments_label (form : Form β) : (form.label path).fragments = form.fragments := by
  rw [← fragments_map Prod.snd, map_snd_label]

@[simp] theorem handlerNames_label (form : Form β) :
    (form.label path).handlerNames = form.handlerNames := by
  rw [← handlerNames_map Prod.snd, map_snd_label]

theorem exists_mem_bodies_label {form : Form β} {b : β} (h : b ∈ form.bodies) :
    ∃ place, (place, b) ∈ (form.label path).bodies := by
  rw [← map_snd_label path form, bodies_map] at h
  obtain ⟨⟨place, _⟩, hentry, rfl⟩ := mem_map.1 h
  exact ⟨place, hentry⟩

/-- The tokens are kept as a text of the statement, as a handler name or as an inner list. -/
def Holds (form : Form (List Token)) (us : List Token) : Prop :=
  ofTokens us ∈ form.fragments ∨ render us ∈ form.handlerNames ∨ us ∈ form.bodies

end Form

namespace Grammar

/-! ### Simple statements -/

theorem chain_bareTo (ts : List Token) : BareTo (chain ts).2 ts := by
  fun_induction chain ts with
  | case1 dot segment rest h later ih =>
    rw [Bool.and_eq_true] at h
    exact .cons (isLiteral_of_isPunct h.1) (.cons (isLiteral_of_isSegment h.2) ih)
  | case2 => exact .refl _
  | case3 => exact .refl _

theorem qualifiedName_bareTo {text : String} (h : qualifiedName ts = .ok (text, rest)) :
    BareTo rest ts := by
  unfold qualifiedName name at h
  cases ts with
  | nil => cases h
  | cons t ts =>
    by_cases ht : t.isIdentifier
    · simp only [if_pos ht] at h
      cases h
      exact .cons (isLiteral_of_isIdentifier ht) (chain_bareTo ts)
    · simp only [if_neg ht] at h
      cases h

theorem raised_bare (h : raised offset ts = .ok s) : Bare ts := by
  unfold raised at h
  split at h
  · exact .nil
  · split at h
    · cases h
    · rename_i hname
      exact (qualifiedName_bareTo hname).bare .nil
    · cases h

theorem loopLabel_bareTo (ts : List Token) : BareTo (loopLabel ts).2 ts := by
  fun_cases loopLabel ts with
  | case1 => exact .refl _
  | case2 t rest ht => exact .cons (isLiteral_of_isIdentifier ht) (.refl _)
  | case3 => exact .refl _

theorem exitClause_covered {label : Option String} {condition : Option Fragment}
    (h : exitClause word ts = .ok (label, condition)) :
    Covered (fun us => ofTokens us ∈ condition.toList) ts := by
  refine .of_bareTo (loopLabel_bareTo ts) ?_
  unfold exitClause at h
  generalize loopLabel ts = cut at h ⊢
  obtain ⟨found, rest⟩ := cut
  cases rest with
  | nil => exact .of_bare .nil
  | cons t rest =>
    simp only at h
    split at h
    · rename_i hwhen
      cases h
      rw [Bool.and_eq_true] at hwhen
      exact .cons (isLiteral_of_isKeyword hwhen.1) (.self (mem_singleton_self _))
    · cases h

theorem callArguments_covered (inner : List Token) :
    Covered (fun us => ofTokens us ∈ callArguments inner) inner := by
  unfold callArguments
  cases inner with
  | nil => exact .of_bare .nil
  | cons t inner =>
    exact (splitCommas_covered (t :: inner)).mono fun us hus => mem_map_of_mem hus

theorem procedureCall_covered (h : procedureCall offset ts = .ok s) :
    Covered (fun us => ofTokens us ∈ s.fragments) ts := by
  unfold procedureCall at h
  split at h
  · cases h
  · rename_i name rest hname
    refine .of_bareTo (qualifiedName_bareTo hname) ?_
    split at h
    · exact .of_bare .nil
    · split at h
      · rename_i inner hgroup
        cases h
        exact bracketGroup_covered hgroup (callArguments_covered inner)
      · cases h

theorem plainStatement_covered (h : plainStatement ts = .ok s) :
    Covered (fun us => ofTokens us ∈ s.fragments) ts := by
  unfold plainStatement at h
  split at h
  · cases h
  · split at h
    · rename_i target word value hspan
      split at h
      · cases h
      · cases h
        exact .of_spanFrom hspan (fun _ _ => isLiteral_of_isOp)
          (.self mem_cons_self) (.self (mem_cons_of_mem _ (mem_singleton_self _)))
    · split at h
      · exact procedureCall_covered h
      · cases h

theorem SimpleReading.covered (h : SimpleReading ts s) :
    Covered (fun us => ofTokens us ∈ s.fragments) ts := by
  have hword : ∀ {t : Token}, t.kind = .keyword → t.isLiteral = false :=
    fun ht => isLiteral_of_kind ht (.inl rfl)
  cases h with
  | select | insert | update | delete => exact .self mem_cons_self
  | null ht => exact .cons (hword ht) (.of_bare .nil)
  | raise ht h => exact .cons (hword ht) (.of_bare (raised_bare h))
  | exitLoop ht h =>
    obtain ⟨clause, hclause, rfl⟩ := exists_of_map_ok h
    exact .cons (hword ht) (exitClause_covered hclause)
  | continueLoop ht h =>
    obtain ⟨clause, hclause, rfl⟩ := exists_of_map_ok h
    exact .cons (hword ht) (exitClause_covered hclause)
  | @returnValue t rest ht =>
    refine .cons (hword ht) ?_
    cases rest with
    | nil => exact .of_bare .nil
    | cons u rest => exact .self (mem_singleton_self _)
  | cursor ht h =>
    unfold cursorAction at h
    split at h
    · cases h
    · cases h
      exact .cons (hword ht) (.self (mem_singleton_self _))
  | execute ht h =>
    unfold executeImmediate at h
    split at h
    · cases h
    · split at h
      · rename_i himmediate
        cases h
        rw [Bool.and_eq_true] at himmediate
        exact .cons (hword ht) (.cons (isLiteral_of_isWord himmediate.1)
          (.self (mem_singleton_self _)))
      · cases h
  | plain h => exact plainStatement_covered h

/-! ### Statements with inner lists -/

theorem covered_of_stripEnd {inner : List Token} (h : stripEnd word ts = some inner)
    (hinner : Covered P inner) : Covered P ts := by
  obtain ⟨first, tail, rfl, htail⟩ := stripEnd_eq h
  exact hinner.append (.of_bare fun t ht => isLiteral_of_isSegment (htail t ht))

theorem covered_of_conditionThen {condition : Fragment}
    (h : conditionThen what ts = .ok (condition, rest))
    (hcondition : ∀ us, ofTokens us = condition → P us) (hrest : Covered P rest) :
    Covered P ts := by
  obtain ⟨front, word, hspan, rfl⟩ := conditionThen_cut h
  exact .of_spanFrom hspan (fun _ _ => isLiteral_of_isKeyword) (.self (hcondition _ rfl))
    hrest

/-- The tokens are a condition or an inner list of the branches. -/
def Branches.Holds (b : Branches) (us : List Token) : Prop :=
  ofTokens us ∈ b.others.map Arm.condition ∨ us ∈ b.bodies

theorem branches_covered {b : Branches} (h : branches ts = .ok b) : Covered b.Holds ts := by
  fun_induction branches ts generalizing b with
  | case1 ts body hspan =>
    cases h
    exact .of_spanFrom_nil hspan (.self (.inr mem_cons_self))
  | case2 => cases h
  | case3 ts body word rest hspan _ condition rest' hthen hlt ih =>
    obtain ⟨later, hlater, rfl⟩ := exists_of_map_ok h
    refine .of_spanFrom hspan (fun _ _ => isLiteral_of_clause) (.self (.inr mem_cons_self)) ?_
    refine covered_of_conditionThen hthen (fun us hus => .inl (by simp [hus])) ?_
    refine (ih hlater).mono fun us hus => hus.imp ?_ ?_
    · exact mem_cons_of_mem _
    · simp only [Branches.bodies, map_cons, cons_append]
      exact mem_cons_of_mem _
  | case4 ts body word rest hspan _ =>
    obtain ⟨last, hlast, rfl⟩ := lastBranch_cut h
    refine .of_spanFrom hspan (fun _ _ => isLiteral_of_clause) (.self (.inr mem_cons_self)) ?_
    exact .of_spanFrom_nil hlast (.self (.inr (by simp [Branches.bodies])))

/-- The tokens are a condition or an inner list of the arms. -/
def Arms.Holds (a : Arms) (us : List Token) : Prop :=
  ofTokens us ∈ a.arms.map Arm.condition ∨ us ∈ a.bodies

theorem arms_covered {a : Arms} (h : arms ts = .ok a) : Covered a.Holds ts := by
  fun_induction arms ts generalizing a with
  | case1 => cases h
  | case2 ts condition rest hthen body hspan =>
    cases h
    refine covered_of_conditionThen hthen (fun us hus => .inl (by simp [hus])) ?_
    exact .of_spanFrom_nil hspan (.self (.inr (by simp [Arms.bodies])))
  | case3 ts condition rest hthen body word rest' hspan _ =>
    obtain ⟨otherwise, hotherwise, rfl⟩ := exists_of_map_ok h
    obtain ⟨last, hlast, rfl⟩ := lastArm_cut hotherwise
    refine covered_of_conditionThen hthen (fun us hus => .inl (by simp [hus])) ?_
    refine .of_spanFrom hspan (fun _ _ => isLiteral_of_clause) (.self (.inr ?_)) ?_
    · simp [Arms.bodies]
    · exact .of_spanFrom_nil hlast (.self (.inr (by simp [Arms.bodies])))
  | case4 ts condition rest hthen body word rest' hspan _ hlt ih =>
    obtain ⟨later, hlater, rfl⟩ := exists_of_map_ok h
    refine covered_of_conditionThen hthen (fun us hus => .inl (by simp [hus])) ?_
    refine .of_spanFrom hspan (fun _ _ => isLiteral_of_clause) (.self (.inr ?_)) ?_
    · simp [Arms.bodies]
    · refine (ih hlater).mono fun us hus => hus.imp ?_ ?_
      · exact mem_cons_of_mem _
      · simp only [Arms.bodies, map_cons, cons_append]
        exact mem_cons_of_mem _

theorem covered_of_loopParts (h : loopParts what ts = .ok (head, body)) (hhead : Covered P head)
    (hbody : Covered P body) : Covered P ts := by
  obtain ⟨inner, word, hend, hspan⟩ := loopParts_cut h
  exact covered_of_stripEnd hend
    (.of_spanFrom hspan (fun _ _ => isLiteral_of_isKeyword) hhead hbody)

theorem lowerBound_bareTo (front : List Token) : BareTo (lowerBound front) front := by
  cases front with
  | nil => exact .refl _
  | cons t front =>
    by_cases ht : t.isKeyword "REVERSE"
    · simpa [lowerBound, isReverse, ht] using .cons (isLiteral_of_isKeyword ht) (.refl front)
    · simpa [lowerBound, isReverse, ht] using .refl (t :: front)

theorem loopQuery_covered (head : List Token) :
    Covered (fun us => ofTokens us = loopQuery head) head := by
  unfold loopQuery
  split
  · rename_i inner hgroup
    exact bracketGroup_covered hgroup (.self rfl)
  · exact .self rfl

/-- What stands before `LOOP` is covered by the bounds or the query. -/
theorem loopOver_covered (h : loopOver name head body = .ok form) : Covered form.Holds head := by
  obtain ⟨front, dots, upper, hspan, rfl⟩ | rfl := loopOver_cut h
  · refine .of_spanFrom hspan (fun _ _ => isLiteral_of_isOp) ?_ ?_
    · exact .of_bareTo (lowerBound_bareTo front) (.self (.inl mem_cons_self))
    · exact .self (.inl (mem_cons_of_mem _ (mem_singleton_self _)))
  · exact (loopQuery_covered head).mono fun us hus => .inl (mem_singleton.2 hus)

theorem CompoundReading.covered (h : CompoundReading ts form) : Covered form.Holds ts := by
  cases h with
  | conditional h =>
    obtain ⟨inner, condition, rest, b, hend, hthen, hbranches, rfl⟩ := conditional_cut h
    refine covered_of_stripEnd hend (covered_of_conditionThen hthen (fun us hus => .inl ?_) ?_)
    · exact hus ▸ mem_cons_self
    · refine (branches_covered hbranches).mono fun us hus => ?_
      rcases hus with hus | hus
      · exact .inl (mem_cons_of_mem _ hus)
      · exact .inr (.inr hus)
  | selection h =>
    obtain ⟨inner, front, word, rest, a, hend, hspan, harms, rfl⟩ := selection_cut h
    refine covered_of_stripEnd hend
      (.of_spanFrom hspan (fun _ _ => isLiteral_of_isKeyword) ?_ ?_)
    · cases front with
      | nil => exact .of_bare .nil
      | cons t front => exact .self (.inl mem_cons_self)
    · refine (arms_covered harms).mono fun us hus => ?_
      rcases hus with hus | hus
      · exact .inl (mem_append_right _ hus)
      · exact .inr (.inr hus)
  | counted h =>
    obtain ⟨counter, word, rest, head, body, rfl, hcounter, hword, hparts, hover⟩ := counted_cut h
    refine .cons (isLiteral_of_isIdentifier hcounter)
      (.cons (isLiteral_of_isKeyword hword) ?_)
    refine covered_of_loopParts hparts (loopOver_covered hover) (.self (.inr (.inr ?_)))
    rw [loopOver_bodies hover]
    exact mem_singleton_self _
  | whileLoop h =>
    obtain ⟨head, body, hparts, rfl⟩ := whileLoop_cut h
    exact covered_of_loopParts hparts (.self (.inl (mem_singleton_self _)))
      (.self (.inr (.inr (mem_singleton_self _))))
  | endlessLoop h =>
    obtain ⟨body, hend, rfl⟩ := endlessLoop_cut h
    exact covered_of_stripEnd hend (.self (.inr (.inr (mem_singleton_self _))))

/-! ### Handlers and blocks -/

theorem splitAt_ne_nil (p : Token → Bool) (ts : List Token) : splitAt p ts ≠ [] := by
  fun_cases splitAt p ts <;> simp

/-- The parts between separators cover the tokens. The first of them may have started earlier. -/
theorem splitAt_covered {p : Token → Bool} (hp : ∀ t, p t → t.isLiteral = false)
    {part : List Token} {parts : List (List Token)} (h : splitAt p ts = part :: parts)
    (front : List Token) : Covered (· ∈ (front ++ part) :: parts) (front ++ ts) := by
  induction ts generalizing front part parts with
  | nil =>
    cases h
    exact .self mem_cons_self
  | cons t ts ih =>
    obtain ⟨first, others, hrest⟩ := exists_cons_of_ne_nil (splitAt_ne_nil p ts)
    by_cases ht : p t
    · rw [splitAt, if_pos ht] at h
      cases h
      refine .append (.self (by simp)) (.cons (hp t ht) ?_)
      exact (ih hrest []).mono fun us hus => mem_cons_of_mem _ (hrest ▸ hus)
    · rw [splitAt, if_neg ht, hrest] at h
      cases h
      simpa using ih hrest (front ++ [t])

/-- The tokens are a name or the body of the handler, or the text that is none. -/
def HandlerSpan.Holds (span : HandlerSpan) (us : List Token) : Prop :=
  match span with
  | .handler h => render us ∈ h.names ∨ us = h.body
  | .unparsed _ text => ofTokens us = text

theorem handlerNames_covered {more : List String} (h : handlerNames ts = some (name, more)) :
    Covered (render · ∈ name :: more) ts := by
  obtain ⟨part, parts, hparts⟩ :=
    exists_cons_of_ne_nil (splitAt_ne_nil (·.isKeyword "OR") ts)
  simp only [handlerNames, hparts] at h
  split at h
  · cases h
  · cases h
    refine (splitAt_covered (fun _ => isLiteral_of_isKeyword) hparts []).mono fun us hus => ?_
    exact mem_map_of_mem (f := render) hus

theorem handlerSpan_covered {word : Token} (hword : word.isLiteral = false) (ts : List Token) :
    Covered (handlerSpan word ts).Holds (word :: ts) := by
  unfold handlerSpan
  split
  · rename_i h hread
    unfold handlerAfterWhen at hread
    split at hread
    · cases hread
    · rename_i front _ body hspan
      split at hread
      · cases hread
      · rename_i hnames
        cases hread
        refine .cons hword (.of_spanFrom hspan (fun _ _ => isLiteral_of_isKeyword) ?_ ?_)
        · exact (handlerNames_covered hnames).mono fun us hus => .inl hus
        · exact .self (.inr rfl)
  · exact .self rfl

/-- The tokens are held by one of the stretches. -/
def HeldBy (spans : List HandlerSpan) (us : List Token) : Prop := ∃ span ∈ spans, span.Holds us

theorem HeldBy.mono {others : List HandlerSpan} (h : HeldBy spans us) (hspans : spans ⊆ others) :
    HeldBy others us := by
  obtain ⟨span, hspan, hus⟩ := h
  exact ⟨span, hspans hspan, hus⟩

theorem handlersFrom_covered {word : Token} (hword : word.isLiteral = false) (ts : List Token) :
    Covered (HeldBy (handlersFrom word ts)) (word :: ts) := by
  fun_induction handlersFrom word ts with
  | case1 word ts span hspan =>
    rw [eq_of_spanFrom hspan, append_nil]
    exact (handlerSpan_covered hword span).mono fun us hus => ⟨_, mem_singleton_self _, hus⟩
  | case2 word ts span next rest hspan hlt ih =>
    obtain ⟨_, hstop⟩ := stop_of_spanFrom hspan
    rw [eq_of_spanFrom hspan, ← cons_append]
    refine .append ?_ ((ih (isLiteral_of_clause hstop)).mono fun us hus => ?_)
    · exact (handlerSpan_covered hword span).mono fun us hus => ⟨_, mem_cons_self, hus⟩
    · exact hus.mono (subset_cons_self _ _)

theorem textBefore_covered (ts : List Token) : Covered (HeldBy (textBefore ts)) ts := by
  cases ts with
  | nil => exact .of_bare .nil
  | cons t ts => exact .self ⟨_, mem_singleton_self _, rfl⟩

theorem handlerSpans_covered (ts : List Token) : Covered (HeldBy (handlerSpans ts)) ts := by
  unfold handlerSpans
  split
  · rename_i front hspan
    exact .of_spanFrom_nil hspan (textBefore_covered front)
  · rename_i front word rest hspan
    obtain ⟨_, hstop⟩ := stop_of_spanFrom hspan
    rw [eq_of_spanFrom hspan]
    refine .append ((textBefore_covered front).mono fun us hus => ?_)
      ((handlersFrom_covered (isLiteral_of_clause hstop) rest).mono fun us hus => ?_)
    · exact hus.mono (subset_append_left _ _)
    · exact hus.mono (subset_append_right _ _)

theorem exists_mem_withNotes (path : String) (pending : List Diagnostic) {h : Handler (List Token)}
    (hmem : .handler h ∈ spans) :
    ∃ h' ∈ (withNotes path pending spans).1, h'.map Slice.tokens = h := by
  fun_induction withNotes path pending spans with
  | case1 => cases hmem
  | case2 pending first rest later ih =>
    rcases mem_cons.1 hmem with hmem | hmem
    · cases hmem
      exact ⟨_, mem_cons_self, rfl⟩
    · obtain ⟨h', hh', heq⟩ := ih hmem
      exact ⟨h', mem_cons_of_mem _ hh', heq⟩
  | case3 pending reason text rest ih =>
    rcases mem_cons.1 hmem with hmem | hmem
    · cases hmem
    · exact ih hmem

/-- The tokens are kept as text that is no handler, or as a name or the body of a handler. -/
def HandlerSection.Holds (found : HandlerSection) (us : List Token) : Prop :=
  ofTokens us ∈ found.unparsed ∨
    ∃ h ∈ found.handlers, render us ∈ h.names ∨ us = h.body.tokens

theorem readHandlers_covered (path : String) (ts : List Token) :
    Covered (readHandlers path ts).Holds ts := by
  refine (handlerSpans_covered ts).mono ?_
  rintro us ⟨span, hspan, hus⟩
  cases span with
  | unparsed reason text => exact .inl (mem_filterMap.2 ⟨_, hspan, congrArg some hus.symm⟩)
  | handler h =>
    obtain ⟨h', hh', rfl⟩ := exists_mem_withNotes path [] hspan
    exact .inr ⟨h', hh', hus⟩

theorem blockOf_covered {sections : Sections} (ht : t.isKeyword "BEGIN")
    (h : Sections.split (t :: rest) = .ok sections) (htrailing : sections.trailing = []) :
    Covered ((blockOf path sections).form.map Slice.tokens).Holds (t :: rest) := by
  refine Sections.split_covered ht h htrailing (.self (.inr (.inr mem_cons_self))) ?_
  intro inner hinner
  refine (readHandlers_covered path inner).mono fun us hus => ?_
  simp only [Form.Holds, Form.fragments_map, Form.handlerNames_map, Form.bodies_map, blockOf,
    hinner, blockHandlers]
  rcases hus with hus | ⟨handler, hhandler, hus | rfl⟩
  · exact .inl hus
  · exact .inr (.inl (mem_flatMap.2 ⟨handler, hhandler, hus⟩))
  · refine .inr (.inr (mem_map_of_mem (mem_cons_of_mem _ ?_)))
    exact mem_map_of_mem (f := Handler.body) hhandler

theorem recognise_covered {r : Recognised} (h : recognise path ts = .ok r)
    (hdeclare : ∀ t ∈ ts, t.isKeyword "DECLARE" = false) :
    Covered (r.form.map Slice.tokens).Holds ts := by
  have hquiet : ∀ form, (quiet form).form.map Slice.tokens = form := fun form => by
    simp only [quiet, Form.map_map, Form.map_id]
  cases Recognition.of_recognise h with
  | simple hread =>
    rw [hquiet]
    exact hread.covered.mono fun us hus => .inl hus
  | compound ht hread =>
    rw [hquiet]
    exact .cons (isLiteral_of_kind ht (.inl rfl)) hread.covered
  | block ht hsplit htrailing =>
    rw [hdeclare _ mem_cons_self] at ht
    exact blockOf_covered (ht.resolve_left (by simp)) hsplit htrailing

/-! ### Statement lists -/

theorem leadingLabel?_bareTo (h : leadingLabel? ts = some (name, rest)) : BareTo rest ts := by
  unfold leadingLabel? at h
  split at h
  · split at h
    · rename_i hlabel
      cases h
      rw [Bool.and_eq_true, Bool.and_eq_true] at hlabel
      obtain ⟨⟨hopening, hname⟩, hclosing⟩ := hlabel
      exact .cons (isLiteral_of_isOp hopening) (.cons (isLiteral_of_isIdentifier hname)
        (.cons (isLiteral_of_isOp hclosing) (.refl _)))
    · cases h
  · cases h

theorem stop_of_spanStatement {span : List Token} (h : spanStatement ts = (span, t :: rest)) :
    t.isPunct ';' := by
  have hcut : ∀ {us front : List Token}, spanAtDepth (·.isPunct ';') us = (front, t :: rest) →
      t.isPunct ';' := fun hspan => (stop_of_spanFrom hspan).elim fun _ hstop => hstop
  unfold spanStatement at h
  split at h
  · cases h
  · split at h
    · split at h
      · exact hcut h
      · obtain ⟨_, hrest⟩ := Prod.ext_iff.1 h
        exact hcut (Prod.ext rfl hrest)
    · exact hcut h

/-- A statement of a list that was cut into pieces, without its semicolon. -/
def SpanOf (pieces : List Piecewise) (us : List Token) : Prop :=
  ∃ span, .statement span ∈ pieces ∧ span.tokens = us

theorem SpanOf.cons {pieces : List Piecewise} (h : SpanOf pieces us) (piece : Piecewise) :
    SpanOf (piece :: pieces) us := by
  obtain ⟨span, hspan, hus⟩ := h
  exact ⟨span, mem_cons_of_mem piece hspan, hus⟩

theorem piecewise_covered (ts : List Token) : Covered (SpanOf (piecewise ts)) ts := by
  have hwhole := spanStatement_append ts
  fun_induction piecewise ts with
  | case1 ts name rest hlabel hlt ih =>
    exact .of_bareTo (leadingLabel?_bareTo hlabel)
      ((ih (spanStatement_append rest)).mono fun us hus => hus.cons _)
  | case2 ts _ span hspan hempty =>
    rw [hspan, isEmpty_iff.1 hempty] at hwhole
    exact hwhole ▸ .of_bare .nil
  | case3 ts _ span hspan _ =>
    rw [hspan, append_nil] at hwhole
    exact hwhole ▸ .self ⟨_, mem_singleton_self _, rfl⟩
  | case4 ts _ span word rest hspan hlt hempty ih =>
    rw [hspan, isEmpty_iff.1 hempty] at hwhole
    have hword := isLiteral_of_isPunct (stop_of_spanStatement hspan)
    exact hwhole ▸ .cons hword (ih (spanStatement_append rest))
  | case5 ts _ span word rest hspan hlt _ ih =>
    rw [hspan] at hwhole
    have hword := isLiteral_of_isPunct (stop_of_spanStatement hspan)
    refine hwhole ▸ .append (.self ⟨_, mem_cons_self, rfl⟩) (.cons hword ?_)
    exact (ih (spanStatement_append rest)).mono fun us hus => hus.cons _

end Grammar

/-- The tokens are kept as a text or a handler name of a statement inside the list. -/
def Statement.Keeps (ss : List Statement) (us : List Token) : Prop :=
  ∃ s, Inside s ss ∧
    (ofTokens us ∈ s.form.fragments ∨ render us ∈ s.form.handlerNames)

/-- The tokens are kept as text among the handlers that is none, as a name of a handler, or in
the body of one. -/
def Handler.Keeps (found : List (Handler (List Statement)) × List Fragment) (us : List Token) :
    Prop :=
  ofTokens us ∈ found.2 ∨
    ∃ h ∈ found.1, render us ∈ h.names ∨ Statement.Keeps h.body us

namespace Grammar

open Statement (Inside Keeps)

variable (path : String)

/-- A statement that is read keeps the literals of its tokens if its inner lists do. -/
theorem statementWith_covered (span : Span)
    (hdeclare : ∀ t ∈ span.tokens, t.isKeyword "DECLARE" = false)
    (hinner : ∀ place inner, inner <:+: span.tokens → inner.length < span.tokens.length →
      Covered (Keeps (statements place inner).value) inner) :
    Covered (Keeps [(statementWith statements path span).value]) span.tokens := by
  unfold statementWith
  cases hform : recognise path span.tokens with
  | error reason =>
    exact .self ⟨_, .here (mem_singleton_self _), .inl (mem_singleton_self _)⟩
  | ok r =>
    refine (recognise_covered hform hdeclare).bind fun us hus => ?_
    simp only [Form.Holds, Form.fragments_map, Form.handlerNames_map, Form.bodies_map,
      mem_map] at hus
    rcases hus with hus | hus | ⟨slice, hslice, rfl⟩
    · refine .self ⟨_, .here (mem_singleton_self _), .inl ?_⟩
      simpa [Outcome.after, assembled, Statement.form] using hus
    · refine .self ⟨_, .here (mem_singleton_self _), .inr ?_⟩
      simpa [Outcome.after, assembled, Statement.form] using hus
    · obtain ⟨place, hentry⟩ := Form.exists_mem_bodies_label path hslice
      refine (hinner place slice.tokens (recognise_behind hform slice hslice).isInfix
        (recognise_length hform slice hslice)).mono ?_
      rintro us ⟨s, hinside, hkept⟩
      refine ⟨s, .deeper (mem_singleton_self _) ?_ hinside, hkept⟩
      simp only [Outcome.after, assembled, Statement.form, Form.bodies_map, mem_map]
      exact ⟨_, ⟨_, hentry, rfl⟩, rfl⟩

theorem statements_covered (ts : List Token) (hdeclare : ∀ t ∈ ts, t.isKeyword "DECLARE" = false) :
    Covered (Keeps (statements path ts).value) ts := by
  -- inner lists are shorter, so that the induction is on the number of tokens
  induction ts using shorterInduction generalizing path with
  | shorter ts ih =>
    refine (piecewise_covered ts).bind ?_
    rintro us ⟨span, hspan, rfl⟩
    have hpart := piecewise_isInfix hspan
    have hle := piecewise_length hspan
    obtain ⟨i, hi, hpiece⟩ := mem_iff_getElem.1 hspan
    refine (statementWith_covered (Path.child path i) span (fun t ht => ?_) ?_).mono ?_
    · exact hdeclare t (hpart.subset ht)
    · intro place inner hinner hlt
      refine ih inner (by omega) place fun t ht => ?_
      exact hdeclare t (hpart.subset (hinner.subset ht))
    · rintro us ⟨s, hinside, hkept⟩
      refine ⟨s, hinside.of_mem ?_, hkept⟩
      rw [statements_eq]
      simp only [Outcome.all, mem_map, mem_mapIdx]
      exact ⟨_, ⟨i, hi, rfl⟩, by rw [hpiece]; rfl⟩

theorem handlerSection_covered (ts : List Token)
    (hdeclare : ∀ t ∈ ts, t.isKeyword "DECLARE" = false) :
    Covered (Handler.Keeps (handlerSection path (readHandlers path ts)).value) ts := by
  have hread : ∀ h ∈ (readHandlers path ts).handlers, ∃ place,
      ⟨h.name, h.moreNames, (statements place h.body.tokens).value, h.offset⟩ ∈
        (handlerSection path (readHandlers path ts)).value.1 := by
    intro h hh
    rw [← map_snd_labelHandlers path (readHandlers path ts).handlers] at hh
    obtain ⟨entry, hentry, rfl⟩ := mem_map.1 hh
    exact ⟨entry.body.1, mem_map.2 ⟨_, mem_map_of_mem hentry, rfl⟩⟩
  refine (readHandlers_covered path ts).bind ?_
  rintro us (hus | ⟨h, hh, hus | rfl⟩)
  · exact .self (.inl hus)
  · obtain ⟨place, hmem⟩ := hread h hh
    exact .self (.inr ⟨_, hmem, .inl hus⟩)
  · obtain ⟨place, hmem⟩ := hread h hh
    have hpart := (readHandlers_behind hh).isInfix
    refine (statements_covered place h.body.tokens fun t ht => ?_).mono fun us hus => ?_
    · exact hdeclare t (hpart.subset ht)
    · exact .inr ⟨_, hmem, .inr hus⟩

/-- Every literal and every bind variable of a token list without declarations, however malformed
the list is, stands in a run of its tokens that the reader keeps as a text or as the name of an
exception. So it is when the tokens are read as statements and when they are read as handlers. -/
theorem literals_kept (path : String) (ts : List Token)
    (hdeclare : ∀ t ∈ ts, t.isKeyword "DECLARE" = false) (i : Nat) (t : Token)
    (hi : ts[i]? = some t)
    (hkind : t.kind = .stringLiteral ∨ t.kind = .numericLiteral ∨ t.kind = .bindVariable) :
    (∃ a b, a ≤ i ∧ i < b ∧ b ≤ ts.length ∧
      Keeps (statements path ts).value (ts.extract a b)) ∧
    ∃ a b, a ≤ i ∧ i < b ∧ b ≤ ts.length ∧
      Handler.Keeps (handlerSection path (readHandlers path ts)).value (ts.extract a b) := by
  have hliteral : t.isLiteral := by
    rcases hkind with h | h | h <;> simp [isLiteral, h]
  exact ⟨(statements_covered path ts hdeclare).extract hi hliteral,
    (handlerSection_covered path ts hdeclare).extract hi hliteral⟩

/-- A block without its `END`, one of whose handlers has a bind variable for a name. -/
def unclosedBlock : List Token :=
  (Token.recover "BEGIN x(1) EXCEPTION WHEN 'c' OR :b THEN y := 2").1

theorem literals_kept_unclosedBlock :
    unclosedBlock[9]? = some ⟨⟨.bindVariable, ":b"⟩, 33⟩ ∧
      (∃ a b, a ≤ 9 ∧ 9 < b ∧ b ≤ unclosedBlock.length ∧
        Keeps (statements "" unclosedBlock).value (unclosedBlock.extract a b)) ∧
      ∃ a b, a ≤ 9 ∧ 9 < b ∧ b ≤ unclosedBlock.length ∧
        Handler.Keeps (handlerSection "" (readHandlers "" unclosedBlock)).value
          (unclosedBlock.extract a b) := by
  have hdeclare : ∀ t ∈ unclosedBlock, t.isKeyword "DECLARE" = false := by decide +kernel
  have hi : unclosedBlock[9]? = some ⟨⟨.bindVariable, ":b"⟩, 33⟩ := by decide +kernel
  exact ⟨hi, literals_kept "" unclosedBlock hdeclare 9 _ hi (.inr (.inr rfl))⟩

end Grammar

end TriggerDialect
