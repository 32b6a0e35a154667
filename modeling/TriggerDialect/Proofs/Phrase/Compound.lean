import TriggerDialect.Proofs.Phrase.Plain

/-!
# Reading statements with inner statements

Each written statement is recognised for what it means, and its inner statement lists are cut out
exactly (`recognise_clause`). Branches, loop heads, sections and handlers are found by separate
searches; what each of them passes over was said once, in terms of neutral spans.
-/

namespace TriggerDialect.Phrase

open List hiding splitAt

open Grammar Piece Sections

variable {body ts : List Token} {t : Token} {otherwise : Option (Otherwise (List Token))}
  {first : Guarded "WHEN" (List Token)} {loop : Looped (List Token)} {p : Token → Bool}
  {rescues : List (Rescue (List Token))} {word : String}

theorem stripEnd_closing (c : Closing word) (ts : List Token) :
    stripEnd word (ts ++ c.tokens) = some ts := by
  simp [stripEnd, Closing.tokens, c.endWord.holds, c.kind.holds]

theorem conditionThen_guard (what : String) (leaf : LeafWithout (·.isKeyword "THEN"))
    (word : Word "THEN") (rest : List Token) :
    conditionThen what (leaf.tokens ++ word.token :: rest) = .ok (leaf.fragment, rest) := by
  have hspan := leaf.spanAtDepth_stop word.holds
    (IsInert.of_word word (by decide)).closesAfterEnd rest
  simp [conditionThen, hspan, leaf.nonempty, Leaf.fragment]

/-! ### Branches -/

namespace IsBody

variable {body : List Token} {words : List String}

/-- A list of statements ends before the first branch word after it. -/
theorem spanClause_stop (h : IsBody body) (hwords : words ⊆ clauseWords)
    (ht : words.any t.isKeyword) (rest : List Token) :
    spanClause words (body ++ t :: rest) = (body, t :: rest) := by
  refine h.neutral.spanFrom_stop (fun _ _ hp => hp.not_clause hwords) trivial (h.apart _) ?_
  rw [lastPiece_eq, Option.or_none]
  cases hlast : body.getLast? with
  | none => simpa using ht
  | some last => simp [h.ends last hlast, ht]

theorem spanClause_none (h : IsBody body) (hwords : words ⊆ clauseWords) :
    spanClause words body = (body, []) :=
  h.neutral.spanFrom_none (fun _ _ hp => hp.not_clause hwords) trivial

end IsBody

theorem Guarded.afterWord_append (g : Guarded word (List Token)) (rest : List Token) :
    g.afterWord ++ rest = g.condition.tokens ++ g.thenWord.token :: (g.body ++ rest) := by
  simp [afterWord]

theorem laterTokens_cons (g : Guarded word (List Token)) (others : List (Guarded word (List Token)))
    (otherwise : Option (Otherwise (List Token))) :
    laterTokens (g :: others) otherwise =
      g.word.token :: (g.afterWord ++ laterTokens others otherwise) := by
  simp [laterTokens, Guarded.tokens_eq]

/-- A list of statements ends before the branches after it. -/
theorem IsBody.spanClause_later (h : IsBody body) (hwords : [word, "ELSE"] ⊆ clauseWords)
    (others : List (Guarded word (List Token))) (otherwise : Option (Otherwise (List Token))) :
    spanClause [word, "ELSE"] (body ++ laterTokens others otherwise) =
      (body, laterTokens others otherwise) := by
  cases others with
  | cons g others =>
    rw [laterTokens_cons]
    exact h.spanClause_stop hwords (by simp [g.word.holds]) _
  | nil =>
    cases otherwise with
    | none => simpa [laterTokens, otherwiseTokens] using h.spanClause_none hwords
    | some o => exact h.spanClause_stop hwords (by simp [o.word.holds]) o.body

theorem branches_tokens {others : List (Guarded "ELSIF" (List Token))} (hbody : IsBody body)
    (hothers : ∀ g ∈ others, IsBody g.body) (hotherwise : ∀ o ∈ otherwise, IsBody o.body) :
    branches (body ++ laterTokens others otherwise) =
      .ok ⟨body, others.map Guarded.arm, otherwise.map Otherwise.body⟩ := by
  induction others generalizing body with
  | nil =>
    rw [branches_eq, hbody.spanClause_later (by decide)]
    cases otherwise with
    | none => rfl
    | some o =>
      have hlast : spanClause ["ELSIF", "ELSE"] o.body = (o.body, []) :=
        (hotherwise o rfl).spanClause_none (by decide)
      have helse : o.word.token.isKeyword "ELSIF" = false := isKeyword_eq o.word.holds _
      simp [laterTokens, otherwiseTokens, helse, lastBranch, hlast]
  | cons g others ih =>
    have hlater := ih (hothers g mem_cons_self) fun g' hg' =>
      hothers g' (mem_cons_of_mem g hg')
    rw [branches_eq, hbody.spanClause_later (by decide), laterTokens_cons]
    simp only [g.word.holds, if_true, Guarded.afterWord_append, conditionThen_guard, hlater]
    rfl

theorem conditional_tokens {first : Guarded "IF" (List Token)}
    (others : List (Guarded "ELSIF" (List Token))) (otherwise : Option (Otherwise (List Token)))
    (closing : Closing "IF") (hfirst : IsBody first.body) (hothers : ∀ g ∈ others, IsBody g.body)
    (hotherwise : ∀ o ∈ otherwise, IsBody o.body) :
    conditional ((first.afterWord ++ laterTokens others otherwise) ++ closing.tokens) =
      .ok (.conditional first.arm (others.map Guarded.arm) (otherwise.map Otherwise.body)) := by
  simp only [conditional, stripEnd_closing, Guarded.afterWord_append, conditionThen_guard,
    branches_tokens hfirst hothers hotherwise]
  rfl

/-! ### Arms -/

theorem arms_tokens {others : List (Guarded "WHEN" (List Token))} (hfirst : IsBody first.body)
    (hothers : ∀ g ∈ others, IsBody g.body) (hotherwise : ∀ o ∈ otherwise, IsBody o.body) :
    arms (first.afterWord ++ laterTokens others otherwise) =
      .ok ⟨first.arm :: others.map Guarded.arm, otherwise.map Otherwise.body⟩ := by
  induction others generalizing first with
  | nil =>
    rw [Guarded.afterWord_append, arms_eq, conditionThen_guard]
    dsimp only
    rw [hfirst.spanClause_later (by decide)]
    cases otherwise with
    | none => rfl
    | some o =>
      have hlast : spanClause ["WHEN", "ELSE"] o.body = (o.body, []) :=
        (hotherwise o rfl).spanClause_none (by decide)
      simp [laterTokens, otherwiseTokens, o.word.holds, lastArm, hlast, Except.map, Guarded.arm]
  | cons g others ih =>
    have hlater := ih (hothers g mem_cons_self) fun g' hg' =>
      hothers g' (mem_cons_of_mem g hg')
    have helse : g.word.token.isKeyword "ELSE" = false := isKeyword_eq g.word.holds _
    rw [Guarded.afterWord_append, arms_eq, conditionThen_guard]
    dsimp only
    rw [hfirst.spanClause_later (by decide), laterTokens_cons]
    simp only [helse, hlater]
    rfl

theorem selection_tokens (selector : Option (LeafWithout (·.isKeyword "WHEN")))
    (others : List (Guarded "WHEN" (List Token))) (otherwise : Option (Otherwise (List Token)))
    (closing : Closing "CASE") (hfirst : IsBody first.body) (hothers : ∀ g ∈ others, IsBody g.body)
    (hotherwise : ∀ o ∈ otherwise, IsBody o.body) :
    selection (((selector.map fun leaf => leaf.tokens).getD [] ++
        (first.tokens ++ laterTokens others otherwise)) ++ closing.tokens) =
      .ok (.selection (selector.map fun leaf => leaf.fragment)
        (first.arm :: others.map Guarded.arm) (otherwise.map Otherwise.body)) := by
  have hwhen := (IsInert.of_word first.word (by decide)).closesAfterEnd
  have harms := arms_tokens hfirst hothers hotherwise
  have hfront : ∀ rest : List Token, spanAtDepth (·.isKeyword "WHEN")
      ((selector.map fun leaf => leaf.tokens).getD [] ++ first.word.token :: rest) =
      ((selector.map fun leaf => leaf.tokens).getD [], first.word.token :: rest) := by
    intro rest
    cases selector with
    | none => exact spanFrom_cons_stop (by simp [first.word.holds]; rfl)
    | some leaf => exact leaf.spanAtDepth_stop first.word.holds hwhen _
  simp only [selection, stripEnd_closing, Guarded.tokens_eq first, cons_append, hfront, harms]
  cases selector with
  | none => rfl
  | some leaf => simp [leaf.nonempty, Except.map, Leaf.fragment]

/-! ### Loops -/

/-- The head of a loop is cut off before `LOOP`. -/
theorem loopParts_tokens (what : String) {head : List Token}
    (hhead : Neutral (fun _ => True) (fun _ t => t.isKeyword "LOOP" = false) head)
    (hapart : ¬EndsInEnd head) : loopParts what (head ++ loop.tokens) = .ok (head, loop.body) := by
  have hspan : spanAtDepth (·.isKeyword "LOOP") (head ++ loop.word.token :: loop.body) =
      (head, loop.word.token :: loop.body) :=
    hhead.spanFrom_stop (fun _ _ h => h) trivial (apart_of_not_endsInEnd hapart _) loop.word.holds
  have htokens : head ++ loop.tokens =
      (head ++ loop.word.token :: loop.body) ++ loop.closing.tokens := by
    simp [Looped.tokens]
  simp only [loopParts, htokens, stripEnd_closing, hspan]

theorem IsExpression.neutral_loop (h : IsExpression ts) :
    Neutral (fun _ => True) (fun _ t => t.isKeyword "LOOP" = false) ts :=
  h.neutral (fun _ _ => trivial) fun _ _ t ht =>
    h.plain t (Depth.mem_of_mem_outer ht) _ (by decide)

/-- Brackets are passed by a search that does not stop at the first of them. -/
theorem neutral_query {visit : Option Piece → Piece → Prop} (opening : Mark '(') (text : Leaf)
    (closing : Mark ')') (hvisit : ∀ p, visit p opening.token.toPiece) :
    Neutral (fun _ => True) visit (opening.token :: text.tokens ++ [closing.token]) :=
  (IsGroup.brackets opening.holds text.isExpression.passes closing.holds).neutral
    fun p _ => hvisit p

namespace Source

theorem neutral_loop (source : Source) :
    Neutral (fun _ => True) (fun _ t => t.isKeyword "LOOP" = false) source.tokens := by
  cases source with
  | query opening text closing =>
    have hkind := kind_of_isPunct opening.holds
    exact neutral_query opening text closing fun _ =>
      isKeyword_eq_false_of_kind (by simp [hkind]) _
  | cursor reference starts => exact reference.isExpression.neutral_loop
  | range reverse lower forward dots upper =>
    have hdots := IsInert.of_sign dots
    have hkind := kind_of_isOp dots.holds
    have hrange : Neutral (fun _ => True) (fun _ t => t.isKeyword "LOOP" = false)
        (lower.tokens ++ dots.token :: upper.tokens) := by
      refine lower.isExpression.neutral_loop.append_any ?_ (.of_head hdots.closesAfterEnd _ _)
      exact .cons_any hdots.toIsInline
        (fun _ _ => isKeyword_eq_false_of_kind (by simp [hkind]) _)
        upper.isExpression.neutral_loop
    cases reverse with
    | none => exact hrange
    | some word =>
      exact .cons (IsInert.of_word word (by decide)).toIsInline
        (fun _ _ => isKeyword_eq_false word.holds (by decide)) hrange trivial

/-- The bounds of a range are cut at the dots. -/
theorem loopOver_range (name : String) (reverse : Option (Word "REVERSE"))
    (lower : LeafWithout (·.isOp ".."))
    (forward : reverse = none → lower.StartsWith (!·.isKeyword "REVERSE")) (dots : Sign "..")
    (upper : Leaf) (body : List Token) :
    loopOver name (Source.range reverse lower forward dots upper).tokens body =
      .ok ((Source.range reverse lower forward dots upper).form name body) := by
  have hdots := (IsInert.of_sign dots).closesAfterEnd
  cases reverse with
  | none =>
    obtain ⟨t, ts, hlower⟩ := exists_cons_of_ne_nil lower.nonempty
    have hspan := lower.spanAtDepth_stop dots.holds hdots upper.tokens
    have hreverse : t.isKeyword "REVERSE" = false := by
      simpa using forward rfl t (by rw [hlower]; rfl)
    simp only [tokens, form, Leaf.fragment, Option.map_none, Option.toList_none, nil_append,
      Option.isSome_none]
    rw [hlower, cons_append] at hspan ⊢
    simp [loopOver, hspan, lowerBound, isReverse, hreverse, upper.nonempty]
  | some word =>
    have hword := IsInert.of_word word (by decide)
    have hkind := kind_of_isKeyword word.holds
    have hfront : Neutral (fun _ => True) (fun _ t => t.isOp ".." = false)
        (word.token :: lower.tokens) :=
      .cons hword.toIsInline (fun _ _ => by simp [isOp, hkind]) lower.neutral trivial
    have hspan : spanAtDepth (·.isOp "..") (word.token :: (lower.tokens ++ dots.token ::
        upper.tokens)) = (word.token :: lower.tokens, dots.token :: upper.tokens) :=
      hfront.spanFrom_stop (fun _ _ h => h) trivial (.of_head hdots _ _) dots.holds
    simp [tokens, form, loopOver, hspan, lowerBound, isReverse, word.holds, lower.nonempty,
      upper.nonempty, Leaf.fragment]

theorem loopOver_tokens (name : String) (source : Source) (body : List Token) :
    loopOver name source.tokens body = .ok (source.form name body) := by
  cases source with
  | query opening text closing =>
    have hkind := kind_of_isPunct opening.holds
    have hneutral : Neutral (fun _ => True) (fun _ t => t.isOp ".." = false)
        (opening.token :: text.tokens ++ [closing.token]) :=
      neutral_query opening text closing fun _ => by simp [isOp, hkind]
    have hspan : spanAtDepth (·.isOp "..") (opening.token :: text.tokens ++ [closing.token]) =
        (opening.token :: text.tokens ++ [closing.token], []) :=
      hneutral.spanFrom_none (fun _ _ h => h) trivial
    have hgroup := bracketGroup_of_balanced opening.holds text.isExpression.balanced
      closing.holds []
    simp only [tokens, form, loopOver, hspan, loopQuery, hgroup]
    rfl
  | cursor reference starts =>
    obtain ⟨t, ts, hreference⟩ := exists_cons_of_ne_nil reference.nonempty
    have hspan := reference.spanAtDepth_none
    have hfirst := starts t (by rw [hreference]; rfl)
    have hopening : t.isPunct '(' = false := by
      simp only [isIdentifier, beq_iff_eq] at hfirst
      simp [isPunct, hfirst]
    simp only [tokens, form, Leaf.fragment]
    rw [hreference] at hspan ⊢
    simp [loopOver, hspan, loopQuery, bracketGroup, hopening]
  | range reverse lower forward dots upper => exact loopOver_range ..

end Source

theorem counted_tokens (counter : Identifier) (inWord : Word "IN") (source : Source)
    (hapart : ¬EndsInEnd source.tokens) :
    counted (counter.token :: inWord.token :: (source.tokens ++ loop.tokens)) =
      .ok (source.form counter.token.text loop.body) := by
  simp only [counted, counter.holds, if_true, countedIn, inWord.holds, countedLoop,
    loopParts_tokens _ source.neutral_loop hapart, source.loopOver_tokens]

theorem whileLoop_tokens (condition : Leaf) (hapart : ¬EndsInEnd condition.tokens) :
    whileLoop (condition.tokens ++ loop.tokens) =
      .ok (.whileLoop condition.fragment loop.body) := by
  simp [whileLoop, loopParts_tokens _ condition.isExpression.neutral_loop hapart,
    condition.nonempty, Leaf.fragment]

/-! ### Handlers -/

theorem splitAt_of_clear (h : ∀ t ∈ ts, p t = false) : splitAt p ts = [ts] := by
  induction ts with
  | nil => rfl
  | cons t ts ih =>
    rw [splitAt, h t mem_cons_self, ih fun u hu => h u (mem_cons_of_mem t hu)]
    rfl

theorem splitAt_append {rest : List Token} (h : ∀ u ∈ ts, p u = false) (ht : p t) :
    splitAt p (ts ++ t :: rest) = ts :: splitAt p rest := by
  induction ts with
  | nil => rw [nil_append, splitAt, if_pos ht]
  | cons u ts ih =>
    rw [cons_append, splitAt, h u mem_cons_self, ih fun v hv => h v (mem_cons_of_mem u hv)]
    rfl

namespace Rescue

theorem splitAt_names (first : RescueName) (others : List (Word "OR" × RescueName)) :
    splitAt (·.isKeyword "OR") (first.tokens ++ otherNames others) =
      first.tokens :: others.map fun (_, name) => name.tokens := by
  have hclear : ∀ name : RescueName, ∀ t ∈ name.tokens, t.isKeyword "OR" = false :=
    fun name t ht => name.single t ht _ (by decide)
  induction others generalizing first with
  | nil =>
    rw [otherNames, flatMap_nil, append_nil, splitAt_of_clear (hclear first)]
    rfl
  | cons other others ih =>
    rw [otherNames, flatMap_cons, cons_append, splitAt_append (hclear first) other.1.holds,
      map_cons]
    exact congrArg _ (ih other.2)

theorem handlerNames_names (r : Rescue (List Token)) :
    handlerNames r.names =
      some (render r.first.tokens, r.others.map fun (_, name) => render name.tokens) := by
  have hparts := splitAt_names r.first r.others
  have hfilled : (r.first.tokens :: r.others.map fun (_, name) => name.tokens).any isEmpty =
      false := by
    rw [any_eq_false]
    intro part hpart
    rcases mem_cons.1 hpart with rfl | hpart
    · simp [r.first.nonempty]
    · obtain ⟨other, _, rfl⟩ := mem_map.1 hpart
      simp [other.2.nonempty]
  simp only [handlerNames, names, hparts, hfilled, Bool.false_eq_true, if_false, map_cons, map_map]
  rfl

/-- A handler is read from the tokens after its `WHEN`. -/
theorem handlerSpan_afterWhen (r : Rescue (List Token)) :
    handlerSpan r.word.token r.afterWhen = .handler r.handler := by
  have hnames : Neutral (fun _ => True) (fun _ t => t.isKeyword "THEN" = false) r.names :=
    neutral_names r fun t ht _ => ht _ (by decide)
  have hspan : spanAtDepth (·.isKeyword "THEN") r.afterWhen =
      (r.names, r.thenWord.token :: r.body) :=
    hnames.spanFrom_stop (fun _ _ h => h) trivial
      (.of_head (isInert_then r).closesAfterEnd _ _) r.thenWord.holds
  simp only [handlerSpan, handlerAfterWhen, hspan, handlerNames_names]
  rfl

/-- Handlers are cut at the `WHEN` after the semicolon of each body. -/
theorem handlersFrom_tokens {r : Rescue (List Token)}
    (hbodies : ∀ r' ∈ r :: rescues, IsBody r'.body) (hfilled : ∀ r' ∈ r :: rescues, r'.body ≠ []) :
    handlersFrom r.word.token (r.afterWhen ++ rescues.flatMap tokens) =
      (r :: rescues).map fun r' => .handler r'.handler := by
  induction rescues generalizing r with
  | nil =>
    have hneutral := neutral_afterWhen (hbodies r mem_cons_self)
    have hspan : spanClause ["WHEN"] r.afterWhen = (r.afterWhen, []) :=
      hneutral.spanFrom_none (fun _ _ h => h) trivial
    rw [flatMap_nil, append_nil, handlersFrom_eq, hspan]
    simp only [handlerSpan_afterWhen]
    rfl
  | cons next rescues ih =>
    have hbody := hbodies r mem_cons_self
    have hneutral := neutral_afterWhen hbody
    obtain ⟨last, hlast⟩ := Option.ne_none_iff_exists'.1
      (mt getLast?_eq_none_iff.1 (hfilled r mem_cons_self))
    have hprevious : lastPiece none r.afterWhen = some last.toPiece := by
      rw [afterWhen, lastPiece_append, lastPiece, lastPiece_eq, hlast]
      rfl
    have hspan : spanClause ["WHEN"] (r.afterWhen ++ next.word.token ::
        (next.afterWhen ++ rescues.flatMap tokens)) =
        (r.afterWhen, next.word.token :: (next.afterWhen ++ rescues.flatMap tokens)) := by
      refine hneutral.spanFrom_stop (fun _ _ h => h) trivial (apart_afterWhen hbody _) ?_
      rw [hprevious]
      simp [hbody.ends last hlast, next.word.holds]
    have hlater := ih (fun r' hr' => hbodies r' (mem_cons_of_mem r hr'))
      fun r' hr' => hfilled r' (mem_cons_of_mem r hr')
    rw [flatMap_cons, tokens, cons_append, handlersFrom_eq, hspan]
    simp only [handlerSpan_afterWhen, hlater]
    rfl

theorem handlerSpans_tokens (hbodies : ∀ r ∈ rescues, IsBody r.body)
    (hfilled : ∀ r ∈ rescues, r.body ≠ []) :
    handlerSpans (rescues.flatMap tokens) = rescues.map fun r => .handler r.handler := by
  cases rescues with
  | nil => rfl
  | cons r rescues =>
    have hspan : spanClause ["WHEN"] (r.word.token :: (r.afterWhen ++ rescues.flatMap tokens)) =
        ([], r.word.token :: (r.afterWhen ++ rescues.flatMap tokens)) :=
      spanFrom_cons_stop (by simp [r.word.holds]; rfl)
    rw [flatMap_cons, tokens, cons_append]
    simp only [handlerSpans, hspan, handlersFrom_tokens hbodies hfilled]
    rfl

theorem withNotes_handlers (path : String) (handlers : List (Handler (List Token))) :
    withNotes path [] (handlers.map HandlerSpan.handler) =
      (handlers.map (Handler.map (⟨·, []⟩)), []) := by
  induction handlers with
  | nil => rfl
  | cons h handlers ih => simp only [map_cons, withNotes, ih]

/-- Nothing is reported when only the last handler takes all other exceptions. -/
theorem othersNotes_eq_nil {β : Type} {handlers : List (Handler β)}
    (h : ∀ handler ∈ handlers.dropLast, handler.isOthers = false) : othersNotes handlers = [] := by
  induction handlers with
  | nil => rfl
  | cons first handlers ih =>
    cases handlers with
    | nil => cases hothers : first.isOthers <;> simp [othersNotes, hothers]
    | cons second handlers =>
      rw [dropLast_cons_cons] at h
      have hlater := ih fun handler hmem => h handler (mem_cons_of_mem first hmem)
      simpa [othersNotes, h first mem_cons_self] using hlater

theorem readHandlers_tokens (path : String) (hbodies : ∀ r ∈ rescues, IsBody r.body)
    (hfilled : ∀ r ∈ rescues, r.body ≠ [])
    (hothers : ∀ r ∈ rescues.dropLast, r.handler.isOthers = false) :
    readHandlers path (rescues.flatMap tokens) =
      ⟨(rescues.map handler).map (Handler.map (⟨·, []⟩)), [], []⟩ := by
  have hspans : handlerSpans (rescues.flatMap tokens) =
      (rescues.map handler).map HandlerSpan.handler := by
    rw [handlerSpans_tokens hbodies hfilled, map_map]
    rfl
  have hnotes : othersNotes ((rescues.map handler).map (Handler.map (Slice.mk · []))) = [] := by
    refine othersNotes_eq_nil fun h hmem => ?_
    rw [← map_dropLast, ← map_dropLast] at hmem
    obtain ⟨h', hh', rfl⟩ := mem_map.1 hmem
    obtain ⟨r, hr, rfl⟩ := mem_map.1 hh'
    exact hothers r hr
  have htexts : ((rescues.map handler).map HandlerSpan.handler).filterMap HandlerSpan.text? =
      [] := by
    simp [HandlerSpan.text?]
  simp only [readHandlers, hspans, withNotes_handlers, hnotes, htexts, append_nil]

end Rescue

/-! ### Blocks -/

theorem IsBody.splitBody_append (h : IsBody body) (rest : List Token) :
    splitBody .outerBlock false (body ++ rest) =
      (body ++ (splitBody .outerBlock false rest).1,
        (splitBody .outerBlock false rest).2) := by
  have hpassage := h.neutral .outerBlock none rest trivial (h.apart rest)
  refine Passage.splitBody_append (hpassage.mono ?_) isOutside_outerBlock
  rintro n p t ⟨hwithin, hbase⟩
  refine ⟨Nesting.isOutside_of_within hwithin isOutside_outerBlock, fun hn => ?_⟩
  have hinBody := hbase (beq_iff_eq.1 hn)
  exact ⟨hinBody.handlers, hinBody.declarations⟩

/-- The sections of a written block. -/
theorem split_block (endWord : Word "END") (word : Word "BEGIN")
    (exceptions : Option (Word "EXCEPTION" × List (Rescue (List Token)))) (hbody : IsBody body)
    (hrescues : ∀ e ∈ exceptions, Passes (e.2.flatMap Rescue.tokens)) :
    split (word.token :: (body ++ exceptionTokens exceptions) ++ [endWord.token]) =
      .ok {
        declarations := none
        statements := body
        handlers := exceptions.map fun e => e.2.flatMap Rescue.tokens
        label := none
        trailing := []
        warnings := [] } := by
  have hbegin : ∀ rest, splitBegin none (word.token :: rest) = .ok (some ([], rest)) := by
    intro rest
    rw [splitBegin, if_pos word.holds]
  rw [cons_append, append_assoc]
  cases exceptions with
  | none =>
    have hsplit := hbody.splitBody_append [endWord.token]
    rw [splitBody_end endWord.holds false (by simp), append_nil] at hsplit
    simp only [split, hbegin, exceptionTokens, nil_append, hsplit]
    rfl
  | some e =>
    have hsplit := hbody.splitBody_append
      (e.1.token :: (e.2.flatMap Rescue.tokens ++ [endWord.token]))
    rw [splitBody_exception e.1.holds, append_nil] at hsplit
    have hend := Passes.splitEnd_append (hrescues e rfl)
      (Apart.of_head (closesAfterEnd_of_end endWord.holds) _ [])
    rw [splitEnd_end endWord.holds (by simp), append_nil] at hend
    simp only [split, hbegin, exceptionTokens, cons_append, hsplit, hend]
    rfl

/-! ### All statements -/

/-- A written statement is recognised for what it means. -/
theorem recognise_clause (path : String) {clause : Clause (List Token)}
    (hbodies : ∀ body ∈ clause.bodies, IsBody body) (hhead : ∀ head ∈ clause.head?, ¬EndsInEnd head)
    (hfilled : ∀ r ∈ clause.rescues, r.body ≠ [])
    (hothers : ∀ r ∈ clause.rescues.dropLast, r.handler.isOthers = false) :
    recognise path clause.tokens = .ok (quiet clause.form) := by
  cases clause with
  | plain statement => exact recognise_plain path statement
  | conditional first others otherwise closing =>
    obtain ⟨hfirst, hothers, hotherwise⟩ := Clause.forall_branches hbodies
    have hread := conditional_tokens others otherwise closing hfirst hothers hotherwise
    rw [Clause.tokens, Guarded.tokens_eq, cons_append, cons_append,
      recognise_word .conditional first.word (by decide)]
    simp only [recogniseLead, hread]
    rfl
  | selection word selector first others otherwise closing =>
    obtain ⟨hfirst, hothers, hotherwise⟩ := Clause.forall_branches hbodies
    have hread := selection_tokens selector others otherwise closing hfirst hothers hotherwise
    rw [Clause.tokens, cons_append, recognise_word .selection word (by decide)]
    simp only [recogniseLead, hread]
    rfl
  | counted word counter inWord source loop =>
    rw [Clause.tokens, recognise_word .counted word (by decide)]
    simp only [recogniseLead, counted_tokens counter inWord source (hhead _ rfl)]
    rfl
  | whileLoop word condition loop =>
    rw [Clause.tokens, recognise_word .whileLoop word (by decide)]
    simp only [recogniseLead, whileLoop_tokens condition (hhead _ rfl)]
    rfl
  | endlessLoop loop =>
    rw [Clause.tokens, Looped.tokens, cons_append,
      recognise_word .endlessLoop loop.word (by decide)]
    simp only [recogniseLead, endlessLoop, stripEnd_closing]
    rfl
  | block word body exceptions endWord =>
    have hrescues : ∀ e ∈ exceptions, ∀ r ∈ e.2, IsBody r.body := by
      rintro e rfl r hr
      refine hbodies _ ?_
      simp only [Clause.bodies, Option.map_some, Option.getD_some, mem_cons, mem_map]
      exact .inr ⟨r, hr, rfl⟩
    have hsplit := split_block endWord word exceptions (hbodies body (by simp [Clause.bodies]))
      fun e he => Rescue.passes_flatMap (hrescues e he)
    rw [Clause.tokens]
    rw [cons_append] at hsplit ⊢
    rw [recognise_word .block word (by decide)]
    simp only [recogniseLead, block, hsplit]
    cases exceptions with
    | none => rfl
    | some e =>
      have hread := Rescue.readHandlers_tokens path (hrescues e rfl) hfilled hothers
      simp [blockOf, blockHandlers, hread, quiet, Clause.form, Form.map]

end TriggerDialect.Phrase
