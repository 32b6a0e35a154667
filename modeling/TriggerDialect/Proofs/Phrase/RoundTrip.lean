import TriggerDialect.Proofs.Accounting
import TriggerDialect.Proofs.Phrase.Compound
import TriggerDialect.Proofs.Reading.Heads

/-!
# Written statements are read back

`Written ss ts` says that the tokens `ts` are a written form of the statement list `ss`: clauses
nested to any depth, labels before them, semicolons behind them. Reading `ts` gives `ss` back, with
nothing to report (`statements_of_written`).

One thing written statements must not do: the head of a loop must not end in the `END` of a `CASE`
expression, for `END LOOP` closes a loop.
-/

namespace TriggerDialect.Phrase

open Grammar List Piece Clause

variable {ts us : List Token} {ss : List Statement} {heads : List Token → Prop}
  {clause : Clause (List Token)} {word : String}

/-- A label `<<name>>`. -/
structure Label where
  opening : Sign "<<"
  name : Identifier
  closing : Sign ">>"

/-- The tokens of a label. -/
def Label.tokens (label : Label) : List Token :=
  [label.opening.token, label.name.token, label.closing.token]

/-- The written forms of a statement list in which the head of every loop satisfies `heads`. Inner
lists are given as trees with a written form. -/
inductive Written (heads : List Token → Prop) : List Statement → List Token → Prop
  | nil : Written heads [] []
  | label {ss : List Statement} {ts : List Token} (label : Label) (hss : ss ≠ [])
      (hlater : Written heads ss ts) :
      Written heads (.simple (.label label.name.token.text) :: ss) (label.tokens ++ ts)
  | statement {ss : List Statement} {ts : List Token}
      (clause : Clause (List Statement × List Token)) (semicolon : Mark ';')
      (hhead : ∀ head ∈ clause.head?, heads head) (hfilled : ∀ r ∈ clause.rescues, r.body.1 ≠ [])
      (hothers : ∀ r ∈ clause.rescues.dropLast, r.handler.isOthers = false)
      (hbodies : ∀ body ∈ clause.bodies, Written heads body.1 body.2)
      (hlater : Written heads ss ts) :
      Written heads (.node (clause.form.map Prod.fst) :: ss)
        ((clause.map Prod.snd).tokens ++ semicolon.token :: ts)

/-- The written forms that can be read back: no head of a loop ends in `END`. -/
abbrev Readable : List Statement → List Token → Prop := Written fun head => ¬EndsInEnd head

namespace Clause

/-- A statement starts with a token that starts neither a label nor a declaration. -/
theorem exists_first (clause : Clause (List Token)) :
    ∃ t rest, clause.tokens = t :: rest ∧ t.isOp "<<" = false ∧ t.isKeyword "DECLARE" = false := by
  have hword : ∀ {word : String} (w : Word word) (rest : List Token),
      Text.upper word ≠ Text.upper "DECLARE" →
      ∃ t rest', w.token :: rest = t :: rest' ∧ t.isOp "<<" = false ∧
        t.isKeyword "DECLARE" = false := by
    intro word w rest hdeclare
    have hkind := kind_of_isKeyword w.holds
    exact ⟨_, _, rfl, by simp [isOp, hkind], isKeyword_eq_false w.holds hdeclare⟩
  have hkind : ∀ {t : Token} (rest : List Token), t.kind = .identifier ∨ t.kind = .bindVariable →
      ∃ u rest', t :: rest = u :: rest' ∧ u.isOp "<<" = false ∧
        u.isKeyword "DECLARE" = false := by
    rintro t rest (ht | ht) <;>
      exact ⟨t, rest, rfl, by simp [isOp, ht], by simp [isKeyword, ht]⟩
  cases clause with
  | plain statement =>
    cases statement with
    | assignment target starts sign value =>
      obtain ⟨t, ts, htokens⟩ := exists_cons_of_ne_nil target.nonempty
      have hfirst := starts t (by rw [htokens]; rfl)
      simp only [isTarget, Bool.or_eq_true, beq_iff_eq] at hfirst
      rw [tokens, Plain.tokens, htokens]
      exact hkind _ hfirst
    | call name brackets =>
      exact hkind _ (.inl (by simpa [isIdentifier] using name.first.holds))
    | command verb word leads rest => cases verb <;> exact hword ⟨word, leads⟩ _ (by decide)
    | null word => exact hword word _ (by decide)
    | returnValue word value => exact hword word _ (by decide)
    | raise word name => exact hword word _ (by decide)
    | jump kind word leads label condition => cases kind <;> exact hword ⟨word, leads⟩ _ (by decide)
    | cursor action word leads text => cases action <;> exact hword ⟨word, leads⟩ _ (by decide)
    | executeImmediate word immediate text => exact hword word _ (by decide)
  | conditional first others otherwise closing => exact hword first.word _ (by decide)
  | selection word selector first others otherwise closing => exact hword word _ (by decide)
  | counted word counter inWord source loop => exact hword word _ (by decide)
  | whileLoop word condition loop => exact hword word _ (by decide)
  | endlessLoop loop => exact hword loop.word _ (by decide)
  | block word body exceptions endWord => exact hword word _ (by decide)

end Clause

theorem Written.mono {heads' : List Token → Prop} (h : Written heads ss ts)
    (himp : ∀ head, heads head → heads' head) : Written heads' ss ts := by
  induction h with
  | nil => exact .nil
  | label label hss _ ih => exact .label label hss ih
  | statement clause semicolon hhead hfilled hothers _ _ ihbodies ihlater =>
    exact .statement clause semicolon (fun head hmem => himp head (hhead head hmem)) hfilled hothers
      ihbodies ihlater

/-! ### Lists are passed over -/

theorem Written.ne_nil (h : Written heads ss ts) (hss : ss ≠ []) : ts ≠ [] := by
  cases h with
  | nil => exact absurd rfl hss
  | label label _ _ => simp [Label.tokens]
  | statement clause semicolon _ _ _ _ _ => simp

theorem IsBody.nil : IsBody [] := ⟨.nil, by simp⟩

theorem neutral_cons_inBody {t : Token} (hword : t.kind ≠ .keyword) (hinline : t.IsInline)
    (hus : Neutral (fun _ => True) InBody us) : Neutral (fun _ => True) InBody (t :: us) := by
  refine .cons hinline (fun p _ => ⟨?_, ?_, .inr fun word _ => ?_⟩) hus trivial
  all_goals exact isKeyword_eq_false_of_kind hword _

theorem IsBody.label (h : IsBody ts) (hts : ts ≠ []) (label : Label) :
    IsBody (label.tokens ++ ts) where
  neutral := by
    have hopening := kind_of_isOp label.opening.holds
    have hclosing := kind_of_isOp label.closing.holds
    have hname : label.name.token.kind = .identifier := by
      simpa [isIdentifier] using label.name.holds
    refine neutral_cons_inBody (by simp [hopening]) (IsInert.of_sign label.opening).toIsInline ?_
    refine neutral_cons_inBody (by simp [hname]) (IsInert.of_identifier label.name).toIsInline ?_
    exact neutral_cons_inBody (by simp [hclosing]) (IsInert.of_sign label.closing).toIsInline
      h.neutral
  ends t ht := by
    rw [getLast?_append] at ht
    cases hlast : ts.getLast? with
    | none => exact absurd (getLast?_eq_none_iff.1 hlast) hts
    | some last =>
      rw [hlast, Option.some_or] at ht
      rw [← Option.some.inj ht]
      exact h.ends last hlast

theorem IsBody.statement (hclause : Begins clause.tokens) (semicolon : Mark ';') (h : IsBody ts) :
    IsBody (clause.tokens ++ semicolon.token :: ts) where
  neutral := by
    have hword : semicolon.token.kind ≠ .keyword := by simp [kind_of_isPunct semicolon.holds]
    have hbegins : Neutral (fun _ => True) InBody clause.tokens :=
      hclause.mono (fun _ h => h) fun _ _ h => h.toInBody
    refine hbegins.append_any ?_ (.of_head (closesAfterEnd_of_kind hword) _ _)
    exact neutral_cons_inBody hword (.of_isPunct semicolon.holds (by decide) (by decide)) h.neutral
  ends t ht := by
    rw [getLast?_append, getLast?_cons] at ht
    cases hlast : ts.getLast? with
    | none =>
      rw [hlast] at ht
      cases ht
      exact semicolon.holds
    | some last =>
      rw [hlast] at ht
      cases ht
      exact h.ends last hlast

theorem Readable.isBody (h : Readable ss ts) : IsBody ts := by
  induction h with
  | nil => exact .nil
  | label label hss hlater ih => exact ih.label (hlater.ne_nil hss) label
  | statement clause semicolon hhead _ _ _ _ ihbodies ihlater =>
    refine .statement (Clause.begins ?_ (by rwa [Clause.head?_map])) semicolon ihlater
    rw [Clause.bodies_map]
    intro body hbody
    obtain ⟨entry, hentry, rfl⟩ := mem_map.1 hbody
    exact ihbodies entry hentry

/-! ### Lists are cut into statements -/

theorem piecewise_label (label : Label) (ts : List Token) :
    piecewise (label.tokens ++ ts) = .label label.name.token.text :: piecewise ts := by
  have hlabel : leadingLabel? (label.tokens ++ ts) = some (label.name.token.text, ts) := by
    simp [leadingLabel?, Label.tokens, label.opening.holds, label.name.holds, label.closing.holds]
  rw [piecewise_eq, hlabel]

theorem piecewise_statement (hclause : Begins clause.tokens) (semicolon : Mark ';')
    (ts : List Token) :
    piecewise (clause.tokens ++ semicolon.token :: ts) =
      .statement ⟨clause.tokens, true⟩ :: piecewise ts := by
  obtain ⟨t, rest, htokens, hlabel, hdeclare⟩ := clause.exists_first
  have hword : semicolon.token.kind ≠ .keyword := by simp [kind_of_isPunct semicolon.holds]
  have hspan : spanStatement (clause.tokens ++ semicolon.token :: ts) =
      (clause.tokens, semicolon.token :: ts) := by
    have hcut : spanAtDepth (·.isPunct ';') (clause.tokens ++ semicolon.token :: ts) =
        (clause.tokens, semicolon.token :: ts) :=
      Neutral.spanFrom_stop hclause (fun _ _ h => h.semicolon) trivial
        (.of_head (closesAfterEnd_of_kind hword) _ _) semicolon.holds
    rw [htokens, cons_append] at hcut ⊢
    simp [spanStatement, hdeclare, hcut]
  have hnone : leadingLabel? (clause.tokens ++ semicolon.token :: ts) = none := by
    rw [htokens]
    cases rest with
    | nil => cases ts <;> simp [leadingLabel?, hlabel]
    | cons u rest =>
      cases rest <;> simp [leadingLabel?, hlabel]
  rw [piecewise_eq, hnone, hspan]
  simp [htokens]

/-! ### Reading back -/

/-- A written statement is read back if its inner lists are. -/
theorem statementWith_clause {clause : Clause (List Statement × List Token)} {path : String}
    (hread : recognise path (clause.map Prod.snd).tokens = .ok (quiet (clause.map Prod.snd).form))
    (hbodies : ∀ body ∈ clause.bodies, ∀ place,
      (statements place body.2).value = body.1 ∧ (statements place body.2).notes = []) :
    (statementWith statements path ⟨(clause.map Prod.snd).tokens, true⟩).value =
        .node (clause.form.map Prod.fst) ∧
      (statementWith statements path ⟨(clause.map Prod.snd).tokens, true⟩).notes = [] := by
  have hinner : ∀ entry ∈ (clause.form.label path).bodies,
      (statements entry.1 entry.2.2).value = entry.2.1 ∧
        (statements entry.1 entry.2.2).notes = [] := by
    intro entry hentry
    have hmem := Form.snd_mem_bodies hentry
    rw [bodies_form] at hmem
    exact hbodies entry.2 hmem entry.1
  simp only [statementWith, unclosedNotes, hread, quiet, if_true, form_map, Form.label_map,
    Form.map_map, assembled, Outcome.after, nil_append, append_nil, Form.bodies_map,
    Statement.node.injEq, flatMap_map, flatMap_eq_nil_iff]
  refine ⟨?_, fun entry hentry => (hinner entry hentry).2⟩
  calc (clause.form.label path).map (fun entry => (statements entry.1 entry.2.2).value)
      = (clause.form.label path).map fun entry => entry.2.1 :=
        Form.map_congr fun entry hentry => (hinner entry hentry).1
    _ = ((clause.form.label path).map Prod.snd).map Prod.fst := (Form.map_map _ _ _).symm
    _ = clause.form.map Prod.fst := by rw [Form.map_snd_label]

/-- Reading a written list gives the list and nothing to report, at whatever places its statements
stand. -/
theorem Readable.read (h : Readable ss ts) (place : Nat → String) :
    ((piecewise ts).mapIdx fun i piece => pieceWith statements (place i) piece).map Outcome.value =
        ss ∧
      ((piecewise ts).mapIdx fun i piece => pieceWith statements (place i) piece).flatMap
        Outcome.notes = [] := by
  -- the places are general because the later statements of a list do not start at its first place
  induction h generalizing place with
  | nil =>
    have hpieces : piecewise [] = [] := by
      rw [piecewise]
      rfl
    rw [hpieces]
    exact ⟨rfl, rfl⟩
  | label label hss hlater ih =>
    obtain ⟨hvalues, hnotes⟩ := ih fun i => place (i + 1)
    rw [piecewise_label]
    simp only [mapIdx_cons, map_cons, flatMap_cons, hvalues, hnotes]
    exact ⟨rfl, rfl⟩
  | statement clause semicolon hhead hfilled hothers hbodies hlater ihbodies ihlater =>
    obtain ⟨hvalues, hnotes⟩ := ihlater fun i => place (i + 1)
    have hapart : ∀ head ∈ (clause.map Prod.snd).head?, ¬EndsInEnd head := by
      rwa [Clause.head?_map]
    have hinner : ∀ body ∈ (clause.map Prod.snd).bodies, IsBody body := by
      rw [bodies_map]
      intro body hbody
      obtain ⟨entry, hentry, rfl⟩ := mem_map.1 hbody
      exact Readable.isBody (hbodies entry hentry)
    have hread : recognise (place 0) (clause.map Prod.snd).tokens =
        .ok (quiet (clause.map Prod.snd).form) := by
      refine recognise_clause (place 0) hinner hapart ?_ ?_
      · rw [rescues_map]
        intro r hr
        obtain ⟨r', hr', rfl⟩ := mem_map.1 hr
        exact (hbodies r'.body (body_mem_bodies hr')).ne_nil (hfilled r' hr')
      · rw [rescues_map, ← map_dropLast]
        intro r hr
        obtain ⟨r', hr', rfl⟩ := mem_map.1 hr
        exact hothers r' hr'
    obtain ⟨hvalue, hnote⟩ := statementWith_clause hread fun body hbody inside => by
      rw [statements_eq]
      exact ihbodies body hbody (Path.child inside)
    rw [piecewise_statement (begins hinner hapart), mapIdx_cons, map_cons,
      flatMap_cons, hvalues, hnotes]
    exact ⟨congrArg (· :: _) hvalue, (append_nil _).trans hnote⟩

/-- What reading a written list should give. -/
def readBack (path : String) (ss : List Statement) : Outcome (List Statement) :=
  ⟨ss, [], census (Statement.walkList path ss)⟩

theorem Readable.statements_eq (h : Readable ss ts) (path : String) :
    statements path ts = readBack path ss := by
  obtain ⟨hvalue, hnotes⟩ := h.read (Path.child path)
  have hfound := statements_isAccounted path ts
  rw [Outcome.IsAccounted, Grammar.statements_eq] at hfound
  rw [Grammar.statements_eq]
  simp only [Outcome.all, hvalue, hnotes, readBack] at hfound ⊢
  rw [hfound]

/-! ### Only readable lists are read back -/

theorem infix_flatMap {α : Type} {f : α → List Token} {a : α} {as : List α} (h : a ∈ as) :
    f a <:+: as.flatMap f := by
  obtain ⟨front, rest, rfl⟩ := append_of_mem h
  exact ⟨front.flatMap f, rest.flatMap f, by simp⟩

theorem Guarded.body_isInfix (g : Guarded word (List Token)) : g.body <:+: g.tokens :=
  ⟨g.word.token :: (g.condition.tokens ++ [g.thenWord.token]), [], by simp [tokens]⟩

theorem Rescue.body_isInfix (r : Rescue (List Token)) : r.body <:+: r.tokens :=
  ⟨r.word.token :: (r.names ++ [r.thenWord.token]), [], by simp [tokens, afterWhen]⟩

theorem body_infix_branches {word' : String} (first : Guarded word' (List Token))
    (others : List (Guarded word (List Token))) (otherwise : Option (Otherwise (List Token))) :
    ∀ body ∈ first.body :: others.map Guarded.body ++ (otherwise.map Otherwise.body).toList,
      body <:+: first.tokens ++ laterTokens others otherwise := by
  intro body h
  rcases mem_append.1 h with h | h
  · rw [← append_assoc]
    refine List.IsInfix.trans ?_ (prefix_append _ _).isInfix
    rcases mem_cons.1 h with rfl | h
    · exact first.body_isInfix.trans (prefix_append _ _).isInfix
    · obtain ⟨g, hg, rfl⟩ := mem_map.1 h
      exact (g.body_isInfix.trans (infix_flatMap hg)).trans (suffix_append _ _).isInfix
  · cases otherwise with
    | none => cases h
    | some o =>
      rw [mem_singleton.1 h, ← append_assoc]
      exact (suffix_cons o.word.token o.body).isInfix.trans (suffix_append _ _).isInfix

/-- The inner lists of a statement are runs of its tokens. -/
theorem Clause.body_isInfix (clause : Clause (List Token)) :
    ∀ body ∈ clause.bodies, body <:+: clause.tokens := by
  have hloop : ∀ loop : Looped (List Token), loop.body <:+: loop.tokens := fun loop =>
    ⟨[loop.word.token], loop.closing.tokens, by simp [Looped.tokens]⟩
  intro body hbody
  cases clause with
  | plain statement => cases hbody
  | conditional first others otherwise closing =>
    refine List.IsInfix.trans ?_ (prefix_append _ _).isInfix
    exact body_infix_branches first others otherwise body hbody
  | selection word selector first others otherwise closing =>
    refine List.IsInfix.trans ?_ (prefix_append _ _).isInfix
    refine List.IsInfix.trans ?_ (suffix_cons _ _).isInfix
    refine List.IsInfix.trans ?_ (suffix_append _ _).isInfix
    exact body_infix_branches first others otherwise body hbody
  | counted word counter inWord source loop =>
    rw [mem_singleton.1 hbody]
    exact (hloop loop).trans ⟨word.token :: counter.token :: inWord.token :: source.tokens, [],
      by simp [tokens]⟩
  | whileLoop word condition loop =>
    rw [mem_singleton.1 hbody]
    exact (hloop loop).trans ⟨word.token :: condition.tokens, [], by simp [tokens]⟩
  | endlessLoop loop =>
    rw [mem_singleton.1 hbody]
    exact hloop loop
  | block word body exceptions endWord =>
    refine List.IsInfix.trans ?_ (prefix_append _ _).isInfix
    refine List.IsInfix.trans ?_ (suffix_cons _ _).isInfix
    rcases mem_cons.1 hbody with rfl | hbody
    · exact (prefix_append _ _).isInfix
    · refine List.IsInfix.trans ?_ (suffix_append _ _).isInfix
      cases exceptions with
      | none => cases hbody
      | some e =>
        obtain ⟨r, hr, rfl⟩ := mem_map.1 hbody
        exact (r.body_isInfix.trans (infix_flatMap hr)).trans (suffix_cons _ _).isInfix

theorem endsInEnd_append (ts : List Token) (hus : us ≠ []) (h : EndsInEnd (ts ++ us)) :
    EndsInEnd us := by
  obtain ⟨t, ht, hend⟩ := h
  rw [getLast?_append] at ht
  cases hlast : us.getLast? with
  | none => exact absurd (getLast?_eq_none_iff.1 hlast) hus
  | some last =>
    rw [hlast, Option.some_or] at ht
    rw [← Option.some.inj ht] at hend
    exact ⟨last, hlast, hend⟩

/-- A head that ends in `END` ends in a leaf that does, right before `LOOP`. -/
theorem Clause.exists_leaf {clause : Clause (List Token)} {head : List Token}
    (hhead : head ∈ clause.head?) (hend : EndsInEnd head) :
    ∃ leaf : Leaf, leaf.fragment ∈ clause.form.head? ∧ EndsInEnd leaf.tokens ∧
      ∃ before word after, clause.tokens = before ++ (leaf.tokens ++ word :: after) ∧
        word.isKeyword "LOOP" := by
  cases clause with
  | counted word counter inWord source loop =>
    cases hhead
    cases source with
    | query opening text closing =>
      obtain ⟨t, ht, hkeyword⟩ := endsInEnd_append _ (by simp) hend
      cases ht
      have hkind := kind_of_isPunct closing.holds
      rw [isKeyword_eq_false_of_kind (by simp [hkind])] at hkeyword
      cases hkeyword
    | cursor reference starts =>
      refine ⟨reference.toLeaf, rfl, hend, [word.token, counter.token, inWord.token],
        loop.word.token, loop.body ++ loop.closing.tokens, ?_, loop.word.holds⟩
      simp [tokens, Source.tokens, Looped.tokens]
    | range reverse lower forward dots upper =>
      have hupper : EndsInEnd upper.tokens := by
        refine endsInEnd_append ((reverse.map fun word => word.token).toList ++
          (lower.tokens ++ [dots.token])) upper.nonempty ?_
        simpa [Source.tokens] using hend
      refine ⟨upper, rfl, hupper, [word.token, counter.token, inWord.token] ++
        ((reverse.map fun word => word.token).toList ++ (lower.tokens ++ [dots.token])),
        loop.word.token, loop.body ++ loop.closing.tokens, ?_, loop.word.holds⟩
      simp [tokens, Source.tokens, Looped.tokens]
  | whileLoop word condition loop =>
    cases hhead
    refine ⟨condition, rfl, hend, [word.token], loop.word.token,
      loop.body ++ loop.closing.tokens, ?_, loop.word.holds⟩
    simp [tokens, Looped.tokens]
  | _ => cases hhead

theorem not_apart_of_endsInEnd {word : Token} (h : EndsInEnd ts)
    (hword : word.isKeyword "LOOP") : ¬Apart ts [word] := by
  intro hapart
  obtain ⟨t, ht, hend⟩ := h
  have hnone := hapart t.toPiece (by rw [lastPiece_eq, ht]; rfl) word rfl
  have hif := isKeyword_eq_false hword (show Text.upper "LOOP" ≠ Text.upper "IF" by decide)
  simp [closesWith, hend, closesAfterEnd, hif, hword] at hnone

/-- A written list of which the loops are cut where reading cuts them is readable. -/
theorem Written.readable {whole : List Token} (h : Written heads ss ts) (hsource : InSource whole)
    (hpart : ts <:+: whole) (hheads : HeadsCutFrom whole ss) : Readable ss ts := by
  have hlater : ∀ {s : Statement} {ss : List Statement}, HeadsCutFrom whole (s :: ss) →
      HeadsCutFrom whole ss := fun hheads s' hs' => hheads s' (hs'.cons _)
  induction h with
  | nil => exact .nil
  | label label hss _ ih =>
    exact .label label hss (ih ((suffix_append _ _).isInfix.trans hpart) (hlater hheads))
  | statement clause semicolon hhead hfilled hothers hbodies hrest ihbodies ihlater =>
    have hclause := (prefix_append (clause.map Prod.snd).tokens _).isInfix.trans hpart
    refine .statement clause semicolon (fun head hmem hend => ?_) hfilled hothers
      (fun body hbody => ihbodies body hbody ?_ ?_) (ihlater ?_ (hlater hheads))
    · rw [← head?_map Prod.snd] at hmem
      obtain ⟨leaf, hleaf, hleafEnd, before, word, after, htokens, hword⟩ :=
        exists_leaf hmem hend
      rw [form_map, Form.head?_map, ← Form.head?_map Prod.fst] at hleaf
      have hcut := hheads _ (.here mem_cons_self) leaf.fragment hleaf
      obtain ⟨front, rest, hwhole⟩ := hclause
      refine not_apart_of_endsInEnd hleafEnd hword
        (cutFrom_unique hsource (front ++ before) (after ++ rest) ?_ leaf.nonempty hcut)
      rw [← hwhole, htokens]
      simp
    · refine ((clause.map Prod.snd).body_isInfix body.2 ?_).trans hclause
      rw [bodies_map]
      exact mem_map_of_mem hbody
    · intro s hs
      refine hheads s (.deeper mem_cons_self ?_ hs)
      change body.1 ∈ (clause.form.map Prod.fst).bodies
      rw [Form.bodies_map, bodies_form]
      exact mem_map_of_mem hbody
    · refine List.IsInfix.trans ?_ hpart
      exact (suffix_cons _ _).isInfix.trans (suffix_append _ _).isInfix

/-- Written statements are read back exactly if no head of a loop ends in `END`. Then the trees are
those that were written, whatever they are and however deep they are nested, nothing is reported,
and every statement is counted. In the tokens of a source, nothing else is read back. -/
theorem statements_eq_readBack {ss : List Statement} {ts : List Token}
    (h : Written (fun _ => True) ss ts) (path : String) :
    (Readable ss ts → statements path ts = readBack path ss) ∧
      (InSource ts → statements path ts = readBack path ss → Readable ss ts) := by
  refine ⟨fun hreadable => hreadable.statements_eq path, fun hsource hread => ?_⟩
  have hheads := statements_cutFrom path ts
  rw [hread] at hheads
  exact h.readable hsource (infix_refl ts) hheads

/-- `WHILE a LOOP IF b THEN <<c>> NULL; ELSE RAISE; END IF; END LOOP;` -/
def nestedLoop : List Token :=
  [⟨⟨.keyword, "WHILE"⟩, 0⟩, ⟨⟨.identifier, "a"⟩, 6⟩, ⟨⟨.keyword, "LOOP"⟩, 8⟩,
    ⟨⟨.keyword, "IF"⟩, 13⟩, ⟨⟨.identifier, "b"⟩, 16⟩, ⟨⟨.keyword, "THEN"⟩, 18⟩,
    ⟨⟨.operator, "<<"⟩, 23⟩, ⟨⟨.identifier, "c"⟩, 25⟩, ⟨⟨.operator, ">>"⟩, 26⟩,
    ⟨⟨.keyword, "NULL"⟩, 29⟩, ⟨⟨.punctuation, ";"⟩, 33⟩, ⟨⟨.keyword, "ELSE"⟩, 35⟩,
    ⟨⟨.keyword, "RAISE"⟩, 40⟩, ⟨⟨.punctuation, ";"⟩, 45⟩, ⟨⟨.keyword, "END"⟩, 47⟩,
    ⟨⟨.keyword, "IF"⟩, 51⟩, ⟨⟨.punctuation, ";"⟩, 53⟩, ⟨⟨.keyword, "END"⟩, 55⟩,
    ⟨⟨.keyword, "LOOP"⟩, 59⟩, ⟨⟨.punctuation, ";"⟩, 63⟩]

theorem statements_nestedLoop :
    ∃ ss, Written (fun _ => True) ss nestedLoop ∧ Readable ss nestedLoop ∧
      InSource nestedLoop ∧ statements "" nestedLoop = readBack "" ss := by
  have hnull : Readable [.simple (.label "c"), .simple .null] _ :=
    .label ⟨⟨⟨⟨.operator, "<<"⟩, 23⟩, rfl⟩, ⟨⟨⟨.identifier, "c"⟩, 25⟩, rfl⟩,
      ⟨⟨⟨.operator, ">>"⟩, 26⟩, rfl⟩⟩ (by simp) <|
    .statement (.plain (.null (.placed 29))) (.placed 33) (by rintro _ ⟨⟩) (by rintro _ ⟨⟩)
      (by rintro _ ⟨⟩) (by rintro _ ⟨⟩) .nil
  have hraise : Readable [.simple (.raise none 40)] _ :=
    .statement (.plain (.raise (.placed 40) none)) (.placed 45) (by rintro _ ⟨⟩) (by rintro _ ⟨⟩)
      (by rintro _ ⟨⟩) (by rintro _ ⟨⟩) .nil
  have hif : Readable [_] _ := @Written.statement _ _ _
    (.conditional
      ⟨.placed 13, ⟨⟨⟨[⟨⟨.identifier, "b"⟩, 16⟩], by decide⟩, by simp⟩, by decide⟩, .placed 18,
        (_, _)⟩ []
      (some ⟨.placed 35, (_, _)⟩) ⟨.placed 47, .placed 51⟩)
    (.placed 53) (by rintro _ ⟨⟩) (by rintro _ ⟨⟩) (by rintro _ ⟨⟩)
    (by simpa [Clause.bodies] using ⟨hnull, hraise⟩) .nil
  have hloop := @Written.statement (fun head => ¬EndsInEnd head) _ _
    (.whileLoop (.placed 0) ⟨⟨[⟨⟨.identifier, "a"⟩, 6⟩], by decide⟩, by simp⟩
      ⟨.placed 8, (_, _), ⟨.placed 55, .placed 59⟩⟩)
    (.placed 63) (by simp [Clause.head?, EndsInEnd, isKeyword]) (by rintro _ ⟨⟩)
    (by rintro _ ⟨⟩) (by simpa [Clause.bodies] using hif) .nil
  have hreadable : Readable _ nestedLoop := hloop
  have hwritten := hreadable.mono fun _ _ => trivial
  exact ⟨_, hwritten, hreadable, ⟨by decide, by decide⟩,
    (statements_eq_readBack hwritten "").1 hreadable⟩

/-- `WHILE CASE WHEN a THEN b END LOOP NULL; END LOOP;` -/
def caseLoop : List Token :=
  [⟨⟨.keyword, "WHILE"⟩, 0⟩, ⟨⟨.keyword, "CASE"⟩, 6⟩, ⟨⟨.keyword, "WHEN"⟩, 11⟩,
    ⟨⟨.identifier, "a"⟩, 16⟩, ⟨⟨.keyword, "THEN"⟩, 18⟩, ⟨⟨.identifier, "b"⟩, 23⟩,
    ⟨⟨.keyword, "END"⟩, 25⟩, ⟨⟨.keyword, "LOOP"⟩, 29⟩, ⟨⟨.keyword, "NULL"⟩, 34⟩,
    ⟨⟨.punctuation, ";"⟩, 38⟩, ⟨⟨.keyword, "END"⟩, 40⟩, ⟨⟨.keyword, "LOOP"⟩, 44⟩,
    ⟨⟨.punctuation, ";"⟩, 48⟩]

/-- A `CASE` expression at the end of a loop's head hides the `LOOP` after it: its `END` is read
together with that word, and the loop is not recognised. -/
theorem statements_caseLoop :
    ∃ ss, Written (fun _ => True) ss caseLoop ∧ InSource caseLoop ∧
      statements "" caseLoop ≠ readBack "" ss := by
  have hnull : Written (fun _ => True) [.simple .null] _ :=
    .statement (.plain (.null (.placed 34))) (.placed 38) (by rintro _ ⟨⟩) (by rintro _ ⟨⟩)
      (by rintro _ ⟨⟩) (by rintro _ ⟨⟩) .nil
  have hloop := @Written.statement (fun _ => True) _ _
    (.whileLoop (.placed 0)
      ⟨⟨[⟨⟨.keyword, "CASE"⟩, 6⟩, ⟨⟨.keyword, "WHEN"⟩, 11⟩, ⟨⟨.identifier, "a"⟩, 16⟩,
        ⟨⟨.keyword, "THEN"⟩, 18⟩, ⟨⟨.identifier, "b"⟩, 23⟩, ⟨⟨.keyword, "END"⟩, 25⟩], by decide⟩,
        by simp⟩
      ⟨.placed 29, (_, _), ⟨.placed 40, .placed 44⟩⟩)
    (.placed 48) (by simp) (by rintro _ ⟨⟩) (by rintro _ ⟨⟩)
    (by simpa [bodies] using hnull) .nil
  have hwritten : Written (fun _ => True) _ caseLoop := hloop
  have hnotes : (statements "" caseLoop).notes ≠ [] := by decide +kernel
  exact ⟨_, hwritten, ⟨by decide, by decide⟩, fun h => hnotes (by rw [h, readBack])⟩

end TriggerDialect.Phrase
