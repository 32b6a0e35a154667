import TriggerDialect.Proofs.Phrase.Nesting
import TriggerDialect.Proofs.Reading.Equations

/-!
# Reading statements without inner statements

Each written statement without inner statements is recognised for what it means
(`recognise_plain`).
-/

namespace TriggerDialect.Phrase

open Grammar List Piece

/-- What a reserved word leads to. -/
theorem leadOf_word {word : String} (w : Word word) :
    leadOf w.token = leadWords.lookup (Text.upper word) := by
  have hword := w.holds
  simp only [isKeyword, Text.sameWord, Bool.and_eq_true, beq_iff_eq] at hword
  simp [leadOf, hword.1, upper, hword.2]

theorem leadOf_of_kind {t : Token} (h : t.kind ≠ .keyword) : leadOf t = none := by
  simp [leadOf, h]

theorem recognise_word {word : String} (lead : Lead) (w : Word word)
    (h : leadWords.lookup (Text.upper word) = some lead) (path : String) (rest : List Token) :
    recognise path (w.token :: rest) = recogniseLead path lead w.token rest := by
  simp only [recognise, leadOf_word w, h]

namespace LeafWithout

variable {stop : Piece → Bool} (leaf : LeafWithout stop)

theorem neutral : Neutral (fun _ => True) (fun _ t => stop t = false) leaf.tokens :=
  leaf.isExpression.neutral (fun _ _ => trivial) fun _ _ t ht => leaf.clear t ht

/-- A leaf without a stop is cut off before the stop that follows it. -/
theorem spanAtDepth_stop {t : Token} (hstop : stop t.toPiece) (hapart : t.closesAfterEnd = none)
    (rest : List Token) : spanAtDepth stop (leaf.tokens ++ t :: rest) = (leaf.tokens, t :: rest) :=
  leaf.neutral.spanFrom_stop (fun _ _ h => h) trivial (.of_head hapart _ _) hstop

theorem spanAtDepth_none : spanAtDepth stop leaf.tokens = (leaf.tokens, []) :=
  leaf.neutral.spanFrom_none (fun _ _ h => h) trivial

end LeafWithout

/-! ### Names and arguments -/

theorem chain_segments (segments : List Segment) {rest : List Token}
    (hrest : ∀ t ∈ rest.head?, t.isPunct '.' = false) :
    chain (segments.flatMap Segment.tokens ++ rest) =
      (segments.map fun segment => segment.name.token, rest) := by
  induction segments with
  | nil =>
    match rest with
    | [] | [_] => rfl
    | t :: u :: rest => simp [chain, hrest t rfl]
  | cons segment segments ih =>
    simp only [flatMap_cons, Segment.tokens, cons_append, nil_append, chain, segment.dot.holds,
      segment.name.holds, Bool.and_self, if_true, ih, map_cons]

theorem qualifiedName_tokens (name : Name) (rest : List Token)
    (hrest : ∀ t ∈ rest.head?, t.isPunct '.' = false) :
    qualifiedName (name.tokens ++ rest) = .ok (name.text, rest) := by
  simp only [qualifiedName, Grammar.name, Name.tokens, cons_append, name.first.holds, if_true,
    chain_segments name.segments hrest, map_map]
  rfl

theorem Arguments.splitCommas_tokens (arguments : Arguments) :
    splitCommas arguments.tokens =
      arguments.first.tokens :: arguments.others.map fun (_, argument) => argument.tokens := by
  obtain ⟨first, others⟩ := arguments
  have hjoined : Joined (first.tokens :: others.map fun (_, argument) => argument.tokens)
      (first.tokens ++ otherTokens others) := by
    induction others generalizing first with
    | nil => simpa [otherTokens] using Joined.last first.tokens
    | cons other others ih =>
      rw [otherTokens, flatMap_cons]
      exact .cons first.tokens other.1.holds (ih other.2)
  refine hjoined.splitCommas fun part hpart => ?_
  rcases mem_cons.1 hpart with rfl | hpart
  · exact first.neutral
  · obtain ⟨other, -, rfl⟩ := mem_map.1 hpart
    exact other.2.neutral

theorem Bracketed.callArguments_inner (b : Bracketed) : callArguments b.inner = b.fragments := by
  unfold callArguments inner fragments
  cases b.arguments with
  | none => rfl
  | some arguments =>
    have hne : arguments.tokens.isEmpty = false := by
      simp [Arguments.tokens, arguments.first.nonempty]
    simp only [Option.map_some, Option.getD_some, hne, Bool.false_eq_true, if_false,
      arguments.splitCommas_tokens, map_cons, map_map]
    rfl

theorem Bracketed.bracketGroup_tokens (b : Bracketed) :
    bracketGroup b.tokens = some (b.inner, []) :=
  bracketGroup_of_balanced b.opening.holds b.run_inner b.closing.holds []

/-! ### Statements -/

theorem Name.isOp_eq_false (name : Name) (op : String) : ∀ t ∈ name.tokens, t.isOp op = false := by
  intro t ht
  have hkind : t.kind = .identifier ∨ t.kind = .keyword ∨ t.kind = .punctuation := by
    rcases mem_cons.1 ht with rfl | ht
    · exact .inl (by simpa [isIdentifier] using name.first.holds)
    · obtain ⟨segment, _, hsegment⟩ := mem_flatMap.1 ht
      simp only [Segment.tokens, mem_cons, not_mem_nil, or_false] at hsegment
      rcases hsegment with rfl | rfl
      · exact .inr (.inr (kind_of_isPunct segment.dot.holds))
      · have hname := segment.name.holds
        simp only [isSegment, Bool.or_eq_true, beq_iff_eq] at hname
        exact hname.imp id .inl
  rcases hkind with hkind | hkind | hkind <;> simp [isOp, hkind]

/-- The sign of an assignment does not stand in a call. -/
theorem spanAtDepth_call (name : Name) (brackets : Option Bracketed) :
    spanAtDepth (·.isOp ":=") (Plain.call name brackets).tokens =
      ((Plain.call name brackets).tokens, []) := by
  have hname : Neutral (fun _ => True) (fun _ t => t.isOp ":=" = false) name.tokens :=
    name.isExpression.neutral (fun _ _ => trivial) fun _ _ t ht =>
      name.isOp_eq_false _ t (Depth.mem_of_mem_outer ht)
  have hcall : Neutral (fun _ => True) (fun _ t => t.isOp ":=" = false)
      (Plain.call name brackets).tokens := by
    cases brackets with
    | none => simpa [Plain.tokens] using hname
    | some b =>
      have hkind := kind_of_isPunct b.opening.holds
      refine hname.append_any ?_ (b.startsApart.apart _)
      exact (IsGroup.brackets b.opening.holds b.passes_inner b.closing.holds).neutral fun _ _ => by
        simp [isOp, hkind]
  exact hcall.spanFrom_none (fun _ _ h => h) trivial

theorem plainStatement_assignment (target : LeafWithout (·.isOp ":="))
    (starts : target.StartsWith isTarget) (sign : Sign ":=") (value : Leaf) :
    plainStatement (Plain.assignment target starts sign value).tokens =
      .ok (Plain.assignment target starts sign value).simple := by
  have hspan :=
    target.spanAtDepth_stop sign.holds (IsInert.of_sign sign).closesAfterEnd value.tokens
  obtain ⟨t, ts, htokens⟩ := exists_cons_of_ne_nil target.nonempty
  have hvalue : value.tokens.isEmpty = false := by simp [value.nonempty]
  simp only [Plain.tokens, Plain.simple, Leaf.fragment]
  rw [htokens] at hspan ⊢
  rw [cons_append] at hspan ⊢
  simp [plainStatement, hspan, hvalue]

theorem plainStatement_call (name : Name) (brackets : Option Bracketed) :
    plainStatement (Plain.call name brackets).tokens = .ok (Plain.call name brackets).simple := by
  have hspan := spanAtDepth_call name brackets
  have hfirst : name.first.token.isIdentifier := name.first.holds
  cases brackets with
  | none =>
    have hname := qualifiedName_tokens name [] (by simp)
    simp only [Plain.tokens, Option.map_none, Option.getD_none, append_nil] at hspan hname ⊢
    simp only [Name.tokens] at hspan hname ⊢
    simp [plainStatement, hspan, hfirst, procedureCall, hname, Plain.simple]
  | some b =>
    have hopening : b.opening.token.isPunct '.' = false :=
      isPunct_eq_false b.opening.holds (by decide)
    have hname := qualifiedName_tokens name b.tokens (by
      rintro t ht
      cases ht
      exact hopening)
    have hgroup := b.bracketGroup_tokens
    simp only [Plain.tokens, Option.map_some, Option.getD_some] at hspan hname ⊢
    simp only [Name.tokens, cons_append] at hspan hname ⊢
    simp only [Bracketed.tokens, cons_append] at hspan hname hgroup ⊢
    simp [plainStatement, hspan, hfirst, procedureCall, hname, hgroup, Plain.simple,
      b.callArguments_inner]

theorem exitClause_jump (word : String) (label : Option Identifier)
    (condition : Option (Word "WHEN" × Leaf)) :
    exitClause word ((label.map fun name => name.token).toList ++ Plain.whenTokens condition) =
      .ok (label.map fun name => name.token.text,
        condition.map fun (_, leaf) => leaf.fragment) := by
  cases label with
  | none =>
    cases condition with
    | none => rfl
    | some entry =>
      have hkind := kind_of_isKeyword entry.1.holds
      simp [exitClause, loopLabel, Plain.whenTokens, isIdentifier, hkind, entry.1.holds,
        entry.2.nonempty, Leaf.fragment]
  | some name =>
    cases condition with
    | none => simp [exitClause, loopLabel, Plain.whenTokens, name.holds]
    | some entry =>
      simp [exitClause, loopLabel, Plain.whenTokens, name.holds, entry.1.holds, entry.2.nonempty,
        Leaf.fragment]

/-- A written statement without inner statements is recognised. -/
theorem recognise_plain (path : String) (statement : Plain) :
    recognise path statement.tokens = .ok (quiet (.simple statement.simple)) := by
  cases statement with
  | assignment target starts sign value =>
    have hread := plainStatement_assignment target starts sign value
    obtain ⟨t, ts, htokens⟩ := exists_cons_of_ne_nil target.nonempty
    have hlead : leadOf t = none := by
      have hkind := starts t (by rw [htokens]; rfl)
      refine leadOf_of_kind ?_
      rintro hkeyword
      simp [isTarget, hkeyword] at hkind
    simp only [Plain.tokens] at hread ⊢
    rw [htokens, cons_append] at hread ⊢
    simp only [recognise, hlead, hread]
    rfl
  | call name brackets =>
    have hread := plainStatement_call name brackets
    have hlead : leadOf name.first.token = none := by
      have hfirst := name.first.holds
      refine leadOf_of_kind ?_
      rintro hkeyword
      simp [isIdentifier, hkeyword] at hfirst
    simp only [Plain.tokens, Name.tokens, cons_append] at hread ⊢
    simp only [recognise, hlead, hread]
    rfl
  | command verb word leads rest =>
    cases verb with
    | select => exact recognise_word .select ⟨word, leads⟩ (by decide) path rest.tokens
    | withQuery => exact recognise_word .select ⟨word, leads⟩ (by decide) path rest.tokens
    | insert => exact recognise_word .insert ⟨word, leads⟩ (by decide) path rest.tokens
    | update => exact recognise_word .update ⟨word, leads⟩ (by decide) path rest.tokens
    | delete => exact recognise_word .delete ⟨word, leads⟩ (by decide) path rest.tokens
  | null word => exact recognise_word .null word (by decide) path []
  | returnValue word value =>
    rw [Plain.tokens, recognise_word .returnValue word (by decide)]
    cases value with
    | none => rfl
    | some leaf => simp [recogniseLead, Plain.simple, Leaf.fragment, leaf.nonempty]
  | raise word name =>
    rw [Plain.tokens, recognise_word .raise word (by decide)]
    cases name with
    | none => rfl
    | some name =>
      have hname := qualifiedName_tokens name [] (by simp)
      rw [append_nil, Name.tokens] at hname
      simp only [Option.map_some, Option.getD_some, Name.tokens, recogniseLead, raised, hname]
      rfl
  | jump kind word leads label condition =>
    have hclause := exitClause_jump word.upper label condition
    cases kind with
    | exit =>
      rw [Plain.tokens, cons_append, recognise_word .exitLoop ⟨word, leads⟩ (by decide)]
      simp only [recogniseLead, exitStatement, hclause]
      rfl
    | next =>
      rw [Plain.tokens, cons_append, recognise_word .continueLoop ⟨word, leads⟩ (by decide)]
      simp only [recogniseLead, exitStatement, hclause]
      rfl
  | cursor action word leads text =>
    have hlead : leadWords.lookup (Text.upper action.word) = some (.cursor action) := by
      cases action <;> decide
    rw [Plain.tokens, recognise_word _ ⟨word, leads⟩ hlead]
    simp [recogniseLead, cursorAction, text.nonempty, Except.map, Plain.simple, Leaf.fragment]
  | executeImmediate word immediate text =>
    rw [Plain.tokens, recognise_word .execute word (by decide)]
    simp [recogniseLead, executeImmediate, immediate.holds, text.nonempty, Except.map, Plain.simple,
      Leaf.fragment]

end TriggerDialect.Phrase
