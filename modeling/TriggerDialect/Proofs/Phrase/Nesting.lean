import TriggerDialect.Proofs.Phrase.Basic

/-!
# Statements leave the nesting as it was

Whatever surrounds a written statement, a cut passes over it and meets, outside its groups, nothing
at which a statement, a branch, a section or a handler could end: no semicolon, no `EXCEPTION`, no
`DECLARE`, and no `ELSIF`, `ELSE` or `WHEN` where a statement can start (`Clause.begins`). A list
of such statements is passed over in the same way, up to the semicolons between them (`IsBody`).
-/

namespace TriggerDialect.Phrase

open Piece

variable {ts us : List Token} {p : Piece}

/-! ### What a cut meets outside the groups of a statement -/

/-- Whether a token other than a semicolon stands before. -/
def AfterToken (previous : Option Piece) : Prop := ∃ p, previous = some p ∧ p.isPunct ';' = false

/-- The words that start a branch or a handler where a statement can start. -/
def clauseWords : List String := ["ELSIF", "ELSE", "WHEN"]

/-- Whether a list of statements goes on at this token. -/
structure InBody (previous : Option Piece) (p : Piece) : Prop where
  handlers : p.isKeyword "EXCEPTION" = false
  declarations : p.isKeyword "DECLARE" = false
  clause : AfterToken previous ∨ ∀ word ∈ clauseWords, p.isKeyword word = false

/-- Whether a statement goes on at this token. -/
structure InStatement (previous : Option Piece) (p : Piece) : Prop extends InBody previous p where
  semicolon : p.isPunct ';' = false

theorem InBody.not_clause {previous : Option Piece} (h : InBody previous p) {words : List String}
    (hwords : words ⊆ clauseWords) :
    (previous.all (·.isPunct ';') && words.any p.isKeyword) = false := by
  rcases h.clause with ⟨q, rfl, hq⟩ | hclause
  · simp [hq]
  · have hnone : words.any p.isKeyword = false := by
      rw [List.any_eq_false]
      intro word hword
      simp [hclause word (hwords hword)]
    rw [hnone, Bool.and_false]

/-- A token that neither opens nor closes anything and ends nothing inside a statement. -/
structure IsInert (p : Piece) : Prop extends p.IsInline where
  semicolon : p.isPunct ';' = false
  handlers : p.isKeyword "EXCEPTION" = false
  declarations : p.isKeyword "DECLARE" = false

namespace IsInert

variable {p : Piece}

theorem of_word {word : String} (w : Word word)
    (h : ∀ other ∈ "CASE" :: "END" :: structureWords, Text.upper word ≠ Text.upper other) :
    IsInert w.token.toPiece where
  toIsInline := .of_isKeyword w.holds fun other hother => h other
    ((show nestingWords ⊆ "CASE" :: "END" :: structureWords by decide) hother)
  semicolon := isPunct_eq_false_of_kind (by simp [kind_of_isKeyword w.holds]) _
  handlers := isKeyword_eq_false w.holds (h _ (by decide))
  declarations := isKeyword_eq_false w.holds (h _ (by decide))

theorem of_kind (hword : p.kind ≠ .keyword) (hmark : p.kind ≠ .punctuation) :
    IsInert p where
  toIsInline := .of_kind hword hmark
  semicolon := isPunct_eq_false_of_kind hmark _
  handlers := isKeyword_eq_false_of_kind hword _
  declarations := isKeyword_eq_false_of_kind hword _

theorem of_identifier (name : Identifier) : IsInert name.token.toPiece := by
  have hkind : name.token.kind = .identifier := by simpa [isIdentifier] using name.holds
  exact of_kind (by simp [hkind]) (by simp [hkind])

theorem of_sign {op : String} (sign : Sign op) : IsInert sign.token.toPiece := by
  have hkind := kind_of_isOp sign.holds
  exact of_kind (by simp [hkind]) (by simp [hkind])

theorem inStatement (h : IsInert p) {previous : Option Piece}
    (hclause : AfterToken previous ∨ ∀ word ∈ clauseWords, p.isKeyword word = false) :
    InStatement previous p :=
  ⟨⟨h.handlers, h.declarations, hclause⟩, h.semicolon⟩

theorem afterToken (h : IsInert p) : AfterToken (some p) := ⟨p, rfl, h.semicolon⟩

end IsInert

/-- A span that goes on inside a statement. -/
structure Continues (ts : List Token) : Prop where
  neutral : Neutral AfterToken InStatement ts
  after : ∀ p, AfterToken p → AfterToken (lastPiece p ts)

/-- A span with which a statement can begin. -/
def Begins (ts : List Token) : Prop := Neutral (fun _ => True) InStatement ts

namespace Continues

variable {ts us inner : List Token} {t opening closing word : Token} {frame : Frame}

theorem nil : Continues [] := ⟨.nil, fun _ h => h⟩

theorem append (hts : Continues ts) (hus : Continues us) (hapart : Apart ts us) :
    Continues (ts ++ us) where
  neutral := hts.neutral.append hus.neutral hapart hts.after
  after p hp := by
    rw [lastPiece_append]
    exact hus.after _ (hts.after p hp)

theorem cons (h : IsInert t.toPiece) (hus : Continues us) : Continues (t :: us) where
  neutral := .cons h.toIsInline (fun _ hp => h.inStatement (.inl hp)) hus.neutral h.afterToken
  after _ _ := hus.after _ h.afterToken

theorem of_expression (h : IsExpression ts) : Continues ts where
  neutral := by
    refine h.neutral (fun p hp => ⟨p, rfl, hp⟩) fun p hp t ht => ⟨⟨?_, ?_, .inl hp⟩, ?_⟩
    · exact h.plain t (Depth.mem_of_mem_outer ht) _ (by decide)
    · exact h.plain t (Depth.mem_of_mem_outer ht) _ (by decide)
    · exact h.unbroken t ht
  after p hp := by
    obtain ⟨q, rfl, hq⟩ := hp
    have hprevious : ∀ p ∈ some q, p.isPunct ';' = false := by simpa using hq
    have hlast := h.lastPiece hprevious
    obtain ⟨q', hq'⟩ := exists_lastPiece q ts
    exact ⟨q', hq', hlast q' hq'⟩

theorem of_brackets (hopening : opening.isPunct '(' = true) (hinner : Passes inner)
    (hclosing : closing.isPunct ')') : Continues (opening :: inner ++ [closing]) where
  neutral := by
    have hkind : opening.kind ≠ .keyword := by simp [kind_of_isPunct hopening]
    refine (IsGroup.brackets hopening hinner hclosing).neutral fun p hp => ⟨⟨?_, ?_, .inl hp⟩, ?_⟩
    · exact isKeyword_eq_false_of_kind hkind _
    · exact isKeyword_eq_false_of_kind hkind _
    · exact isPunct_eq_false hopening (by decide)
  after _ _ := by
    rw [lastPiece_append]
    exact ⟨closing.toPiece, rfl, isPunct_eq_false hclosing (by decide)⟩

theorem begins_cons (hus : Continues us) (h : IsInert t.toPiece)
    (hclause : ∀ word ∈ clauseWords, t.isKeyword word = false) : Begins (t :: us) :=
  .cons h.toIsInline (fun _ _ => h.inStatement (.inr hclause)) hus.neutral h.afterToken

end Continues

/-- A reserved word with which a statement begins. -/
theorem begins_word {word : String} (w : Word word)
    (h : ∀ other ∈ "CASE" :: "END" :: structureWords, Text.upper word ≠ Text.upper other)
    (hclause : ∀ other ∈ clauseWords, Text.upper word ≠ Text.upper other) (hus : Continues us) :
    Begins (w.token :: us) :=
  hus.begins_cons (.of_word w h) fun other hother =>
    isKeyword_eq_false w.holds (hclause other hother)

/-- An expression with which a statement begins, and what follows it. -/
theorem begins_expression {t : Token} (h : IsExpression (t :: ts))
    (ht : t.kind = .identifier ∨ t.kind = .bindVariable) (hus : Continues us) (hapart : Apart ts us)
    : Begins (t :: ts ++ us) := by
  have hword : t.kind ≠ .keyword := by rcases ht with ht | ht <;> simp [ht]
  have hmark : t.kind ≠ .punctuation := by rcases ht with ht | ht <;> simp [ht]
  have hinert : IsInert t.toPiece := .of_kind hword hmark
  refine Continues.begins_cons (.append (.of_expression (h.tail hinert.toIsInline)) hus hapart)
    hinert fun word _ => isKeyword_eq_false_of_kind hword word

/-! ### Statements without inner statements -/

namespace Arguments

theorem startsApart_otherTokens (others : List (Mark ',' × Argument)) :
    StartsApart (otherTokens others) := by
  refine StartsApart.flatMap fun other _ => ?_
  exact .cons (closesAfterEnd_of_kind (by simp [kind_of_isPunct other.1.holds])) _

theorem passes (arguments : Arguments) : Passes arguments.tokens := by
  refine arguments.first.isExpression.passes.append (Passes.flatMap (fun other _ => ?_) ?_)
    ((startsApart_otherTokens _).apart _)
  · exact .cons (.of_isPunct other.1.holds (by decide) (by decide)) other.2.isExpression.passes
  · intro other _
    exact .cons (closesAfterEnd_of_kind (by simp [kind_of_isPunct other.1.holds])) _

theorem run_otherTokens (others : List (Mark ',' × Argument)) :
    Depth.zero.run (otherTokens others) = some .zero := by
  induction others with
  | nil => rfl
  | cons other others ih =>
    have hinline : other.1.token.IsInline := .of_isPunct other.1.holds (by decide) (by decide)
    rw [otherTokens, List.flatMap_cons, Depth.run_append, Depth.run,
      Depth.after_of_inline hinline, Option.bind_some, other.2.isExpression.balanced]
    exact ih

theorem run_tokens (arguments : Arguments) : Depth.zero.run arguments.tokens = some .zero := by
  rw [tokens, Depth.run_append, arguments.first.isExpression.balanced, Option.bind_some,
    run_otherTokens]

end Arguments

namespace Bracketed

theorem run_inner (b : Bracketed) : Depth.zero.run b.inner = some .zero := by
  unfold inner
  cases b.arguments with
  | none => rfl
  | some arguments => exact arguments.run_tokens

theorem passes_inner (b : Bracketed) : Passes b.inner := by
  unfold inner
  cases b.arguments with
  | none => exact .nil
  | some arguments => exact arguments.passes

theorem continues (b : Bracketed) : Continues b.tokens :=
  .of_brackets b.opening.holds b.passes_inner b.closing.holds

theorem startsApart (b : Bracketed) : StartsApart b.tokens :=
  .cons (closesAfterEnd_of_kind (by simp [kind_of_isPunct b.opening.holds])) _

end Bracketed

theorem Name.continues (name : Name) : Continues name.tokens := .of_expression name.isExpression

theorem Leaf.continues (leaf : Leaf) : Continues leaf.tokens := .of_expression leaf.isExpression

/-- An optional part of a statement. -/
theorem Continues.of_option {α : Type} {f : α → List Token} (hf : ∀ a, Continues (f a))
    (a : Option α) : Continues ((a.map f).getD []) := by
  cases a with
  | none => exact .nil
  | some a => exact hf a

/-- A plain statement leaves the nesting as it was. -/
theorem Plain.begins (statement : Plain) : Begins statement.tokens := by
  cases statement with
  | assignment target starts sign value =>
    obtain ⟨t, ts, htokens⟩ := List.exists_cons_of_ne_nil target.nonempty
    have hexpression := target.isExpression
    have hkind := starts t (by rw [htokens]; rfl)
    simp only [isTarget, Bool.or_eq_true, beq_iff_eq] at hkind
    rw [tokens, htokens] at *
    refine begins_expression hexpression hkind (.cons (.of_sign sign) value.continues) ?_
    exact .of_head (closesAfterEnd_of_inline (IsInert.of_sign sign).toIsInline) _ _
  | call name brackets =>
    have hkind : name.first.token.kind = .identifier := by
      simpa [isIdentifier] using name.first.holds
    refine begins_expression name.isExpression (.inl hkind) (.of_option Bracketed.continues _) ?_
    cases brackets with
    | none => exact .nil _
    | some b => exact b.startsApart.apart _
  | command verb word leads rest =>
    cases verb <;>
      exact begins_word ⟨word, leads⟩ (by decide) (by decide) (.of_expression rest.isExpression)
  | null word => exact begins_word word (by decide) (by decide) .nil
  | returnValue word value =>
    exact begins_word word (by decide) (by decide) (.of_option Leaf.continues value)
  | raise word name =>
    exact begins_word word (by decide) (by decide) (.of_option Name.continues name)
  | jump kind word leads label condition =>
    have hcondition : Continues (whenTokens condition) := by
      cases condition with
      | none => exact .nil
      | some entry => exact .cons (.of_word entry.1 (by decide)) entry.2.continues
    have hlabel :
        Continues ((label.map fun name => name.token).toList ++ whenTokens condition) := by
      cases label with
      | none => exact hcondition
      | some name => exact .cons (.of_identifier name) hcondition
    cases kind <;> exact begins_word ⟨word, leads⟩ (by decide) (by decide) hlabel
  | cursor action word leads text =>
    cases action <;> exact begins_word ⟨word, leads⟩ (by decide) (by decide) text.continues
  | executeImmediate word immediate text =>
    have hword := immediate.holds
    have hinert : IsInert immediate.token.toPiece := by
      simp only [isWord, Bool.and_eq_true, Bool.or_eq_true, beq_iff_eq] at hword
      rcases hword.1 with hkind | hkind
      · have hkeyword : immediate.token.isKeyword "IMMEDIATE" := by
          simp [isKeyword, hkind, hword.2]
        exact .of_word ⟨immediate.token, hkeyword⟩ (by decide)
      · exact .of_kind (by simp [hkind]) (by simp [hkind])
    exact begins_word word (by decide) (by decide) (.cons hinert text.continues)

/-! ### Statements with inner statements -/

/-- A list of written statements, each with its semicolon. -/
structure IsBody (ts : List Token) : Prop where
  neutral : Neutral (fun _ => True) InBody ts
  ends : ∀ t ∈ ts.getLast?, t.isPunct ';'

namespace IsBody

variable {ts : List Token}

theorem passes (h : IsBody ts) : Passes ts := h.neutral.passes fun _ => trivial

theorem apart (h : IsBody ts) (us : List Token) : Apart ts us := by
  intro p hp u _
  rw [lastPiece_eq, Option.or_none] at hp
  obtain ⟨t, ht, rfl⟩ := Option.map_eq_some_iff.1 hp
  have hkind := kind_of_isPunct (h.ends t ht)
  exact closesWith_eq_none (isKeyword_eq_false_of_kind (by simp [hkind]) _)

end IsBody

/-- A span before a list of statements that does not end in `END`. -/
theorem IsBody.apart_append {body : List Token} (hbody : IsBody body) (hts : ∀ us, Apart ts us)
    (us : List Token) : Apart (ts ++ body) us := by
  intro p hp u hu
  rw [lastPiece_append, lastPiece_eq] at hp
  cases hlast : body.getLast? with
  | none =>
    rw [hlast] at hp
    exact hts us p hp u hu
  | some t =>
    refine hbody.apart us p ?_ u hu
    rw [lastPiece_eq, hlast]
    rw [hlast] at hp
    exact hp

theorem IsInert.closesAfterEnd (h : IsInert p) : p.closesAfterEnd = none :=
  closesAfterEnd_of_inline h.toIsInline

namespace Guarded

variable {word : String} {g : Guarded word (List Token)}

/-- The tokens after the first word. -/
def afterWord (g : Guarded word (List Token)) : List Token :=
  (g.condition.tokens ++ [g.thenWord.token]) ++ g.body

theorem tokens_eq (g : Guarded word (List Token)) : g.tokens = g.word.token :: g.afterWord := by
  simp [tokens, afterWord]

theorem passes_afterWord (hbody : IsBody g.body) : Passes g.afterWord := by
  have hthen : IsInert g.thenWord.token.toPiece := .of_word g.thenWord (by decide)
  refine .append (g.condition.isExpression.passes.append (.cons hthen.toIsInline .nil) ?_)
    hbody.passes (.of_last hthen.ends _ _)
  exact .of_head hthen.closesAfterEnd _ _

theorem apart_afterWord (hbody : IsBody g.body) (us : List Token) : Apart g.afterWord us := by
  have hthen : IsInert g.thenWord.token.toPiece := .of_word g.thenWord (by decide)
  exact hbody.apart_append (fun us => .of_last hthen.ends _ us) us

theorem passes (hword : g.word.token.IsInline) (hbody : IsBody g.body) : Passes g.tokens := by
  rw [tokens_eq]
  exact .cons hword (passes_afterWord hbody)

theorem startsApart (hword : g.word.token.IsInline) : StartsApart g.tokens :=
  .cons (closesAfterEnd_of_inline hword) _

end Guarded

section

variable {word : String} (others : List (Guarded word (List Token)))
  (otherwise : Option (Otherwise (List Token)))

/-- The tokens of the branches after the first. -/
abbrev laterTokens : List Token := others.flatMap Guarded.tokens ++ otherwiseTokens otherwise

theorem startsApart_otherwiseTokens : StartsApart (otherwiseTokens otherwise) := by
  cases otherwise with
  | none => exact .nil
  | some o => exact .cons (IsInert.of_word o.word (by decide)).closesAfterEnd _

theorem passes_otherwiseTokens (h : ∀ o ∈ otherwise, IsBody o.body) :
    Passes (otherwiseTokens otherwise) := by
  cases otherwise with
  | none => exact .nil
  | some o => exact .cons (IsInert.of_word o.word (by decide)).toIsInline (h o rfl).passes

/-- The branches after the first pass. -/
theorem passes_branches (hword : ∀ g ∈ others, g.word.token.IsInline)
    (hothers : ∀ g ∈ others, IsBody g.body) (hotherwise : ∀ o ∈ otherwise, IsBody o.body) :
    Passes (laterTokens others otherwise) := by
  refine (Passes.flatMap (fun g hg => ?_) fun g hg => ?_).append
    (passes_otherwiseTokens otherwise hotherwise) ((startsApart_otherwiseTokens otherwise).apart _)
  · exact Guarded.passes (hword g hg) (hothers g hg)
  · exact Guarded.startsApart (hword g hg)

end

theorem isInStatement_opening (frame : Frame) (word : Word frame.word) (previous : Option Piece) :
    InStatement previous word.token.toPiece := by
  have hother : ∀ other ∈ ["EXCEPTION", "DECLARE"] ++ clauseWords,
      word.token.isKeyword other = false := by
    refine fun other hmem => isKeyword_eq_false word.holds ?_
    revert other
    cases frame <;> decide
  have hkind := kind_of_isKeyword word.holds
  exact ⟨⟨hother _ (by decide), hother _ (by decide),
    .inr fun other hmem => hother other (List.mem_append_right _ hmem)⟩,
    isPunct_eq_false_of_kind (by simp [hkind]) _⟩

theorem neutral_construct (frame : Frame) (hframe : frame ≠ .block) (word : Word frame.word)
    (closing : Closing frame.word) {inner : List Token} (hinner : Passes inner)
    {start : Option Piece → Prop} :
    Neutral start InStatement (word.token :: inner ++ closing.tokens) := by
  have hopens := opens_of_isKeyword frame word.holds
  have hcloses := closesWith_of_isKeyword frame hframe closing.endWord.holds
    closing.kind.holds
  exact (IsGroup.construct hopens hinner closing.endWord.holds hcloses).neutral fun p _ =>
    isInStatement_opening frame word p

namespace Looped

variable {l : Looped (List Token)}

theorem neutral (hbody : IsBody l.body) {start : Option Piece → Prop} :
    Neutral start InStatement l.tokens :=
  neutral_construct .iteration (by decide) l.word l.closing hbody.passes

theorem continues (hbody : IsBody l.body) : Continues l.tokens where
  neutral := neutral hbody
  after _ _ := by
    rw [tokens, lastPiece_append]
    have hkind := kind_of_isKeyword l.closing.kind.holds
    exact ⟨_, rfl, isPunct_eq_false_of_kind (by simp [hkind]) _⟩

end Looped

theorem Source.continues (source : Source) : Continues source.tokens := by
  cases source with
  | query opening text closing =>
    exact .of_brackets opening.holds text.isExpression.passes closing.holds
  | cursor reference starts => exact reference.continues
  | range reverse lower forward dots upper =>
    have hrange : Continues (lower.tokens ++ dots.token :: upper.tokens) :=
      lower.continues.append (.cons (.of_sign dots) upper.continues)
        (.of_head (IsInert.of_sign dots).closesAfterEnd _ _)
    cases reverse with
    | none => exact hrange
    | some word => exact .cons (.of_word word (by decide)) hrange

/-- Whether a span ends in `END`. -/
def EndsInEnd (ts : List Token) : Prop := ∃ t ∈ ts.getLast?, t.isKeyword "END"

theorem apart_of_not_endsInEnd (h : ¬EndsInEnd ts) (us : List Token) : Apart ts us := by
  intro p hp u _
  rw [lastPiece_eq, Option.or_none] at hp
  obtain ⟨t, ht, rfl⟩ := Option.map_eq_some_iff.1 hp
  refine closesWith_eq_none ?_
  rw [← Bool.not_eq_true]
  exact fun hend => h ⟨t, ht, hend⟩

namespace Rescue

variable {r : Rescue (List Token)}

/-- Whether no handler starts at this token. -/
def InRescue (previous : Option Piece) (p : Piece) : Prop :=
  (previous.all (·.isPunct ';') && ["WHEN"].any p.isKeyword) = false

theorem inRescue_of_not_when {p : Piece} (h : p.isKeyword "WHEN" = false)
    (previous : Option Piece) : InRescue previous p := by
  simp [InRescue, h]

theorem startsApart_otherNames (others : List (Word "OR" × RescueName)) :
    StartsApart (otherNames others) :=
  .flatMap fun other _ => .cons (IsInert.of_word other.1 (by decide)).closesAfterEnd _

section

variable {visit : Option Piece → Piece → Prop}

theorem neutral_name (name : RescueName)
    (h : ∀ t : Token, (∀ word ∈ ["WHEN", "THEN"], t.isKeyword word = false) →
      ∀ p, visit p t.toPiece) : Neutral (fun _ => True) visit name.tokens := by
  refine name.isExpression.neutral (fun _ _ => trivial) fun p _ t ht => h t (fun word hword => ?_) p
  refine name.single t (Depth.mem_of_mem_outer ht) word ?_
  exact (show ["WHEN", "THEN"] ⊆ ["WHEN", "OR", "THEN"] by decide) hword

/-- The names of a handler are passed by a search for `WHEN` or `THEN`. -/
theorem neutral_names (r : Rescue (List Token))
    (h : ∀ t : Token, (∀ word ∈ ["WHEN", "THEN"], t.isKeyword word = false) →
      ∀ p, visit p t.toPiece) : Neutral (fun _ => True) visit r.names := by
  refine (neutral_name r.first h).append_any ?_ ((startsApart_otherNames r.others).apart _)
  induction r.others with
  | nil => exact .nil
  | cons other others ih =>
    rw [otherNames, List.flatMap_cons]
    have hor : IsInert other.1.token.toPiece := .of_word other.1 (by decide)
    have hvisit : ∀ p, visit p other.1.token.toPiece := by
      refine h _ fun word hword => isKeyword_eq_false other.1.holds ?_
      revert word
      decide
    exact (Neutral.cons_any hor.toIsInline (fun p _ => hvisit p)
      (neutral_name other.2 h)).append_any
      ih ((startsApart_otherNames others).apart _)

end

theorem isInert_then (r : Rescue (List Token)) : IsInert r.thenWord.token.toPiece :=
  .of_word r.thenWord (by decide)

theorem neutral_afterWhen (hbody : IsBody r.body) :
    Neutral (fun _ => True) InRescue r.afterWhen := by
  have hthen := isInert_then r
  have hnames : Neutral (fun _ => True) InRescue r.names :=
    neutral_names r fun t ht p => inRescue_of_not_when (ht _ (by decide)) p
  refine hnames.append_any ?_ (.of_head hthen.closesAfterEnd _ _)
  refine .cons_any hthen.toIsInline (fun p _ => ?_) ?_
  · exact inRescue_of_not_when (isKeyword_eq_false r.thenWord.holds (by decide)) p
  · exact hbody.neutral.mono (fun _ h => h) fun p t h => h.not_clause (by decide)

theorem apart_afterWhen (hbody : IsBody r.body) (us : List Token) : Apart r.afterWhen us := by
  have heq : r.afterWhen = (r.names ++ [r.thenWord.token]) ++ r.body := by simp [afterWhen]
  rw [heq]
  exact hbody.apart_append (fun us => .of_last (isInert_then r).ends _ us) us

theorem isInert_when (r : Rescue (List Token)) : IsInert r.word.token.toPiece :=
  .of_word r.word (by decide)

theorem passes (hbody : IsBody r.body) : Passes r.tokens :=
  .cons (isInert_when r).toIsInline ((neutral_afterWhen hbody).passes fun _ => trivial)

theorem passes_flatMap {rescues : List (Rescue (List Token))}
    (h : ∀ r ∈ rescues, IsBody r.body) : Passes (rescues.flatMap tokens) :=
  .flatMap (fun r hr => passes (h r hr)) fun r _ => .cons (isInert_when r).closesAfterEnd _

end Rescue

namespace Clause

/-- A cut passes over a written statement, wherever it stands, unless it is a loop with a head that
ends in `END`: together with the `LOOP` behind it, this would close a loop. -/
theorem begins {clause : Clause (List Token)} (hbodies : ∀ body ∈ clause.bodies, IsBody body)
    (hhead : ∀ head ∈ clause.head?, ¬EndsInEnd head) : Begins clause.tokens := by
  cases clause with
  | plain statement => exact statement.begins
  | conditional first others otherwise closing =>
    obtain ⟨hfirst, hothers, hotherwise⟩ := forall_branches hbodies
    have hbranches := passes_branches others otherwise
      (fun g _ => (IsInert.of_word g.word (by decide)).toIsInline) hothers hotherwise
    have hinner := (Guarded.passes_afterWord hfirst).append hbranches
      (Guarded.apart_afterWord hfirst _)
    rw [tokens, Guarded.tokens_eq]
    exact neutral_construct .conditional (by decide) first.word closing hinner
  | selection word selector first others otherwise closing =>
    have hwhen : ∀ g : Guarded "WHEN" (List Token), g.word.token.IsInline :=
      fun g => (IsInert.of_word g.word (by decide)).toIsInline
    obtain ⟨hfirst, hothers, hotherwise⟩ := forall_branches hbodies
    have hbranches := passes_branches others otherwise (fun g _ => hwhen g) hothers hotherwise
    have hselector : Passes ((selector.map fun leaf => leaf.tokens).getD []) := by
      cases selector with
      | none => exact .nil
      | some leaf => exact leaf.isExpression.passes
    have hapart : Apart first.tokens (laterTokens others otherwise) :=
      first.tokens_eq ▸ (Guarded.apart_afterWord hfirst _).cons_left (hwhen first).ends
    have harms := (Guarded.passes (hwhen first) hfirst).append hbranches hapart
    have hinner := hselector.append harms
      (.of_head (closesAfterEnd_of_inline (hwhen first)) _ _)
    exact neutral_construct .selection (by decide) word closing hinner
  | counted word counter inWord source loop =>
    have hbody : IsBody loop.body := hbodies _ (by simp [bodies])
    refine begins_word word (by decide) (by decide) (.cons (.of_identifier counter) ?_)
    refine .cons (.of_word inWord (by decide)) ?_
    exact source.continues.append (Looped.continues hbody) (apart_of_not_endsInEnd (hhead _ rfl) _)
  | whileLoop word condition loop =>
    have hbody : IsBody loop.body := hbodies _ (by simp [bodies])
    refine begins_word word (by decide) (by decide) ?_
    exact condition.continues.append (Looped.continues hbody)
      (apart_of_not_endsInEnd (hhead _ rfl) _)
  | endlessLoop loop => exact Looped.neutral (hbodies _ (by simp [bodies]))
  | block word body exceptions endWord =>
    have hbody : IsBody body := hbodies _ (by simp [bodies])
    have hopens := opens_of_isKeyword .block word.holds
    have hexceptions : Passes (exceptionTokens exceptions) := by
      cases exceptions with
      | none => exact .nil
      | some e =>
        have hinline : e.1.token.IsInline := .of_isKeyword e.1.holds (by decide)
        refine .cons hinline (Rescue.passes_flatMap fun r hr => hbodies _ ?_)
        simp only [bodies, Option.map_some, Option.getD_some, List.mem_cons, List.mem_map]
        exact .inr ⟨r, hr, rfl⟩
    have hinner := hbody.passes.append hexceptions (hbody.apart _)
    exact (IsGroup.closed hopens hinner endWord.holds).neutral fun p _ =>
      isInStatement_opening .block word p

end Clause

end TriggerDialect.Phrase
