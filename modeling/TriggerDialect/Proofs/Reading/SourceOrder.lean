import TriggerDialect.Generate.Declarations
import TriggerDialect.Proofs.Lexing.Tiling
import TriggerDialect.Proofs.Reading.Declared

/-!
# Declarations in source order

The tokens of a section are cut at semicolons, and every span gives one declaration, whichever way
it is read. The declarations are kept in five lists, one for each kind, and merged again by their
offsets when they are written. In a source no two tokens have the same offset, so this brings back
the order of the spans (`readDeclarations_sourceOrder`).
-/

namespace TriggerDialect

open List

namespace Declarations

/-! ### Five lists and one -/

/-- Sorting by kind loses and doubles nothing. -/
theorem byKind_ofList_perm (items : List Declaration) : (ofList items).byKind.Perm items := by
  induction items with
  | nil => exact .nil
  | cons d items ih =>
    -- The new declaration heads one of the five lists, with the lists before it in the way.
    refine List.Perm.trans ?_ (ih.cons d)
    cases d with
    | ofVariable v => exact .refl _
    | ofConstant c =>
      exact ((perm_middle.append_right _).append_right _).append_right _
    | ofCursor c => exact (perm_middle.append_right _).append_right _
    | ofException e => exact perm_middle.append_right _
    | ofRaw text => exact perm_middle

/-- Declarations that stand in order are in this order again when the five lists are merged. -/
theorem toList_ofList {items : List Declaration}
    (h : items.Pairwise fun a b => a.offset < b.offset) : (ofList items).toList = items := by
  have hperm : (ofList items).toList.Perm items :=
    (mergeSort_perm _ _).trans (byKind_ofList_perm items)
  have hsame : ∀ a ∈ items, ∀ b ∈ items, a.offset ≤ b.offset → b.offset ≤ a.offset → a = b := by
    intro a ha b hb hab hba
    obtain ⟨i, hi, rfl⟩ := mem_iff_getElem.1 ha
    obtain ⟨j, hj, rfl⟩ := mem_iff_getElem.1 hb
    have hlt := pairwise_iff_getElem.1 h
    rcases Nat.lt_trichotomy i j with hij | rfl | hji
    · have := hlt i j hi hj hij
      omega
    · rfl
    · have := hlt j i hj hi hji
      omega
  have hsorted : (ofList items).toList.Pairwise fun a b => a.offset ≤ b.offset := by
    refine (pairwise_mergeSort ?_ ?_ _).imp fun hle => of_decide_eq_true hle
    · intro a b c hab hbc
      simp only [decide_eq_true_eq] at hab hbc ⊢
      omega
    · intro a b
      simp only [Bool.or_eq_true, decide_eq_true_eq]
      omega
  refine List.Perm.eq_of_pairwise (fun a b ha hb => ?_) hsorted (h.imp Nat.le_of_lt) hperm
  exact hsame a (hperm.mem_iff.1 ha) b hb

end Declarations

namespace Grammar

variable {ts : List Token} {d : Declaration} {spans : List Span}

/-! ### One declaration for each span -/

/-- The non-empty spans before the semicolons that are found outside all nesting, where the nesting
starts anew after each one. -/
inductive Delimited : List Token → List Span → Prop
  | done : Delimited [] []
  | empty {ts rest : List Token} {semicolon : Token} {spans : List Span}
      (hspan : spanAtDepth (·.isPunct ';') ts = ([], semicolon :: rest))
      (hrest : Delimited rest spans) : Delimited ts spans
  | closed {ts span rest : List Token} {t semicolon : Token} {spans : List Span}
      (hspan : spanAtDepth (·.isPunct ';') ts = (t :: span, semicolon :: rest))
      (hrest : Delimited rest spans) : Delimited ts (⟨t :: span, true⟩ :: spans)
  | unclosed {ts span : List Token} {t : Token}
      (hspan : spanAtDepth (·.isPunct ';') ts = (t :: span, [])) :
      Delimited ts [⟨t :: span, false⟩]

theorem delimited_declarationSpans (ts : List Token) : Delimited ts (declarationSpans ts) := by
  fun_induction declarationSpans ts with
  | case1 ts span hspan hempty =>
    obtain rfl := isEmpty_iff.1 hempty
    obtain rfl : ts = [] := eq_of_spanFrom hspan
    exact .done
  | case2 ts span hspan hempty =>
    obtain ⟨t, span, rfl⟩ := exists_cons_of_ne_nil (mt isEmpty_iff.2 hempty)
    exact .unclosed hspan
  | case3 ts span semicolon rest hspan _ hempty ih =>
    obtain rfl := isEmpty_iff.1 hempty
    exact .empty hspan ih
  | case4 ts span semicolon rest hspan _ hempty ih =>
    obtain ⟨t, span, rfl⟩ := exists_cons_of_ne_nil (mt isEmpty_iff.2 hempty)
    exact .closed hspan ih

/-- The tokens determine their spans. -/
theorem delimited_iff : Delimited ts spans ↔ spans = declarationSpans ts := by
  constructor
  · intro h
    induction h with
    | done => rw [declarationSpans_eq]; rfl
    | empty hspan _ ih => rw [declarationSpans_eq, hspan, ih]; rfl
    | closed hspan _ ih => rw [declarationSpans_eq, hspan, ih]; rfl
    | unclosed hspan => rw [declarationSpans_eq, hspan]; rfl
  · rintro rfl
    exact delimited_declarationSpans ts

/-- The declarations of the spans. -/
def recordsOf (spans : List Span) : List Declaration :=
  spans.map fun span => readDeclaration span.tokens

namespace Delimited

variable {ts : List Token} {spans : List Span}

theorem starts (h : Delimited ts spans) :
    ∀ span ∈ spans, ∃ t ∈ ts, ∃ rest, span.tokens = t :: rest := by
  induction h with
  | done => simp
  | empty hspan _ ih =>
    rw [eq_of_spanFrom hspan]
    intro span hmem
    obtain ⟨t, ht, htokens⟩ := ih span hmem
    exact ⟨t, mem_cons_of_mem _ ht, htokens⟩
  | closed hspan _ ih =>
    rw [eq_of_spanFrom hspan]
    intro span hmem
    rcases mem_cons.1 hmem with rfl | hmem
    · exact ⟨_, mem_cons_self, _, rfl⟩
    · obtain ⟨t, ht, htokens⟩ := ih span hmem
      exact ⟨t, mem_append_right _ (mem_cons_of_mem _ ht), htokens⟩
  | unclosed hspan =>
    rw [eq_of_spanFrom hspan]
    intro span hmem
    obtain rfl := mem_singleton.1 hmem
    exact ⟨_, mem_cons_self, _, rfl⟩

/-- Spans of tokens in order have their declarations in order. -/
theorem ordered (h : Delimited ts spans) (hts : ts.Pairwise fun t u => t.offset < u.offset) :
    (recordsOf spans).Pairwise fun a b => a.offset < b.offset := by
  induction h with
  | done => exact .nil
  | empty hspan _ ih =>
    rw [eq_of_spanFrom hspan] at hts
    exact ih (pairwise_cons.1 hts).2
  | closed hspan hrest ih =>
    rw [eq_of_spanFrom hspan] at hts
    obtain ⟨hfirst, hlater⟩ := pairwise_cons.1 hts
    refine pairwise_cons.2 ⟨fun d hd => ?_, ih (hlater.sublist ?_)⟩
    · obtain ⟨span, hmem, rfl⟩ := mem_map.1 hd
      obtain ⟨u, hu, rest, htokens⟩ := hrest.starts span hmem
      rw [htokens, readDeclaration_offset, readDeclaration_offset]
      exact hfirst u (mem_append_right _ (mem_cons_of_mem _ hu))
    · exact (sublist_cons_self _ _).trans (sublist_append_right _ _)
  | unclosed => exact pairwise_singleton _ _

end Delimited

/-! ### Warnings -/

theorem asRaw_of_map {α : Type} {read : Except String α} {f : α → Declaration}
    (hf : ∀ a, (f a).asRaw = none) (h : read.map f = .ok d) : d.asRaw = none := by
  cases read with
  | error reason => cases h
  | ok a => cases h; exact hf a

theorem asRaw_of_namedDeclaration {name : String} {offset : Nat}
    (h : namedDeclaration name offset ts = .ok d) : d.asRaw = none := by
  unfold namedDeclaration at h
  simp only at h
  split at h
  · exact asRaw_of_map (fun _ => rfl) h
  · split at h
    · cases h
      rfl
    · split at h
      · exact asRaw_of_map (fun _ => rfl) h
      · exact asRaw_of_map (fun _ => rfl) h

/-- What can be read is not kept as it stands. -/
theorem asRaw_of_declaration (h : declaration ts = .ok d) : d.asRaw = none := by
  unfold declaration at h
  split at h
  · cases h
  · split at h
    · exact asRaw_of_map (fun _ => rfl) h
    · split at h
      · cases h
      · split at h
        · cases h
        · split at h
          · exact asRaw_of_namedDeclaration h
          · cases h

/-- A span is warned about once if it is kept as it stands, and once if its semicolon is missing. -/
theorem length_declarationNotes (span : Span) :
    (declarationNotes span).length =
      (readDeclaration span.tokens).asRaw.toList.length + if span.closed then 0 else 1 := by
  unfold declarationNotes readDeclaration
  cases hread : declaration span.tokens with
  | ok d => cases hclosed : span.closed <;> simp [asRaw_of_declaration hread]
  | error reason => cases hclosed : span.closed <;> simp [Declaration.asRaw]

theorem declarationNotes_stage (span : Span) :
    ∀ note ∈ declarationNotes span, note.severity = .warning ∧ note.stage = .declaration := by
  have hunclosed : ∀ (offset : Option Nat) (text : String),
      ∀ note ∈ if span.closed then [] else [Diagnostic.warning .declaration offset text],
        note.severity = .warning ∧ note.stage = .declaration := by
    intro offset text note hnote
    split at hnote
    · cases hnote
    · obtain rfl := mem_singleton.1 hnote
      exact ⟨rfl, rfl⟩
  intro note hnote
  simp only [declarationNotes] at hnote
  split at hnote
  · exact hunclosed _ _ note hnote
  · rcases mem_append.1 hnote with hnote | hnote
    · exact hunclosed _ _ note hnote
    · obtain rfl := mem_singleton.1 hnote
      exact ⟨rfl, rfl⟩

theorem Delimited.length_notes (h : Delimited ts spans) :
    (spans.flatMap declarationNotes).length =
      ((recordsOf spans).filterMap Declaration.asRaw).length +
        if spans.getLast?.any (!·.closed) then 1 else 0 := by
  have hraw : ∀ (span : Span) (spans : List Span),
      ((recordsOf (span :: spans)).filterMap Declaration.asRaw).length =
        (readDeclaration span.tokens).asRaw.toList.length +
          ((recordsOf spans).filterMap Declaration.asRaw).length := by
    intro span spans
    rw [recordsOf, map_cons, filterMap_cons]
    cases (readDeclaration span.tokens).asRaw with
    | none => simp [recordsOf]
    | some text => simp [recordsOf, Nat.add_comm]
  induction h with
  | done => rfl
  | empty _ _ ih => exact ih
  | @closed _ _ _ _ _ spans _ _ ih =>
    have hlast : ∀ span : Span, span.closed →
        ((span :: spans).getLast?.any (!·.closed)) = spans.getLast?.any (!·.closed) := by
      intro span hclosed
      cases hspans : spans.getLast? <;> simp [getLast?_cons, hspans, hclosed]
    rw [flatMap_cons, length_append, ih, length_declarationNotes, hraw, hlast _ rfl]
    simp only [if_true]
    omega
  | unclosed =>
    rw [flatMap_cons, length_append, length_declarationNotes, hraw]
    rfl

end Grammar

namespace Generate

/-! ### Writing -/

/-- After `DECLARE` there is one step for each declaration, in their order, and then a line for each
of the loop variables; where there is nothing to declare, there are no steps. -/
def WrittenInOrder (scope : Scope) (steps : List Layout) (ds : List Declaration)
    (names : List String) : Prop :=
  ∃ item : Declaration → Layout, (∀ d, (declaration scope d).steps = [item d]) ∧
    steps = if ds = [] ∧ names = [] then [] else
      .line "DECLARE" :: Layout.nested (ds.map item ++ names.map fun name =>
        .line s!"{name} RECORD;")

/-- The step that is written for a declaration. -/
def declarationStep (scope : Scope) (d : Declaration) : Layout :=
  ((declaration scope d).steps.head?).getD .blank

theorem declaration_steps (scope : Scope) (d : Declaration) :
    (declaration scope d).steps = [declarationStep scope d] := by
  cases d <;> rfl

theorem declareSection_writtenInOrder (scope : Scope) (d : Declarations)
    (statements : List Statement) :
    WrittenInOrder scope (declareSection scope d statements).steps d.toList
      (recordNames d statements) := by
  refine ⟨declarationStep scope, declaration_steps scope, ?_⟩
  have hitems : (d.toList.map (declaration scope)).flatMap Output.steps =
      d.toList.map (declarationStep scope) := by
    simp only [flatMap_map, declaration_steps]
    exact map_eq_flatMap.symm
  unfold declareSection
  simp only [Bool.and_eq_true, List.isEmpty_iff]
  split
  · rfl
  · rw [← hitems]
    rfl

end Generate

namespace Grammar

/-- Every declaration of a section appears exactly once and in source order. Each non-empty span
before a semicolon gives one declaration, which starts where the span does, in one of the five
lists. There is a warning for each one that is kept as it stands, and one more if the last semicolon
is missing. What is written has one item for each span, in their order. -/
theorem readDeclarations_sourceOrder {source : String} {all ts : List Token}
    (h : Token.ofSource source = .ok all) (hts : ts <:+: all) :
    ∃ spans, (∀ others, Delimited ts others ↔ others = spans) ∧
      (∀ span ∈ spans, ∃ t rest, span.tokens = t :: rest ∧
        (readDeclaration span.tokens).offset = t.offset) ∧
      (readDeclarations ts).1.byKind.Perm (recordsOf spans) ∧
      (readDeclarations ts).1.toList = recordsOf spans ∧
      (∀ note ∈ (readDeclarations ts).2, note.severity = .warning ∧ note.stage = .declaration) ∧
      (readDeclarations ts).2.length =
        (readDeclarations ts).1.raw.length + (if spans.getLast?.any (!·.closed) then 1 else 0) ∧
      ∀ scope statements, Generate.WrittenInOrder scope
        (Generate.declareSection scope (readDeclarations ts).1 statements).steps (recordsOf spans)
        (Generate.recordNames (readDeclarations ts).1 statements) := by
  have hspans := delimited_declarationSpans ts
  have hordered := hspans.ordered ((ofSource_inSource h).ordered.sublist hts.sublist)
  have hmerged : (readDeclarations ts).1.toList = recordsOf (declarationSpans ts) :=
    Declarations.toList_ofList hordered
  refine ⟨declarationSpans ts, fun _ => delimited_iff, ?_, Declarations.byKind_ofList_perm _,
    hmerged, ?_, hspans.length_notes, ?_⟩
  · intro span hmem
    obtain ⟨t, _, rest, htokens⟩ := hspans.starts span hmem
    exact ⟨t, rest, htokens, by rw [htokens, readDeclaration_offset]⟩
  · intro note hnote
    obtain ⟨span, _, hspan⟩ := mem_flatMap.1 hnote
    exact declarationNotes_stage span note hspan
  · intro scope statements
    rw [← hmerged]
    exact Generate.declareSection_writtenInOrder scope (readDeclarations ts).1 statements

/-- A variable, two semicolons, and a last declaration that cannot be read and has none. -/
def lastUnclosed : String := "DECLARE a NUMBER; ; PRAGMA p"

/-- The two spans between the semicolons. -/
def lastUnclosedSpans : List Span :=
  [⟨[⟨⟨.identifier, "a"⟩, 8⟩, ⟨⟨.identifier, "NUMBER"⟩, 10⟩], true⟩,
    ⟨[⟨⟨.keyword, "PRAGMA"⟩, 20⟩, ⟨⟨.identifier, "p"⟩, 27⟩], false⟩]

theorem readDeclarations_sourceOrder_lastUnclosed :
    ∃ all, Token.ofSource lastUnclosed = .ok all ∧ Delimited all.tail lastUnclosedSpans ∧
      (readDeclarations all.tail).1.toList = recordsOf lastUnclosedSpans ∧
      (readDeclarations all.tail).1.raw.length = 1 ∧ (readDeclarations all.tail).2.length = 2 := by
  have hsource := ofSource_eq_ok (by decide +kernel : (lex lastUnclosed.toList).unfinished = none)
  obtain ⟨spans, hspans, _, _, hmerged, _, hnotes, _⟩ :=
    readDeclarations_sourceOrder hsource (tail_suffix _).isInfix
  have hfirst : spanAtDepth (·.isPunct ';') (lex lastUnclosed.toList).tokens.tail =
      ([⟨⟨.identifier, "a"⟩, 8⟩, ⟨⟨.identifier, "NUMBER"⟩, 10⟩],
        [⟨⟨.punctuation, ";"⟩, 16⟩, ⟨⟨.punctuation, ";"⟩, 18⟩, ⟨⟨.keyword, "PRAGMA"⟩, 20⟩,
          ⟨⟨.identifier, "p"⟩, 27⟩]) := by
    decide +kernel
  have hlast : Delimited [⟨⟨.keyword, "PRAGMA"⟩, 20⟩, ⟨⟨.identifier, "p"⟩, 27⟩]
      [⟨[⟨⟨.keyword, "PRAGMA"⟩, 20⟩, ⟨⟨.identifier, "p"⟩, 27⟩], false⟩] :=
    .unclosed (by decide +kernel)
  have hcut : Delimited (lex lastUnclosed.toList).tokens.tail lastUnclosedSpans :=
    .closed hfirst (.empty rfl hlast)
  obtain rfl := (hspans _).1 hcut
  have hraw : (readDeclarations (lex lastUnclosed.toList).tokens.tail).1.raw.length = 1 := by
    rw [readDeclarations, ← delimited_iff.1 hcut]
    decide +kernel
  exact ⟨_, hsource, hcut, hmerged, hraw, hnotes.trans (by rw [hraw]; rfl)⟩

end Grammar

end TriggerDialect
