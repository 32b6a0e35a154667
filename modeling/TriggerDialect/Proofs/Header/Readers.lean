import TriggerDialect.Proofs.Header.Phrase
import TriggerDialect.Proofs.Phrase.Plain
import TriggerDialect.Proofs.Reading.Declared

/-!
# Readers and phrases

A header is read from left to right, and every decision is made on the next token. Each reader takes
exactly the phrases of its kind off the tokens, if what follows cannot belong to the phrase
(`Takes`).
-/

namespace TriggerDialect

open Phrase List

variable {inner rest ts : List Token} {other word : String} {α β : Type} {p : Piece} {mark : Char}
  (header : Header)

namespace Piece

/-- A piece that is one word is another one only in letter case. -/
theorem isWord_eq (h : p.isWord word) (other : String) :
    p.isWord other = (Text.upper word == Text.upper other) := by
  simp only [isWord, Text.sameWord, Bool.and_eq_true, beq_iff_eq] at h
  simp [isWord, Text.sameWord, h.1, h.2]

theorem isWord_eq_false (h : p.isWord word) (hne : Text.upper word ≠ Text.upper other) :
    p.isWord other = false := by
  rw [isWord_eq h, beq_eq_false_iff_ne]
  exact hne

theorem isPunct_of_isWord (h : p.isWord word) (mark : Char) : p.isPunct mark = false := by
  refine isPunct_eq_false_of_kind (fun hkind => ?_) mark
  simp [isWord, hkind] at h

end Piece

namespace Grammar

open Heading

variable {e : Except Stuck α}

/-! ### What follows a phrase -/

/-- The tokens start with one of the words. -/
def Opens (words : List String) (ts : List Token) : Prop :=
  ∃ t rest, ts = t :: rest ∧ ∃ word ∈ words, t.isWord word

namespace Opens

variable {words : List String} {ts : List Token}

theorem spelling (w : Spelling word) : Opens [word] (w.token :: rest) :=
  ⟨w.token, rest, rfl, word, mem_singleton_self word, w.holds⟩

theorem choice (w : Choice word other) : Opens [word, other] (w.token :: rest) := by
  rcases Bool.or_eq_true_iff.1 w.holds with hword | hword
  · exact ⟨w.token, rest, rfl, word, by simp, hword⟩
  · exact ⟨w.token, rest, rfl, other, by simp, hword⟩

theorem mono {others : List String} (h : Opens words ts) (hsubset : words ⊆ others) :
    Opens others ts := by
  obtain ⟨t, rest, hts, word, hmem, hword⟩ := h
  exact ⟨t, rest, hts, word, hsubset hmem, hword⟩

theorem isWord_eq_false (h : Opens words ts)
    (hother : ∀ word ∈ words, Text.upper word ≠ Text.upper other) :
    ∀ t ∈ ts.head?, t.isWord other = false := by
  obtain ⟨t, rest, rfl, word, hmem, hword⟩ := h
  rintro u ⟨⟩
  exact Piece.isWord_eq_false hword (hother word hmem)

theorem isPunct_eq_false (h : Opens words ts) (mark : Char) :
    ∀ t ∈ ts.head?, t.isPunct mark = false := by
  obtain ⟨t, rest, rfl, word, _, hword⟩ := h
  rintro u ⟨⟩
  exact Piece.isPunct_of_isWord hword mark

end Opens

theorem eatWord?_eq_none (h : ∀ t ∈ ts.head?, t.isWord word = false) : eatWord? word ts = none := by
  cases ts with
  | nil => rfl
  | cons t ts => simp [eatWord?, h t rfl]

theorem eatMark?_eq_none (h : ∀ t ∈ ts.head?, t.isPunct mark = false) :
    eatMark? mark ts = none := by
  cases ts with
  | nil => rfl
  | cons t ts => simp [eatMark?, h t rfl]

@[simp] theorem eatWord?_spelling (w : Spelling word) :
    eatWord? word (w.token :: rest) = some rest := by
  simp [eatWord?, w.holds]

@[simp] theorem expectWord_spelling (w : Spelling word) :
    expectWord word (w.token :: rest) = .ok rest := by
  simp [expectWord, w.holds]

@[simp] theorem eatMark?_mark (m : Mark mark) : eatMark? mark (m.token :: rest) = some rest := by
  simp [eatMark?, m.holds]

theorem eq_of_eatWord? (h : eatWord? word ts = some rest) :
    ∃ w : Spelling word, ts = w.token :: rest := by
  cases ts with
  | nil => cases h
  | cons t ts =>
    obtain ⟨hword, rfl⟩ : t.isWord word ∧ ts = rest := by simpa [eatWord?] using h
    exact ⟨⟨t, hword⟩, rfl⟩

theorem isWord_of_eatWord? (h : eatWord? word ts = none) :
    ∀ t ∈ ts.head?, t.isWord word = false := by
  cases ts with
  | nil => simp
  | cons t ts =>
    rintro u ⟨⟩
    simpa [eatWord?] using h

theorem eq_of_eatMark? (h : eatMark? mark ts = some rest) :
    ∃ m : Mark mark, ts = m.token :: rest := by
  cases ts with
  | nil => cases h
  | cons t ts =>
    obtain ⟨hmark, rfl⟩ : t.isPunct mark ∧ ts = rest := by simpa [eatMark?] using h
    exact ⟨⟨t, hmark⟩, rfl⟩

theorem eq_of_expectWord (h : expectWord word ts = .ok rest) :
    ∃ w : Spelling word, ts = w.token :: rest := by
  cases ts with
  | nil => cases h
  | cons t ts =>
    simp only [expectWord] at h
    split at h
    · rename_i hword
      cases h
      exact ⟨⟨t, hword⟩, rfl⟩
    · cases h

theorem of_bind_ok {f : α → Except Stuck β} {b : β} (h : (e >>= f) = .ok b) :
    ∃ a, e = .ok a ∧ f a = .ok b := by
  cases e with
  | error stuck => cases h
  | ok a => exact ⟨a, rfl, h⟩

theorem of_map_ok {f : α → β} {b : β} (h : e.map f = .ok b) : ∃ a, e = .ok a ∧ f a = b := by
  cases e with
  | error stuck => cases h
  | ok a => exact ⟨a, rfl, Except.ok.inj h⟩

/-! ### Readers and phrases -/

/-- A reader takes exactly the phrases of a kind off the tokens, where what follows a phrase is such
that it cannot belong to it. -/
structure Takes {φ α : Type} (reader : List Token → Reading α) (tokens : φ → List Token)
    (value : φ → α) (follow : List Token → Prop) : Prop where
  sound : ∀ {ts rest : List Token} {a : α}, reader ts = .ok (a, rest) →
    ∃ phrase, ts = tokens phrase ++ rest ∧ value phrase = a
  complete : ∀ (phrase : φ) (rest : List Token), follow rest →
    reader (tokens phrase ++ rest) = .ok (value phrase, rest)

/-- The tokens do not go on with a mark. -/
def NoMark (mark : Char) (ts : List Token) : Prop := ∀ t ∈ ts.head?, t.isPunct mark = false

theorem name_takes :
    Takes name (fun id : Identifier => [id.token]) (fun id => id.token.text)
      fun _ => True where
  sound {ts rest a} h := by
    cases ts with
    | nil => cases h
    | cons t ts =>
      simp only [name] at h
      split at h
      · rename_i hname
        cases h
        exact ⟨⟨t, hname⟩, rfl, rfl⟩
      · cases h
  complete id rest _ := by simp [name, id.holds]

theorem chain_eq (ts : List Token) : ∃ segments : List Phrase.Segment,
    ts = segments.flatMap Phrase.Segment.tokens ++ (chain ts).2 ∧
      (chain ts).1 = segments.map fun segment => segment.name.token := by
  fun_induction chain ts with
  | case1 dot segment rest h later ih =>
    rw [Bool.and_eq_true] at h
    obtain ⟨segments, hrest, hnames⟩ := ih
    refine ⟨⟨⟨dot, h.1⟩, ⟨segment, h.2⟩⟩ :: segments, ?_, ?_⟩
    · exact congrArg (fun ts => dot :: segment :: ts) hrest
    · exact congrArg (segment :: ·) hnames
  | case2 => exact ⟨[], rfl, rfl⟩
  | case3 => exact ⟨[], rfl, rfl⟩

theorem qualifiedName_takes :
    Takes qualifiedName QualifiedName.tokens QualifiedName.text (NoMark '.') where
  sound {ts rest a} h := by
    unfold qualifiedName at h
    split at h
    · cases h
    · rename_i first left hname
      obtain ⟨id, rfl, rfl⟩ := name_takes.sound hname
      obtain ⟨segments, hleft, hnames⟩ := chain_eq left
      cases h
      refine ⟨⟨id, segments⟩, ?_, ?_⟩
      · exact congrArg (id.token :: ·) hleft
      · simp [QualifiedName.text, hnames, Function.comp_def]
  complete phrase rest hrest := by
    simp only [qualifiedName, name, QualifiedName.tokens, cons_append, phrase.first.holds,
      if_true, chain_segments phrase.segments hrest, map_map]
    rfl

/-! ### Timing and events -/

theorem timing_takes :
    Takes timing Moment.tokens Moment.timing fun _ => True where
  sound {ts rest a} h := by
    cases ts with
    | nil => cases h
    | cons t ts =>
      simp only [timing] at h
      split at h
      · rename_i hword
        cases h
        exact ⟨.before ⟨t, hword⟩, rfl, rfl⟩
      · split at h
        · rename_i hword
          cases h
          exact ⟨.after ⟨t, hword⟩, rfl, rfl⟩
        · split at h
          · rename_i hword
            obtain ⟨left, hof, hpair⟩ := of_map_ok h
            cases hpair
            obtain ⟨ofWord, rfl⟩ := eq_of_expectWord hof
            exact ⟨.insteadOf ⟨t, hword⟩ ofWord, rfl, rfl⟩
          · split at h <;> cases h
  complete phrase rest _ := by
    cases phrase with
    | before word | after word =>
      simp only [Moment.tokens, cons_append, timing, Piece.isWord_eq word.holds]
      rfl
    | insteadOf word ofWord =>
      simp only [Moment.tokens, cons_append, timing, Piece.isWord_eq word.holds,
        expectWord_spelling]
      rfl

/-- The tokens do not go on with the columns of an event. -/
def NoColumns (ts : List Token) : Prop :=
  (∀ t ∈ ts.head?, t.isWord "OF" = false) ∧ NoMark ',' ts

theorem moreNames_takes :
    Takes moreNames
      (fun others : List (Mark ',' × Identifier) =>
        others.flatMap fun other => other.1.token :: [other.2.token])
      (fun others => others.map fun other => other.2.token.text)
      (NoMark ',') where
  sound {ts rest names} h := by
    fun_induction moreNames ts generalizing names with
    | case1 => cases h; exact ⟨[], rfl, rfl⟩
    | case2 => cases h
    | case3 => cases h
    | case4 comma hcomma t ts hname names' rest' hmore ih =>
      cases h
      obtain ⟨others, rfl, rfl⟩ := ih hmore
      exact ⟨(⟨comma, hcomma⟩, ⟨t, hname⟩) :: others, rfl, rfl⟩
    | case5 => cases h
    | case6 => cases h; exact ⟨[], rfl, rfl⟩
  complete others rest hrest := by
    induction others with
    | nil =>
      cases rest with
      | nil => rfl
      | cons t rest =>
        have hcomma : t.isPunct ',' = false := hrest t rfl
        rw [flatMap_nil, nil_append, moreNames.eq_def]
        simp [hcomma]
    | cons other others ih =>
      simp only [flatMap_cons, cons_append, nil_append, moreNames, other.1.holds,
        other.2.holds, if_true, ih, map_cons]

theorem updateColumns_takes :
    Takes updateColumns Columns.tokens Columns.texts NoColumns where
  sound {ts rest names} h := by
    unfold updateColumns at h
    split at h
    · cases h
      exact ⟨none, rfl, rfl⟩
    · rename_i left hof
      split at h
      · cases h
      · rename_i first left' hname
        obtain ⟨found, hmore, hpair⟩ := of_map_ok h
        cases hpair
        obtain ⟨word, rfl⟩ := eq_of_eatWord? hof
        obtain ⟨id, rfl, rfl⟩ := name_takes.sound hname
        obtain ⟨others, rfl, hnames⟩ := moreNames_takes.sound hmore
        refine ⟨some ⟨word, id, others⟩, rfl, ?_⟩
        rw [← hnames]
        simp [Columns.texts, Separated.items]
  complete columns rest hrest := by
    cases columns with
    | none => simp [updateColumns, Columns.tokens, eatWord?_eq_none hrest.1, Columns.texts]
    | some columns =>
      have hmore := moreNames_takes.complete columns.names.others _ hrest.2
      have hfirst : ∀ rest, name (columns.names.first.token :: rest) = _ :=
        fun rest => name_takes.complete columns.names.first _ trivial
      simp only [updateColumns, Columns.tokens, Separated.tokens, cons_append,
        eatWord?_spelling, nil_append, hfirst, hmore]
      simp [Except.map, Columns.texts, Separated.items]

theorem event_takes :
    Takes event Occasion.tokens Occasion.event NoColumns where
  sound {ts rest e} h := by
    cases ts with
    | nil => cases h
    | cons t ts =>
      simp only [event] at h
      split at h
      · rename_i hword
        cases h
        exact ⟨.insert ⟨t, hword⟩, rfl, rfl⟩
      · split at h
        · rename_i hword
          obtain ⟨found, hcolumns, hpair⟩ := of_map_ok h
          cases hpair
          obtain ⟨columns, rfl, hnames⟩ := updateColumns_takes.sound hcolumns
          exact ⟨.update ⟨t, hword⟩ columns, rfl, by rw [Occasion.event, hnames]⟩
        · split at h
          · rename_i hword
            cases h
            exact ⟨.delete ⟨t, hword⟩, rfl, rfl⟩
          · cases h
  complete phrase rest hrest := by
    cases phrase with
    | insert word | delete word =>
      simp only [Occasion.tokens, cons_append, event, Piece.isWord_eq word.holds]
      rfl
    | update word columns =>
      have hcolumns := updateColumns_takes.complete columns _ hrest
      simp only [Occasion.tokens, cons_append, event, Piece.isWord_eq word.holds, hcolumns]
      rfl

theorem Opens.noColumns {words : List String} (h : Opens words ts)
    (hof : ∀ word ∈ words, Text.upper word ≠ Text.upper "OF") : NoColumns ts :=
  ⟨h.isWord_eq_false hof, h.isPunct_eq_false ','⟩

theorem events_takes :
    Takes events (fun list : Separated (·.isWord "OR") Occasion => list.tokens Occasion.tokens)
      (fun list => list.items.map Occasion.event) (Opens ["ON"]) where
  sound {ts rest found} h := by
    fun_induction events ts generalizing found with
    | case1 => cases h
    | case2 ts first left hevent hor =>
      cases h
      obtain ⟨occasion, rfl, rfl⟩ := event_takes.sound hevent
      exact ⟨⟨occasion, []⟩, by simp [Separated.tokens], rfl⟩
    | case3 ts first left hevent left' hor _ ih =>
      obtain ⟨later, hlater, hpair⟩ := of_map_ok h
      cases hpair
      obtain ⟨occasion, rfl, rfl⟩ := event_takes.sound hevent
      obtain ⟨word, rfl⟩ := eq_of_eatWord? hor
      obtain ⟨list, rfl, hlist⟩ := ih hlater
      refine ⟨⟨occasion, (word, list.first) :: list.others⟩, ?_, ?_⟩
      · simp [Separated.tokens]
      · rw [← hlist]
        rfl
  complete list rest hrest := by
    obtain ⟨first, others⟩ := list
    induction others generalizing first with
    | nil =>
      have hevent := event_takes.complete first _ (hrest.noColumns (by decide))
      have hor := eatWord?_eq_none (hrest.isWord_eq_false
        (show ∀ word ∈ ["ON"], Text.upper word ≠ Text.upper "OR" by decide))
      simp only [Separated.tokens, flatMap_nil, append_nil]
      rw [events_eq, hevent]
      simp only [hor]
      rfl
    | cons other others ih =>
      obtain ⟨word, second⟩ := other
      have hevent := fun rest => event_takes.complete first (word.token :: rest)
        ((Opens.spelling word).noColumns (by decide))
      rw [Separated.tokens_cons, events_eq, hevent]
      simp only [eatWord?_spelling, ih second]
      rfl

/-! ### Clauses -/

theorem rowName?_eq {row : RowName} (h : rowName? ts = some (row, rest)) :
    ∃ word : RowWord, ts = word.token :: rest ∧ word.row = row := by
  cases ts with
  | nil => cases h
  | cons t ts =>
    simp only [rowName?] at h
    split at h
    · rename_i hword
      cases h
      exact ⟨.new ⟨t, hword⟩, rfl, rfl⟩
    · split at h
      · rename_i hword
        cases h
        exact ⟨.old ⟨t, hword⟩, rfl, rfl⟩
      · split at h
        · rename_i hword
          cases h
          exact ⟨.parent ⟨t, hword⟩, rfl, rfl⟩
        · cases h

theorem rowName?_token (word : RowWord) :
    rowName? (word.token :: rest) = some (word.row, rest) := by
  cases word with
  | new word | old word | parent word =>
    simp only [RowWord.token, rowName?, Piece.isWord_eq word.holds]
    rfl

theorem skipAs_eq (ts : List Token) : ∃ asWord : Option (Spelling "AS"),
    ts = (asWord.map TokenOf.token).toList ++ skipAs ts ∧
      (asWord = none → ∀ t ∈ (skipAs ts).head?, t.isWord "AS" = false) := by
  unfold skipAs
  cases has : eatWord? "AS" ts with
  | none => exact ⟨none, rfl, fun _ => isWord_of_eatWord? has⟩
  | some rest =>
    obtain ⟨word, rfl⟩ := eq_of_eatWord? has
    exact ⟨some word, rfl, fun h => by cases h⟩

/-- The optional word before a name is skipped, and the name is not taken for it. -/
theorem skipAs_tokens (a : Alias) :
    skipAs ((a.asWord.map TokenOf.token).toList ++ a.name.token :: rest) =
      a.name.token :: rest := by
  cases has : a.asWord with
  | none =>
    have hname := a.told has
    have hnone : eatWord? "AS" (a.name.token :: rest) = none :=
      eatWord?_eq_none fun t ht => by cases ht; exact hname
    simp [skipAs, hnone]
  | some word => simp [skipAs]

/-- The header with more names for its rows. -/
def withAliases (header : Header) (aliases : List Alias) : Header :=
  aliases.foldl (fun header a => withAlias header a.row.row a.name.token.text) header

theorem aliases_takes :
    Takes (aliases header) (fun list : List Alias => list.flatMap Alias.tokens)
      (withAliases header) fun rest => rowName? rest = none where
  sound {ts rest header'} h := by
    fun_induction aliases header ts with
    | case1 => cases h; exact ⟨[], rfl, rfl⟩
    | case2 => cases h
    | case3 header ts row left hrow chosen left' hname _ ih =>
      obtain ⟨word, rfl, rfl⟩ := rowName?_eq hrow
      obtain ⟨asWord, hleft, htold⟩ := skipAs_eq left
      obtain ⟨id, hskip, rfl⟩ := name_takes.sound hname
      obtain ⟨list, rfl, rfl⟩ := ih h
      rw [hskip] at hleft htold
      refine ⟨⟨word, asWord, id, fun hnone => htold hnone id.token rfl⟩ :: list, ?_, rfl⟩
      rw [hleft]
      simp [Alias.tokens]
  complete list rest hrest := by
    induction list generalizing header with
    | nil => rw [aliases_eq, flatMap_nil, nil_append, hrest]; rfl
    | cons a list ih =>
      have htokens : (a :: list).flatMap Alias.tokens ++ rest = a.row.token ::
          ((a.asWord.map TokenOf.token).toList ++
            a.name.token :: (list.flatMap Alias.tokens ++ rest)) := by
        simp [Alias.tokens]
      have hname : ∀ rest, name (a.name.token :: rest) = .ok (a.name.token.text, rest) :=
        fun rest => name_takes.complete a.name _ trivial
      rw [htokens, aliases_eq, rowName?_token]
      simp only [skipAs_tokens, hname]
      exact ih _

theorem aliases_length_lt {header header' : Header} (hrow : (rowName? ts).isSome)
    (h : aliases header ts = .ok (header', rest)) : rest.length < ts.length := by
  obtain ⟨⟨row, left⟩, hrow⟩ := Option.isSome_iff_exists.1 hrow
  rw [aliases_eq, hrow] at h
  simp only at h
  split at h
  · cases h
  · rename_i chosen left' hname
    have := rowName?_length hrow
    have := skipAs_length left
    have := name_length hname
    have := aliases_length h
    omega

theorem referencing_takes :
    Takes (referencing header)
      (fun list : Alias × List Alias => (list.1 :: list.2).flatMap Alias.tokens)
      (fun list => withAliases header (list.1 :: list.2))
      fun rest => rowName? rest = none where
  sound {ts rest header'} h := by
    unfold referencing at h
    split at h
    · rename_i hrow
      have hshort := aliases_length_lt hrow h
      obtain ⟨list, rfl, rfl⟩ := (aliases_takes header).sound h
      cases list with
      | nil => simp at hshort
      | cons first others => exact ⟨(first, others), rfl, rfl⟩
    · cases h
  complete list rest hrest := by
    have hrow : (rowName? ((list.1 :: list.2).flatMap Alias.tokens ++ rest)).isSome := by
      simp [Alias.tokens, rowName?_token]
    rw [referencing, if_pos hrow]
    exact (aliases_takes header).complete (list.1 :: list.2) _ hrest

theorem skipNames_takes :
    Takes (skipNames header)
      (fun list : Separated (·.isPunct ',') QualifiedName => list.tokens QualifiedName.tokens)
      (fun _ => header) fun rest => NoMark '.' rest ∧ NoMark ',' rest where
  sound {ts rest header'} h := by
    fun_induction skipNames header ts with
    | case1 => cases h
    | case2 ts text left hname hcomma =>
      cases h
      obtain ⟨phrase, rfl, -⟩ := qualifiedName_takes.sound hname
      exact ⟨⟨phrase, []⟩, by simp [Separated.tokens], rfl⟩
    | case3 ts text left hname left' hcomma _ ih =>
      obtain ⟨phrase, rfl, -⟩ := qualifiedName_takes.sound hname
      obtain ⟨comma, rfl⟩ := eq_of_eatMark? hcomma
      obtain ⟨list, rfl, rfl⟩ := ih h
      exact ⟨⟨phrase, (comma, list.first) :: list.others⟩, by simp [Separated.tokens], rfl⟩
  complete list rest hrest := by
    obtain ⟨first, others⟩ := list
    induction others generalizing first with
    | nil =>
      have hname := qualifiedName_takes.complete first _ hrest.1
      simp only [Separated.tokens, flatMap_nil, append_nil]
      rw [skipNames_eq, hname]
      simp only [eatMark?_eq_none hrest.2]
    | cons other others ih =>
      obtain ⟨comma, second⟩ := other
      have hdot : ∀ rest, NoMark '.' (comma.token :: rest) := by
        rintro rest t ⟨⟩
        exact Piece.isPunct_eq_false comma.holds (by decide)
      have hname := fun rest => qualifiedName_takes.complete first _ (hdot rest)
      rw [Separated.tokens_cons, skipNames_eq, hname]
      simp only [eatMark?_mark]
      exact ih second

theorem eachRow_takes :
    Takes (eachRow header)
      (fun words : Spelling "EACH" × Spelling "ROW" => [words.1.token, words.2.token])
      (fun _ => { header with forEachRow := true }) fun _ => True where
  sound {ts rest header'} h := by
    unfold eachRow at h
    split at h
    · cases h
    · rename_i left heach
      obtain ⟨found, hrow, hpair⟩ := of_map_ok h
      cases hpair
      obtain ⟨each, rfl⟩ := eq_of_expectWord heach
      obtain ⟨row, rfl⟩ := eq_of_expectWord hrow
      exact ⟨(each, row), rfl, rfl⟩
  complete words rest _ := by simp [eachRow, Except.map]

/-! ### Brackets -/

/-- Balanced tokens close all brackets that they open. -/
theorem bracketsAfter_balanced (h : Balanced inner) (depth : Nat) :
    bracketsAfter depth inner = some depth := by
  induction h generalizing depth with
  | nil => rfl
  | plain hopening hclosing _ ih => rw [bracketsAfter_other hopening hclosing, ih]
  | group hopening _ hclosing _ ihinner ih =>
    rw [bracketsAfter_opening hopening, bracketsAfter_append, ihinner, Option.bind_some,
      bracketsAfter_closing hclosing, ih]

/-- Tokens that close `n` brackets more than they open. -/
inductive Closes : Nat → List Token → Prop
  | balanced {ts : List Token} (h : Balanced ts) : Closes 0 ts
  | closing {n : Nat} {front ts : List Token} {t : Token} (hfront : Balanced front)
      (hclosing : t.isPunct ')') (h : Closes n ts) : Closes (n + 1) (front ++ t :: ts)

namespace Closes

variable {n : Nat} {t : Token} {ts : List Token}

theorem plain (h : Closes n ts) (hopening : t.isPunct '(' = false)
    (hclosing : t.isPunct ')' = false) : Closes n (t :: ts) := by
  cases h with
  | balanced h => exact .balanced (.plain hopening hclosing h)
  | closing hfront hmark h => exact .closing (.plain hopening hclosing hfront) hmark h

theorem group (h : Closes (n + 1) ts) (hopening : t.isPunct '(' = true) : Closes n (t :: ts) := by
  cases h with
  | closing hfront hmark h =>
    cases h with
    | balanced h => exact .balanced (.group hopening hfront hmark h)
    | @closing _ front' ts' t' hfront' hmark' h =>
      have hmore := Closes.closing (.group hopening hfront hmark hfront') hmark' h
      simpa using hmore

end Closes

theorem closes_of_bracketsAfter {n : Nat} (h : bracketsAfter n ts = some 0) : Closes n ts := by
  fun_induction bracketsAfter n ts with
  | case1 => cases h; exact .balanced .nil
  | case2 n t ts hopening ih => exact (ih h).group hopening
  | case3 => cases h
  | case4 n t ts _ hclosing hn ih =>
    obtain ⟨n, rfl⟩ := Nat.exists_eq_succ_of_ne_zero hn
    exact .closing .nil hclosing (ih h)
  | case5 n t ts hopening hclosing ih =>
    exact (ih h).plain (by simpa using hopening) (by simpa using hclosing)

theorem balanced_of_bracketsAfter (h : bracketsAfter 0 ts = some 0) : Balanced ts := by
  cases closes_of_bracketsAfter h with
  | balanced h => exact h

theorem condition_takes :
    Takes (condition header) Group.tokens
      (fun group => { header with condition := some (Fragment.ofTokens group.inner) })
      fun _ => True where
  sound {ts rest header'} h := by
    unfold condition at h
    split at h
    · cases h
    · split at h
      · split at h
        · cases h
        · rename_i inner after hgroup
          cases h
          obtain ⟨opening, closing, hopening, hclosing, heq, hinner⟩ := bracketGroup_iff.1 hgroup
          refine ⟨⟨⟨opening, hopening⟩, inner, balanced_of_bracketsAfter hinner,
            ⟨closing, hclosing⟩⟩, ?_, rfl⟩
          simp [Group.tokens, heq]
      · cases h
  complete group rest _ := by
    have hread : bracketGroup (group.tokens ++ rest) = some (group.inner, rest) :=
      bracketGroup_iff.2 ⟨group.opening.token, group.closing.token, group.opening.holds,
        group.closing.holds, by simp [Group.tokens], bracketsAfter_balanced group.balanced 0⟩
    simp only [Group.tokens, cons_append] at hread ⊢
    simp only [condition, group.opening.holds, hread, if_true]

end Grammar

end TriggerDialect
