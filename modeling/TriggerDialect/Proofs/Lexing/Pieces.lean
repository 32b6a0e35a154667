import TriggerDialect.Proofs.Lexing.Munch
import TriggerDialect.Token.Stream

/-!
# The pieces of a text

`Reads cs ps` says that the text is cut into these pieces with nothing left open, and `Yields` says
where they and the comments stand. Blanks move what follows them and do nothing else
(`lex_blanks`), and neither do comments: with its comments blanked out, a text has the same
tokens at the same places (`yields_cleared`).
-/

namespace TriggerDialect

open List Text Scan Lexeme

variable {blanks body cs' xs : List Char} {source : String} {fault : Unterminated} {step : Cut}
  {kind : Kind} {p : Char → Bool} {lexeme : Lexeme}

variable {c : Char} {cs rest : List Char} {ps : List Piece}

/-- The piece that a lexeme is, unless it is a blank or a comment. -/
def Lexeme.piece? (lexeme : Lexeme) : Option Piece :=
  match lexeme.shape with
  | .token kind => some ⟨kind, lexeme.text⟩
  | .blank => none
  | .comment => none

namespace Lexeme

/-- The lexemes other than blanks and where they stand, the first lexeme being at `offset`. -/
def placed (offset : Nat) : List Lexeme → List (Nat × Lexeme)
  | [] => []
  | lexeme :: rest =>
    let later := placed (offset + Text.byteLength lexeme.chars) rest
    if lexeme.shape = .blank then later else (offset, lexeme) :: later

/-- The token that a lexeme at an offset is, unless it is a blank or a comment. -/
def tokenAt? (entry : Nat × Lexeme) : Option Token := entry.2.piece?.map (⟨·, entry.1⟩)

theorem tokensFrom_eq (offset : Nat) (lexemes : List Lexeme) :
    tokensFrom offset lexemes = (placed offset lexemes).filterMap tokenAt? := by
  induction lexemes generalizing offset with
  | nil => rfl
  | cons lexeme rest ih =>
    obtain ⟨shape, chars⟩ := lexeme
    cases shape with
    | token kind => exact congrArg (⟨⟨kind, String.ofList chars⟩, offset⟩ :: ·) (ih _)
    | blank | comment => exact ih _

theorem pieces_tokensFrom (offset : Nat) (lexemes : List Lexeme) :
    pieces (tokensFrom offset lexemes) = lexemes.filterMap piece? := by
  induction lexemes generalizing offset with
  | nil => rfl
  | cons lexeme rest ih =>
    obtain ⟨shape, chars⟩ := lexeme
    cases shape with
    | token kind => exact congrArg (⟨kind, String.ofList chars⟩ :: ·) (ih _)
    | blank | comment => exact ih _

theorem exists_of_mem_tokensFrom {offset : Nat} {lexemes : List Lexeme} {t : Token}
    (h : t ∈ tokensFrom offset lexemes) : ∃ lexeme ∈ lexemes, lexeme.piece? = some t.toPiece := by
  have hpiece : t.toPiece ∈ pieces (tokensFrom offset lexemes) := mem_map_of_mem h
  rw [pieces_tokensFrom] at hpiece
  exact mem_filterMap.1 hpiece

theorem shape_of_piece? {p : Piece} (h : lexeme.piece? = some p) :
    lexeme.shape = .token p.kind := by
  obtain ⟨shape, chars⟩ := lexeme
  cases shape <;> cases h
  rfl

end Lexeme

/-- The text is cut into these pieces, and nothing is left open at its end. -/
def Reads (cs : List Char) (ps : List Piece) : Prop :=
  (lex cs).unfinished = none ∧ (lex cs).lexemes.filterMap piece? = ps

theorem ofSource_eq_ok (h : (lex source.toList).unfinished = none) :
    Token.ofSource source = .ok (lex source.toList).tokens := by
  simp [Token.ofSource, Lexing.fault, h]

theorem unfinished_of_ofSource {ts : List Token} (h : Token.ofSource source = .ok ts) :
    (lex source.toList).unfinished = none ∧ (lex source.toList).tokens = ts := by
  simp only [Token.ofSource, Lexing.fault] at h
  cases hunfinished : (lex source.toList).unfinished with
  | some unfinished => simp [hunfinished] at h
  | none => simpa [hunfinished] using h

theorem reads_iff_ofSource :
    Reads source.toList ps ↔ ∃ ts, Token.ofSource source = .ok ts ∧ pieces ts = ps := by
  simp only [Reads, Token.ofSource, Lexing.fault, Lexing.tokens]
  cases hunfinished : (lex source.toList).unfinished with
  | none => simp [pieces_tokensFrom]
  | some unfinished => simp

@[simp] theorem reads_nil_iff : Reads [] ps ↔ ps = [] := by
  simp [Reads, eq_comm]

theorem not_reads_of_error (h : munch c cs = .error fault) : ¬Reads (c :: cs) ps := by
  simp [Reads, lex_cons_error h]

theorem reads_cons_iff (h : munch c cs = .ok step) :
    Reads (c :: cs) ps ↔ ∃ qs, Reads step.rest qs ∧ ps = step.lexeme.piece?.toList ++ qs := by
  have hpieces : ∀ lexemes, (step.lexeme :: lexemes).filterMap piece? =
      step.lexeme.piece?.toList ++ lexemes.filterMap piece? := by
    intro lexemes
    cases hpiece : step.lexeme.piece? <;> simp [hpiece]
  rw [Reads, lex_cons_ok h, hpieces]
  constructor
  · rintro ⟨hunfinished, rfl⟩
    exact ⟨_, ⟨hunfinished, rfl⟩, rfl⟩
  · rintro ⟨qs, ⟨hunfinished, rfl⟩, rfl⟩
    exact ⟨hunfinished, rfl⟩

/-- A step of the reading of a text: there is a first lexeme, and the rest is read on. -/
theorem Reads.exists_munch (h : Reads (c :: cs) ps) : ∃ step, munch c cs = .ok step := by
  cases hmunch : munch c cs with
  | error fault => exact absurd h (not_reads_of_error hmunch)
  | ok step => exact ⟨step, rfl⟩

theorem reads_token_iff (h : Scan.Munches kind c xs rest) :
    Reads (c :: xs ++ rest) ps ↔
      ∃ qs, Reads rest qs ∧ ps = ⟨kind, String.ofList (c :: xs)⟩ :: qs :=
  reads_cons_iff h

theorem munch_blank (h : isAsciiBlank c) :
    munch c cs = .ok (cut .blank
      (c :: cs.takeWhile isAsciiBlank, cs.dropWhile isAsciiBlank)) := by
  have hstart : start c cs = .blank := by rw [start, if_pos h]
  rw [munch, hstart]

theorem isAsciiBlank_of_munches (h : Scan.Munches kind c xs rest) : isAsciiBlank c = false := by
  rw [← Bool.not_eq_true]
  intro hblank
  rw [Scan.Munches, munch_blank hblank] at h
  cases h

/-! ### Lexemes with their offsets -/

/-- The text, which stands at `offset`, is cut into these lexemes and blanks, and nothing is left
open at its end. -/
def Yields (offset : Nat) (cs : List Char) (placed : List (Nat × Lexeme)) : Prop :=
  (lex cs).unfinished = none ∧ Lexeme.placed offset (lex cs).lexemes = placed

theorem reads_iff_yields (offset : Nat) :
    Reads cs ps ↔
      ∃ placed, Yields offset cs placed ∧ pieces (placed.filterMap Lexeme.tokenAt?) = ps := by
  rw [Reads, ← Lexeme.pieces_tokensFrom offset, Lexeme.tokensFrom_eq]
  constructor
  · rintro ⟨hunfinished, hpieces⟩
    exact ⟨_, ⟨hunfinished, rfl⟩, hpieces⟩
  · rintro ⟨_, ⟨hunfinished, rfl⟩, hpieces⟩
    exact ⟨hunfinished, hpieces⟩

variable {offset : Nat} {placed : List (Nat × Lexeme)}

theorem yields_cons_iff (h : munch c cs = .ok step) :
    Yields offset (c :: cs) placed ↔
      ∃ later, Yields (offset + Text.byteLength step.lexeme.chars) step.rest later ∧
        placed = Lexeme.placed offset [step.lexeme] ++ later := by
  have hplaced : ∀ lexemes, Lexeme.placed offset (step.lexeme :: lexemes) =
      Lexeme.placed offset [step.lexeme] ++
        Lexeme.placed (offset + Text.byteLength step.lexeme.chars) lexemes := by
    intro lexemes
    simp only [Lexeme.placed]
    split <;> rfl
  rw [Yields, lex_cons_ok h, hplaced]
  constructor
  · rintro ⟨hunfinished, rfl⟩
    exact ⟨_, ⟨hunfinished, rfl⟩, rfl⟩
  · rintro ⟨_, ⟨hunfinished, rfl⟩, rfl⟩
    exact ⟨hunfinished, rfl⟩

theorem lex_blank (h : Text.isAsciiBlank c) (cs : List Char) :
    (lex (c :: cs)).unfinished = (lex cs).unfinished ∧
      ∀ offset, Lexeme.placed offset (lex (c :: cs)).lexemes =
        Lexeme.placed (offset + c.utf8Size) (lex cs).lexemes := by
  have hrun : ∀ {c : Char} (cs : List Char), Text.isAsciiBlank c →
      (lex (c :: cs)).unfinished = (lex (cs.dropWhile Text.isAsciiBlank)).unfinished ∧
        ∀ offset, placed offset (lex (c :: cs)).lexemes =
          placed (offset + Text.byteLength (c :: cs.takeWhile Text.isAsciiBlank))
            (lex (cs.dropWhile Text.isAsciiBlank)).lexemes := by
    intro c cs h
    rw [lex_cons_ok (munch_blank h)]
    exact ⟨rfl, fun offset => rfl⟩
  rw [(hrun cs h).1]
  simp only [(hrun cs h).2, Text.byteLength_cons, ← Nat.add_assoc]
  cases cs with
  | nil => exact ⟨rfl, fun offset => rfl⟩
  | cons d cs =>
    rw [dropWhile_cons, takeWhile_cons]
    split
    · rename_i hd
      exact ⟨(hrun cs hd).1.symm, fun offset => ((hrun cs hd).2 _).symm⟩
    · exact ⟨rfl, fun offset => rfl⟩

/-- Blanks before a text move what is in it and change nothing else. -/
theorem lex_blanks (h : blanks.all isAsciiBlank) (cs : List Char) :
    (lex (blanks ++ cs)).unfinished = (lex cs).unfinished ∧
      ∀ offset, Lexeme.placed offset (lex (blanks ++ cs)).lexemes =
        Lexeme.placed (offset + byteLength blanks) (lex cs).lexemes := by
  induction blanks with
  | nil => exact ⟨rfl, fun offset => rfl⟩
  | cons b blanks ih =>
    rw [all_cons, Bool.and_eq_true] at h
    obtain ⟨hunfinished, hplaced⟩ := lex_blank h.1 (blanks ++ cs)
    refine ⟨hunfinished.trans (ih h.2).1, fun offset => ?_⟩
    rw [cons_append, hplaced, (ih h.2).2, byteLength_cons, Nat.add_assoc]

theorem yields_blanks_iff (h : blanks.all isAsciiBlank) :
    Yields offset (blanks ++ cs) placed ↔ Yields (offset + byteLength blanks) cs placed := by
  rw [Yields, Yields, (lex_blanks h cs).1, (lex_blanks h cs).2]

/-- Blanks before a text do not change its pieces. -/
theorem reads_blanks_iff (h : blanks.all isAsciiBlank) : Reads (blanks ++ cs) ps ↔ Reads cs ps := by
  rw [reads_iff_yields 0, reads_iff_yields (0 + byteLength blanks)]
  simp only [yields_blanks_iff h]

/-! ### Lexemes by shape -/

theorem munches_of_token {step : Cut} {kind : Kind} (h : munch c cs = .ok step)
    (hshape : step.lexeme.shape = .token kind) :
    ∃ xs, cs = xs ++ step.rest ∧ step.lexeme = ⟨.token kind, c :: xs⟩ ∧
      Scan.Munches kind c xs step.rest := by
  obtain ⟨⟨shape, chars⟩, rest⟩ := step
  obtain ⟨xs, rfl, rfl⟩ := munch_taken h
  cases hshape
  exact ⟨xs, rfl, rfl, h⟩

/-- What starts a text that a blank is cut from, or a comment. -/
theorem start_of_shape (h : munch c cs = .ok step) :
    (step.lexeme.shape = .blank → isAsciiBlank c) ∧
      (step.lexeme.shape = .comment →
        start c cs = .lineComment ∨ start c cs = .blockComment) := by
  have hclass := start_mem_classes h
  refine ⟨fun hshape => ?_, fun hshape => ?_⟩
  · rw [hshape] at hclass
    have hknown := announces_start c cs
    rwa [mem_singleton.1 hclass] at hknown
  · simpa [hshape, classes] using hclass

theorem isAsciiBlank_of_munch_blank (h : munch c cs = .ok step)
    (hshape : step.lexeme.shape = .blank) : step.lexeme.chars.all isAsciiBlank := by
  have hblank := (start_of_shape h).1 hshape
  rw [munch_blank hblank] at h
  cases h
  simp [cut, hblank]

/-- A comment runs from two dashes to the end of the line, or from a slash and a star to the first
star and slash. -/
theorem munch_comment (h : munch c cs = .ok step) (hshape : step.lexeme.shape = .comment) :
    (∃ body, step.lexeme.chars = '-' :: '-' :: body ∧ body.all (· != '\n') ∧
        startsWith (· != '\n') step.rest = false) ∨
      ∃ body, step.lexeme.chars = '/' :: '*' :: body ∧ closesPair '*' '/' body := by
  have hknown := announces_start c cs
  unfold munch at h
  rcases (start_of_shape h).2 hshape with hstart | hstart
  · rw [hstart] at hknown h
    obtain ⟨rfl, hhead⟩ : c = '-' ∧ cs.head? = some '-' := hknown
    cases cs with
    | nil => cases hhead
    | cons d cs =>
      cases hhead
      cases h
      exact .inl ⟨cs.takeWhile (· != '\n'), rfl, all_takeWhile,
        startsWith_dropWhile (· != '\n') ('-' :: cs)⟩
  · rw [hstart] at hknown h
    obtain ⟨rfl, hhead⟩ : c = '/' ∧ cs.head? = some '*' := hknown
    cases cs with
    | nil => cases hhead
    | cons d cs =>
      cases hhead
      obtain ⟨⟨shape, chars⟩, rest⟩ := step
      obtain ⟨_, inner, hinner, rfl⟩ := closed_iff.1 h
      exact .inr ⟨inner, rfl, (throughPair_iff.1 hinner).2⟩

theorem munch_lineComment (hbody : body.all (· != '\n'))
    (hrest : startsWith (· != '\n') rest = false) :
    munch '-' ('-' :: body ++ rest) = .ok ⟨⟨.comment, '-' :: '-' :: body⟩, rest⟩ := by
  obtain ⟨htake, hdrop⟩ := takeWhile_iff.2 ⟨rfl, hbody, hrest⟩
  have hstart : start '-' ('-' :: body ++ rest) = .lineComment := rfl
  rw [munch, hstart]
  simp [cut, htake, hdrop]

theorem munch_blockComment (hbody : closesPair '*' '/' body) (rest : List Char) :
    munch '/' ('*' :: body ++ rest) = .ok ⟨⟨.comment, '/' :: '*' :: body⟩, rest⟩ := by
  have hthrough : throughPair '*' '/' (body ++ rest) = some (body, rest) :=
    throughPair_iff.2 ⟨rfl, hbody⟩
  have hstart : start '/' ('*' :: body ++ rest) = .blockComment := rfl
  rw [munch, hstart]
  simp [closed, cut, Scan.after, hthrough]

/-! ### Texts that end earlier -/

/-- The second text is the first one up to a place where it ends or has a blank. -/
inductive Cleared : List Char → List Char → Prop
  | done (cs : List Char) : Cleared cs []
  | blank {b : Char} (hb : isAsciiBlank b) (cs cs' : List Char) : Cleared cs (b :: cs')
  | cons (c : Char) {cs cs' : List Char} (h : Cleared cs cs') : Cleared (c :: cs) (c :: cs')

theorem Cleared.append (front : List Char) (h : Cleared cs cs') :
    Cleared (front ++ cs) (front ++ cs') := by
  induction front with
  | nil => exact h
  | cons c front ih => exact .cons c ih

theorem Cleared.startsWith (h : Cleared cs cs') (hp : ∀ b, isAsciiBlank b → p b = false)
    (hstarts : startsWith p cs') : startsWith p cs := by
  cases h with
  | done => cases hstarts
  | blank hb =>
    rw [startsWith_cons, hp _ hb] at hstarts
    cases hstarts
  | cons c h => exact hstarts

theorem isAsciiBlank_cases (h : isAsciiBlank c) :
    c = ' ' ∨ c = '\t' ∨ c = '\n' ∨ c = '\x0c' ∨ c = '\r' := by
  simpa [isAsciiBlank, or_assoc] using h

/-- What fails at each of the five blanks fails at all blanks. -/
theorem forall_blank
    (h : p ' ' = false ∧ p '\t' = false ∧ p '\n' = false ∧ p '\x0c' = false ∧ p '\r' = false) :
    ∀ b, isAsciiBlank b → p b = false := by
  intro b hb
  obtain ⟨hspace, htab, hline, hform, hreturn⟩ := h
  rcases isAsciiBlank_cases hb with rfl | rfl | rfl | rfl | rfl
  · exact hspace
  · exact htab
  · exact hline
  · exact hform
  · exact hreturn

namespace Cleared

variable {cs' : List Char} (h : Cleared cs cs')

include h

theorem digit (hstarts : Scan.startsWith Char.isDigit cs') : Scan.startsWith Char.isDigit cs :=
  h.startsWith (forall_blank (by decide)) hstarts

theorem extendsBind (hextends : Scan.extendsBind cs') : Scan.extendsBind cs := by
  cases h with
  | done => cases hextends
  | blank hb =>
    rcases isAsciiBlank_cases hb with rfl | rfl | rfl | rfl | rfl <;> cases hextends
  | cons c h =>
    simp only [extendsBind, Bool.or_eq_true, Bool.and_eq_true] at hextends ⊢
    exact hextends.imp id (And.imp id (h.startsWith (forall_blank (by decide))))

theorem startsFraction (hstarts : Scan.startsFraction cs') : startsFraction cs := by
  cases h with
  | done => cases hstarts
  | blank hb =>
    rcases isAsciiBlank_cases hb with rfl | rfl | rfl | rfl | rfl <;> cases hstarts
  | cons c h =>
    simp only [startsFraction, Bool.and_eq_true] at hstarts ⊢
    exact hstarts.imp id h.digit

theorem startsExponent (hstarts : Scan.startsExponent cs') : startsExponent cs := by
  cases h with
  | done => cases hstarts
  | blank hb =>
    rcases isAsciiBlank_cases hb with rfl | rfl | rfl | rfl | rfl <;> cases hstarts
  | cons c h =>
    simp only [startsExponent, Bool.and_eq_true, Bool.or_eq_true] at hstarts ⊢
    refine ⟨hstarts.1, hstarts.2.imp h.digit fun hsigned => ?_⟩
    obtain ⟨hsign, hdigit⟩ := hsigned
    cases h with
    | done => cases hsign
    | blank hb =>
      rcases isAsciiBlank_cases hb with rfl | rfl | rfl | rfl | rfl <;> cases hsign
    | cons d h => exact ⟨hsign, h.digit hdigit⟩

/-- An apostrophe at the end of the first text opens no alternative quotation, so it must not be
followed by a blank in the second one. -/
theorem opensLiteral (hlone : cs = ['\''] → cs'.length ≤ 1)
    (hopens : opensLiteral c cs') : opensLiteral c cs := by
  cases h with
  | done => simp [opensLiteral, opensAlternative] at hopens
  | blank hb =>
    rcases isAsciiBlank_cases hb with rfl | rfl | rfl | rfl | rfl <;>
      simp [opensLiteral, opensAlternative] at hopens
  | @cons d cs cs' h =>
    simp only [opensLiteral, opensAlternative, Bool.or_eq_true, Bool.and_eq_true, head?_cons,
      length_cons, decide_eq_true_eq, beq_iff_eq, Option.some.injEq]
      at hopens ⊢
    refine hopens.imp (fun hopens => ⟨hopens.1, ?_⟩) id
    cases cs with
    | nil =>
      have hle := hlone (by rw [hopens.1.2])
      rw [length_cons] at hle
      omega
    | cons e cs => simp

theorem runsInto {text : List Char} (hlone : cs = ['\''] → cs'.length ≤ 1)
    (hruns : Scan.runsInto kind text cs') : Scan.runsInto kind text cs := by
  have hword : Scan.extendsWord text cs' → Scan.extendsWord text cs := by
    simp only [Scan.extendsWord, Bool.or_eq_true]
    refine Or.imp (h.startsWith (forall_blank (by decide))) fun hliteral => ?_
    split at hliteral
    · exact h.opensLiteral hlone hliteral
    · cases hliteral
  cases kind with
  | stringLiteral =>
    simp only [Scan.runsInto, Bool.and_eq_true] at hruns ⊢
    exact hruns.imp id (h.startsWith (forall_blank (by decide)))
  | identifier =>
    simp only [Scan.runsInto] at hruns ⊢
    split
    · rename_i hquoted
      rw [if_pos hquoted] at hruns
      exact h.startsWith (forall_blank (by decide)) hruns
    · rename_i hquoted
      rw [if_neg hquoted] at hruns
      exact hword hruns
  | keyword => exact hword hruns
  | numericLiteral =>
    simp only [Scan.runsInto, Scan.extendsNumber, Bool.or_eq_true, Bool.and_eq_true] at hruns ⊢
    exact hruns.imp h.digit
      (And.imp id (Or.imp h.startsExponent (And.imp id h.startsFraction)))
  | bindVariable => exact h.extendsBind hruns
  | punctuation =>
    simp only [Scan.runsInto, Bool.and_eq_true] at hruns ⊢
    exact hruns.imp id (h.startsWith (forall_blank (by decide)))
  | operator =>
    simp only [Scan.runsInto, Scan.extendsOperator] at hruns ⊢
    split at hruns
    · rename_i op
      refine h.startsWith (forall_blank ?_) hruns
      simp [Scan.joinsOperator, Scan.pairOperators, Scan.isNameStart]
    · cases hruns
  | trailing => exact hruns

end Cleared

/-- A token stays the same where the text after it is cleared. -/
theorem munches_of_cleared {rest' : List Char} (h : Scan.Munches kind c xs rest)
    (hcleared : Cleared rest rest') (hlone : rest = ['\''] → rest'.length ≤ 1) :
    Scan.Munches kind c xs rest' := by
  have hstops := (munches_iff_runsInto h).1 h
  refine (munches_iff_runsInto h).2 ?_
  rw [← Bool.not_eq_true] at hstops ⊢
  exact fun hruns => hstops (hcleared.runsInto hlone hruns)

/-- No text that is read through is an apostrophe alone. -/
theorem Reads.ne_apostrophe (h : Reads cs ps) : cs ≠ ['\''] := by
  rintro rfl
  have hmunch : munch '\'' [] = .error .string := rfl
  exact not_reads_of_error hmunch h

/-! ### Comments blanked out -/

/-- The text of lexemes with comments blanked out. -/
def cleared (cs : List Char) : List Char := (lex cs).lexemes.flatMap withoutComment

theorem cleared_cons (h : munch c cs = .ok step) :
    cleared (c :: cs) = step.lexeme.withoutComment ++ cleared step.rest := by
  rw [cleared, lex_cons_ok h, flatMap_cons]
  rfl

/-- The blanks in place of one character of a comment. -/
theorem blanks_of_char (c : Char) :
    ∃ b blanks, (if c = '\n' then ['\n'] else replicate c.utf8Size ' ') = b :: blanks ∧
      (b :: blanks).all isAsciiBlank := by
  split
  · exact ⟨'\n', [], rfl, rfl⟩
  · obtain ⟨n, hn⟩ := Nat.exists_eq_succ_of_ne_zero (Nat.ne_of_gt c.utf8Size_pos)
    refine ⟨' ', replicate n ' ', by rw [hn, replicate_succ], ?_⟩
    simp [isAsciiBlank]

theorem withoutComment_of_comment (h : lexeme.shape = .comment) (hne : lexeme.chars ≠ []) :
    ∃ b blanks, lexeme.withoutComment = b :: blanks ∧
      (b :: blanks).all isAsciiBlank := by
  obtain ⟨c, chars, hchars⟩ := exists_cons_of_ne_nil hne
  obtain ⟨b, blanks, hfirst, hblank⟩ := blanks_of_char c
  simp only [withoutComment, h, hchars, flatMap_cons, hfirst, cons_append]
  refine ⟨b, _, rfl, ?_⟩
  rw [← cons_append, all_append, hblank, Bool.true_and, all_eq_true]
  intro d hd
  obtain ⟨e, _, he⟩ := mem_flatMap.1 hd
  obtain ⟨b', blanks', hlater, hblank'⟩ := blanks_of_char e
  rw [hlater] at he
  exact all_eq_true.1 hblank' d he

theorem withoutComment_of_ne (h : lexeme.shape ≠ .comment) :
    lexeme.withoutComment = lexeme.chars := by
  unfold withoutComment
  split
  · exact absurd ‹_› h
  · rfl

/-- Blanking out comments clears a text. -/
theorem cleared_of_reads (h : Reads cs ps) : Cleared cs (cleared cs) := by
  induction cs using lex.induct generalizing ps with
  | case1 =>
    rw [cleared, lex_nil]
    exact .done []
  | case2 c cs fault hmunch => exact absurd h (not_reads_of_error hmunch)
  | case3 c cs step hmunch hlt ih =>
    obtain ⟨qs, hrest, _⟩ := (reads_cons_iff hmunch).1 h
    rw [cleared_cons hmunch]
    by_cases hshape : step.lexeme.shape = .comment
    · obtain ⟨b, blanks, hblanks, hall⟩ :=
        withoutComment_of_comment hshape (munch_taken_ne_nil hmunch)
      rw [all_cons, Bool.and_eq_true] at hall
      rw [hblanks]
      exact .blank hall.1 _ _
    · rw [withoutComment_of_ne hshape, ← munch_append hmunch]
      exact (ih hrest).append _

theorem byteLength_spaces (n : Nat) : byteLength (replicate n ' ') = n := by
  induction n with
  | zero => rfl
  | succ n ih =>
    rw [replicate_succ, byteLength_cons, ih]
    exact Nat.add_comm 1 n

/-- A comment keeps its length when it is blanked out. -/
theorem byteLength_withoutComment (lexeme : Lexeme) :
    byteLength lexeme.withoutComment = byteLength lexeme.chars := by
  unfold withoutComment
  split
  · induction lexeme.chars with
    | nil => rfl
    | cons c chars ih =>
      rw [flatMap_cons, byteLength_append, ih, byteLength_cons]
      split
      · rename_i hc
        rw [hc]
        rfl
      · rw [byteLength_spaces]
  · rfl

/-- Whether a lexeme is no comment. -/
def Lexeme.isNoComment (lexeme : Lexeme) : Bool := lexeme.shape != .comment

/-- Comments are no tokens. -/
theorem Lexeme.filterMap_tokenAt? (placed : List (Nat × Lexeme)) :
    (placed.filter fun entry => entry.2.isNoComment).filterMap tokenAt? =
      placed.filterMap tokenAt? := by
  have hcomment : ∀ entry : Nat × Lexeme,
      (if entry.2.isNoComment then tokenAt? entry else none) = tokenAt? entry := by
    intro entry
    cases hshape : entry.2.shape with
    | token | blank | comment => simp [isNoComment, tokenAt?, piece?, hshape]
  simp only [filterMap_filter, hcomment]

/-- With its comments blanked out, a text has the same lexemes at the same places, less the
comments. -/
theorem yields_cleared (h : Yields offset cs placed) :
    Yields offset (cleared cs) (placed.filter fun entry => entry.2.isNoComment) := by
  induction cs using lex.induct generalizing offset placed with
  | case1 =>
    obtain ⟨_, rfl⟩ := h
    rw [cleared, lex_nil]
    exact ⟨by rw [flatMap_nil, lex_nil], by simp [Lexeme.placed]⟩
  | case2 c cs fault hmunch => exact absurd ⟨h.1, rfl⟩ (not_reads_of_error hmunch)
  | case3 c cs step hmunch hlt ih =>
    obtain ⟨later, hrest, rfl⟩ := (yields_cons_iff hmunch).1 h
    have hlater := ih hrest
    rw [cleared_cons hmunch, filter_append]
    cases hshape : step.lexeme.shape with
    | token kind =>
      obtain ⟨xs, _, hlexeme, hmunches⟩ := munches_of_token hmunch hshape
      rw [withoutComment_of_ne (by rw [hshape]; exact Shape.noConfusion)]
      rw [hlexeme] at hlater ⊢
      have hreads : Reads step.rest _ := ⟨hrest.1, rfl⟩
      have hcleared := munches_of_cleared hmunches (cleared_of_reads hreads)
        fun hlone => absurd hlone hreads.ne_apostrophe
      exact (yields_cons_iff hcleared).2 ⟨_, hlater, rfl⟩
    | blank =>
      rw [withoutComment_of_ne (by rw [hshape]; exact Shape.noConfusion),
        yields_blanks_iff (isAsciiBlank_of_munch_blank hmunch hshape)]
      simpa [Lexeme.placed, hshape] using hlater
    | comment =>
      obtain ⟨b, blanks, hblanks, hall⟩ :=
        withoutComment_of_comment hshape (munch_taken_ne_nil hmunch)
      rw [← byteLength_withoutComment, hblanks] at hlater
      rw [hblanks, yields_blanks_iff hall]
      simpa [Lexeme.placed, Lexeme.isNoComment, hshape] using hlater

/-- With its comments blanked out, a text has the same pieces. -/
theorem reads_cleared (h : Reads cs ps) : Reads (cleared cs) ps := by
  obtain ⟨placed, hyields, rfl⟩ := (reads_iff_yields 0).1 h
  refine (reads_iff_yields 0).2 ⟨_, yields_cleared hyields, ?_⟩
  rw [filterMap_tokenAt?]

theorem blankComments_eq_ok (h : (lex source.toList).unfinished = none) :
    blankComments source = .ok (String.ofList (cleared source.toList)) := by
  simp [blankComments, Lexing.fault, h, cleared]

/-- Blanking out the comments of a source keeps its pieces. -/
theorem reads_blankComments {blanked : String} (h : blankComments source = .ok blanked) :
    ∃ ps, Reads source.toList ps ∧ Reads blanked.toList ps := by
  cases hunfinished : (lex source.toList).unfinished with
  | some unfinished => simp [blankComments, Lexing.fault, hunfinished] at h
  | none =>
    rw [blankComments_eq_ok hunfinished] at h
    cases h
    have hreads : Reads source.toList _ := ⟨hunfinished, rfl⟩
    refine ⟨_, hreads, ?_⟩
    rw [String.toList_ofList]
    exact reads_cleared hreads

/-! ### All lexemes of a text -/

/-- What holds of every lexeme that a step takes holds of all lexemes of a text. -/
theorem lex_forall {P : Lexeme → Prop} (h : ∀ {c cs step}, munch c cs = .ok step → P step.lexeme)
    (cs : List Char) : ∀ lexeme ∈ (lex cs).lexemes, P lexeme := by
  fun_induction lex cs with
  | case1 => simp
  | case2 => simp
  | case3 c cs step hmunch hlt later ih => exact forall_mem_cons.2 ⟨h hmunch, ih⟩

/-- The lexemes of a text and what is left open at its end make up the text. -/
theorem lex_append (cs : List Char) :
    (lex cs).lexemes.flatMap chars ++ ((lex cs).unfinished.map Prod.snd).getD [] = cs := by
  fun_induction lex cs with
  | case1 => rfl
  | case2 => rfl
  | case3 c cs step hmunch hlt later ih =>
    rw [flatMap_cons, append_assoc, ih, munch_append hmunch]

theorem Lexeme.byteLength_flatMap (lexemes : List Lexeme) :
    Text.byteLength (lexemes.flatMap chars) = byteLength lexemes := by
  induction lexemes with
  | nil => rfl
  | cons lexeme rest ih =>
    rw [flatMap_cons, byteLength_append, ih]
    rfl

end TriggerDialect
