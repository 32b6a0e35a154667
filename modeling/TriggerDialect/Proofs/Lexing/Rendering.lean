import TriggerDialect.Proofs.Lexing.Pieces
import TriggerDialect.Token.Spacing

/-!
# Reading a printed text

A text in canonical spacing is meant to be read as the pieces that were printed. It is so exactly if
no piece runs into what is printed after it (`reads_rendered_iff`). Where a space is left out this
can happen: a minus sign before another minus starts a comment, a dot takes digits or a second dot,
a bind variable takes a dot and a name, and a comparison takes half of `>>`. These are all the
cases (`Piece.clash`).
-/

namespace TriggerDialect

open List Scan Piece

variable {c : Char} {cs rest : List Char} {p q : Piece} {ps qs : List Piece} {ts : List Token}
  {xs : List Char}

/-! ### Pieces of some text -/

/-- A piece that is cut from some text. -/
def Piece.Scanned (p : Piece) : Prop :=
  ∃ c xs rest, p.text.toList = c :: xs ∧ Scan.Munches p.kind c xs rest

theorem scanned_of_mem_lexemes :
    ∀ lexeme ∈ (lex cs).lexemes, lexeme.piece? = some p → p.Scanned := by
  refine lex_forall (P := fun lexeme => lexeme.piece? = some p → p.Scanned) ?_ cs
  intro c cs step hmunch hp
  obtain ⟨xs, _, hlexeme, hmunches⟩ := munches_of_token hmunch (Lexeme.shape_of_piece? hp)
  rw [hlexeme] at hp
  have htext : String.ofList (c :: xs) = p.text := congrArg text (Option.some.inj hp)
  exact ⟨c, xs, step.rest, by rw [← htext, String.toList_ofList], hmunches⟩

theorem Reads.scanned (h : Reads cs ps) : ∀ p ∈ ps, p.Scanned := by
  obtain ⟨-, rfl⟩ := h
  intro p hp
  obtain ⟨lexeme, hlexeme, hp⟩ := mem_filterMap.1 hp
  exact scanned_of_mem_lexemes lexeme hlexeme hp

/-- The tokens stand side by side in some source. -/
def Lexed (ts : List Token) : Prop := ∃ source, ts <:+: (Token.recover source).1

theorem lexed_of_ofSource {source : String} (h : Token.ofSource source = .ok ts) : Lexed ts := by
  refine ⟨source, ?_⟩
  unfold Token.ofSource at h
  simp only at h
  split at h
  · cases h
  · cases h
    exact (prefix_append _ _).isInfix

theorem Lexed.scanned (h : Lexed ts) : ∀ t ∈ ts, t.kind ≠ .trailing → t.Scanned := by
  obtain ⟨source, hrun⟩ := h
  intro t ht hkind
  rcases mem_append.1 (hrun.subset ht) with hlexed | htrailing
  · obtain ⟨lexeme, hlexeme, hp⟩ := Lexeme.exists_of_mem_tokensFrom hlexed
    exact scanned_of_mem_lexemes lexeme hlexeme hp
  · unfold Lexing.trailing at htrailing
    split at htrailing
    · cases htrailing
    · cases mem_singleton.1 htrailing
      exact absurd rfl hkind

theorem Scan.colon_of_munches (h : Munches .bindVariable c xs rest) : c = ':' := by
  have hannounces := announces_start c (xs ++ rest)
  rw [mem_singleton.1 (start_mem_classes h)] at hannounces
  exact hannounces.1

/-- The bind variables of a source start with a colon. -/
theorem Lexed.binds (h : Lexed ts) :
    ∀ t ∈ ts, t.kind = .bindVariable → t.text.toList.head? = some ':' := by
  intro t ht hkind
  obtain ⟨c, xs, rest, htext, hmunches⟩ := h.scanned t ht (by rw [hkind]; decide)
  rw [hkind] at hmunches
  rw [htext, colon_of_munches hmunches]
  rfl

/-- The number of characters that are no blanks. -/
def ink (cs : List Char) : Nat := cs.countP fun c => !Text.isAsciiBlank c

theorem ink_append (cs ds : List Char) : ink (cs ++ ds) = ink cs + ink ds := countP_append

theorem ink_comment {step : Cut} (h : munch c cs = .ok step)
    (hshape : step.lexeme.shape = .comment) : 0 < ink step.lexeme.chars := by
  rcases munch_comment h hshape with ⟨body, hchars, _⟩ | ⟨body, hchars, _⟩
  · simp [ink, hchars, Text.isAsciiBlank]
  · simp [ink, hchars, Text.isAsciiBlank]

/-- What is read from a text is no more than what is in it. -/
theorem Reads.ink_le (h : Reads cs ps) : total (fun p => ink p.text.toList) ps ≤ ink cs := by
  induction cs using lex.induct generalizing ps with
  | case1 => simp [reads_nil_iff.1 h]
  | case2 c cs fault hmunch => exact absurd h (not_reads_of_error hmunch)
  | case3 c cs step hmunch hlt ih =>
    obtain ⟨qs, hrest, rfl⟩ := (reads_cons_iff hmunch).1 h
    have hlater := ih hrest
    have hfirst : total (fun p => ink p.text.toList) step.lexeme.piece?.toList ≤
        ink step.lexeme.chars := by
      unfold Lexeme.piece?
      cases step.lexeme.shape with
      | token kind => simp [Lexeme.text]
      | blank | comment => exact Nat.zero_le _
    rw [← munch_append hmunch, ink_append, total_append]
    omega

/-- A text that starts with a token and has nothing to spare is read as that token and more exactly
if the token does not run into the rest and the rest is read as what is left. -/
theorem reads_token_iff_runsInto {kind : Kind} {rest' : List Char}
    (hmunches : Scan.Munches kind c xs rest')
    (hink : ink rest ≤ total (fun p => ink p.text.toList) ps) :
    Reads (c :: xs ++ rest) (⟨kind, String.ofList (c :: xs)⟩ :: ps) ↔
      runsInto kind (c :: xs) rest = false ∧ Reads rest ps := by
  constructor
  · intro h
    rw [cons_append] at h
    obtain ⟨step, hmunch⟩ := h.exists_munch
    obtain ⟨qs, hrest, hqs⟩ := (reads_cons_iff hmunch).1 h
    cases hshape : step.lexeme.shape with
    | token kind' =>
      obtain ⟨ys, happend, hlexeme, htoken⟩ := munches_of_token hmunch hshape
      simp only [Lexeme.piece?, hlexeme, Lexeme.text, Option.toList_some, singleton_append,
        cons.injEq, mk.injEq, String.ofList_inj, true_and] at hqs
      obtain ⟨⟨rfl, rfl⟩, rfl⟩ := hqs
      rw [append_cancel_left_eq] at happend
      rw [← happend] at hrest htoken
      exact ⟨(munches_iff_runsInto hmunches).1 htoken, hrest⟩
    | blank =>
      have hblank := (start_of_shape hmunch).1 hshape
      rw [isAsciiBlank_of_munches hmunches] at hblank
      cases hblank
    | comment =>
      -- the comment has taken characters that are needed for the pieces
      simp only [Lexeme.piece?, hshape, Option.toList_none, nil_append] at hqs
      subst hqs
      have hleft := hrest.ink_le
      have hcomment := ink_comment hmunch hshape
      have hwhole := congrArg ink (munch_append hmunch)
      rw [← cons_append, ink_append, ink_append] at hwhole
      rw [total_cons, String.toList_ofList] at hleft
      omega
  · rintro ⟨hruns, hrest⟩
    exact (reads_token_iff ((munches_iff_runsInto hmunches).2 hruns)).2 ⟨ps, hrest, rfl⟩

/-! ### Reading what was printed -/

namespace Piece

/-- No piece runs into what is printed after it, where `before` is printed before the pieces. -/
def Separate (before : Option Piece) : List Piece → Prop
  | [] => True
  | p :: ps =>
    runsInto p.kind p.text.toList (renderAfter before p ps) = false ∧ Separate (some p) ps

theorem ink_renderAfter (before : Option Piece) (p : Piece) (ps : List Piece) :
    ink (renderAfter before p ps) = total (fun p => ink p.text.toList) ps := by
  induction ps generalizing before p with
  | nil => rfl
  | cons q ps ih =>
    have hgap : ink (if spaced before p q then [' '] else []) = 0 := by split <;> rfl
    rw [renderAfter, ink_append, ink_append, hgap, ih, total_cons, Nat.zero_add]

theorem reads_renderAfter_iff (before : Option Piece) (p q : Piece) (ps : List Piece) :
    Reads (renderAfter before p (q :: ps)) qs ↔
      Reads (q.text.toList ++ renderAfter (some p) q ps) qs := by
  rw [renderAfter, append_assoc]
  exact reads_blanks_iff (by split <;> rfl)

/-- A first piece is read back together with those printed after it exactly if it does not run into
them and they are read back. -/
theorem reads_first_iff (hp : p.Scanned) (before : Option Piece) (ps : List Piece) :
    Reads (p.text.toList ++ renderAfter before p ps) (p :: ps) ↔
      runsInto p.kind p.text.toList (renderAfter before p ps) = false ∧
        Reads (renderAfter before p ps) ps := by
  obtain ⟨c, xs, rest, htext, hmunches⟩ := hp
  have hiff := reads_token_iff_runsInto hmunches (Nat.le_of_eq (ink_renderAfter before p ps))
  rwa [← htext, String.ofList_toList] at hiff

/-- Printed pieces are read back exactly if none of them runs into what is printed after it. -/
theorem reads_rendered_iff (before : Option Piece) (h : ∀ q ∈ p :: ps, q.Scanned) :
    Reads (p.text.toList ++ renderAfter before p ps) (p :: ps) ↔ Separate before (p :: ps) := by
  induction ps generalizing before p with
  | nil =>
    rw [reads_first_iff (h p mem_cons_self)]
    simp [Separate, renderAfter]
  | cons q ps ih =>
    rw [reads_first_iff (h p mem_cons_self), reads_renderAfter_iff,
      ih (some p) fun r hr => h r (mem_cons_of_mem p hr)]
    rfl

/-! ### Clashes -/

/-- Whether `p` runs into `q` and the `next` piece when they are printed after it: a dot into digits
or a dot, a bind variable into a dot and a name, a comparison into `>>`, and a minus sign into a
minus. -/
def clash (before : Option Piece) (p q : Piece) (next : Option Piece) : Bool :=
  (p.isPunct '.' && startsWith (fun c => c.isDigit || c == '.') q.text.toList) ||
  (p.kind == .bindVariable && q.isPunct '.' &&
    next.any fun r => startsWith isNameStart r.text.toList) ||
  ((p.isOp "<" || p.isOp ">" || p.isOp "=") && q.isOp ">>") ||
  (isSign before p && p.text == "-" && q.isOp "-")

/-- Whether there is a clash among pieces with `before` before them. -/
def clashes (before : Option Piece) : List Piece → Bool
  | p :: q :: ps => clash before p q ps.head? || clashes (some p) (q :: ps)
  | _ => false

variable {before : Option Piece}

theorem renderAfter_of_spaced (h : spaced before p q) (ps : List Piece) :
    renderAfter before p (q :: ps) = ' ' :: (q.text.toList ++ renderAfter (some p) q ps) := by
  simp [renderAfter, h]

theorem renderAfter_of_not_spaced (h : spaced before p q = false) (ps : List Piece) :
    renderAfter before p (q :: ps) = q.text.toList ++ renderAfter (some p) q ps := by
  simp [renderAfter, h]

theorem Scanned.startsWith_append (h : p.Scanned) (test : Char → Bool) (rest : List Char) :
    startsWith test (p.text.toList ++ rest) = startsWith test p.text.toList := by
  obtain ⟨c, xs, _, htext, _⟩ := h
  rw [htext]
  rfl

theorem isPunct_iff {mark : Char} :
    p.isPunct mark ↔ p.kind = .punctuation ∧ p.text = mark.toString := by
  rw [isPunct, Bool.and_eq_true, beq_iff_eq, beq_iff_eq]

theorem isOp_iff {op : String} : p.isOp op ↔ p.kind = .operator ∧ p.text = op := by
  rw [isOp, Bool.and_eq_true, beq_iff_eq, beq_iff_eq]

theorem spaced_of_point_left (h : p.isPunct '.') : spaced before p q = false := by
  obtain ⟨hkind, htext⟩ := isPunct_iff.1 h
  simp [spaced, attachesRight, hkind, htext]

theorem spaced_of_point_right (h : q.isPunct '.') : spaced before p q = false := by
  obtain ⟨hkind, htext⟩ := isPunct_iff.1 h
  simp [spaced, attachesLeft, hkind, htext]

/-- What is printed after a dot starts as its first piece does. -/
theorem startsWith_renderAfter_point (hq : q.isPunct '.') (h : ∀ r ∈ ps, r.Scanned)
    (test : Char → Bool) :
    startsWith test (renderAfter before q ps) =
      ps.head?.any fun r => startsWith test r.text.toList := by
  cases ps with
  | nil => rfl
  | cons r ps =>
    rw [renderAfter_of_not_spaced (spaced_of_point_left hq), (h r mem_cons_self).startsWith_append]
    rfl

/-- Where a space is left out after a name or a literal, a mark or a binding operator follows. -/
theorem text_of_not_spaced (h : spaced before p q = false) (hop : p.kind ≠ .operator)
    (hmark : p.kind ≠ .punctuation) :
    q.isPunct '.' ∨ q.text ∈ ["..", ",", ")", ";", "%", ">>", "@", "("] := by
  simp only [spaced, attachesLeft, attachesRight, bindsRight, bindsLeft, opensArguments, isSign,
    beq_eq_false_iff_ne.2 hop, beq_eq_false_iff_ne.2 hmark, Bool.false_and, Bool.or_false,
    Bool.not_eq_false', Bool.or_eq_true, Bool.and_eq_true, beq_iff_eq] at h
  have hpoint : '.'.toString = "." := rfl
  simp only [isPunct_iff, hpoint, mem_cons]
  grind

end Piece

/-! ### Where tokens end -/

namespace Scan

variable {kind : Kind} {text : List Char} {mark : String}

/-- A character with which a name, a number, a string or a quoted name can go on. -/
def continuesText (d : Char) : Bool := isNamePart d || d == '\'' || d == '"'

/-- Before any other character, only operators, dots, bind variables and numbers may not end. -/
theorem runsInto_of_not_continuesText (hrest : startsWith continuesText rest = false)
    (h : runsInto kind text rest) :
    (kind = .operator ∧ extendsOperator text rest) ∨
      ∃ rest', rest = '.' :: rest' ∧
        ((kind = .punctuation ∧ text = ['.']) ∨
          (kind = .bindVariable ∧ startsWith isNameStart rest') ∨
          (kind = .numericLiteral ∧ startsWith Char.isDigit rest')) := by
  cases rest with
  | nil =>
    have hword : extendsWord text [] = false := by
      simp only [extendsWord, opensLiteral, opensAlternative, startsWith_nil]
      split <;> simp
    cases kind with
    | operator => exact .inl ⟨rfl, h⟩
    | identifier | keyword => simp [runsInto, hword] at h
    | stringLiteral | numericLiteral | bindVariable | punctuation | trailing =>
      simp [runsInto, extendsNumber, extendsBind, startsExponent, startsFraction] at h
  | cons d rest =>
    simp only [startsWith_cons, continuesText, Bool.or_eq_false_iff, beq_eq_false_iff_ne] at hrest
    obtain ⟨⟨hname, hquote⟩, hdouble⟩ := hrest
    have hdigit : d.isDigit = false := by
      simp only [isNamePart, Char.isAlphanum, Bool.or_eq_false_iff] at hname
      exact hname.1.1.1.1.2
    have hmark : isExponentMark d = false := by
      rw [isExponentMark, Bool.or_eq_false_iff, beq_eq_false_iff_ne, beq_eq_false_iff_ne]
      constructor
      all_goals
        rintro rfl
        exact absurd hname (by decide)
    have hword : extendsWord text (d :: rest) = false := by
      simp only [extendsWord, opensLiteral, opensAlternative, startsWith_cons, hname]
      split <;> simp [hquote]
    cases kind with
    | operator => exact .inl ⟨rfl, h⟩
    | identifier | keyword => simp [runsInto, hword, hdouble] at h
    | stringLiteral => simp [runsInto, hquote] at h
    | trailing => cases h
    | numericLiteral =>
      simp only [runsInto, extendsNumber, startsExponent, startsFraction, startsWith_cons, hdigit,
        hmark, Bool.false_and, Bool.false_or, Bool.and_eq_true, beq_iff_eq] at h
      exact .inr ⟨rest, by rw [h.2.2.1], .inr (.inr ⟨rfl, h.2.2.2⟩)⟩
    | bindVariable =>
      simp only [runsInto, extendsBind, hname, Bool.false_or, Bool.and_eq_true, beq_iff_eq] at h
      exact .inr ⟨rest, by rw [h.1], .inr (.inl ⟨rfl, h.2⟩)⟩
    | punctuation =>
      simp only [runsInto, startsWith_cons, hdigit, Bool.false_or, Bool.and_eq_true,
        beq_iff_eq] at h
      exact .inr ⟨rest, by rw [h.2], .inl ⟨rfl, h.1⟩⟩

theorem runsInto_nil (kind : Kind) (text : List Char) : runsInto kind text [] = false := by
  rw [← Bool.not_eq_true]
  intro h
  rcases runsInto_of_not_continuesText rfl h with ⟨_, hoperator⟩ | ⟨_, hrest, _⟩
  · unfold extendsOperator at hoperator
    split at hoperator <;> cases hoperator
  · cases hrest

theorem runsInto_space (kind : Kind) (text rest : List Char) :
    runsInto kind text (' ' :: rest) = false := by
  rw [← Bool.not_eq_true]
  intro h
  rcases runsInto_of_not_continuesText rfl h with ⟨rfl, hoperator⟩ | ⟨rest', hrest, _⟩
  · unfold extendsOperator at hoperator
    split at hoperator
    · simp only [startsWith_cons, joinsOperator, pairOperators] at hoperator
      simp [isNameStart] at hoperator
    · cases hoperator
  · cases hrest

/-- Names and literals end before marks and operators, a single dot apart. -/
theorem runsInto_mark (hmark : mark ∈ ["..", ",", ")", ";", "%", ">>", "@", "("])
    (hop : kind ≠ .operator) (hpunct : kind ≠ .punctuation) :
    runsInto kind text (mark.toList ++ rest) = false := by
  simp only [mem_cons, not_mem_nil, or_false] at hmark
  have hcontinues : startsWith continuesText (mark.toList ++ rest) = false := by
    rcases hmark with rfl | rfl | rfl | rfl | rfl | rfl | rfl | rfl <;> rfl
  -- only two dots start with a dot, and the second one starts no name and no number
  have hpoint : ∀ rest', mark.toList ++ rest = '.' :: rest' →
      startsWith (· == '.') rest' := by
    rcases hmark with rfl | rfl | rfl | rfl | rfl | rfl | rfl | rfl
    all_goals
      rintro rest' ⟨⟩
    rfl
  rw [← Bool.not_eq_true]
  intro h
  rcases runsInto_of_not_continuesText hcontinues h with ⟨hkind, _⟩ | ⟨rest', hrest, hafter⟩
  · exact hop hkind
  · have hdot := hpoint rest' hrest
    cases rest' with
    | nil => cases hdot
    | cons d rest' =>
      obtain rfl : d = '.' := by simpa using hdot
      rcases hafter with ⟨hkind, _⟩ | ⟨_, hname⟩ | ⟨_, hdigit⟩
      · exact hpunct hkind
      · cases hname
      · cases hdigit

/-- A single dot is no operator. -/
theorem not_munches_point : ¬Munches .operator '.' [] rest := by
  intro h
  have hstart := start_of_munches_operator h
  have hknown := announces_start '.' ([] ++ rest)
  rw [hstart] at hknown
  cases rest with
  | nil => cases (hknown.2 rfl).2
  | cons d rest =>
    cases (hknown.2 rfl).2
    cases h

theorem extendsOperator_attached {op : String} (hop : op ∈ ["%", "..", "<<", "@", "+"]) :
    extendsOperator op.toList rest = false := by
  simp only [mem_cons, not_mem_nil, or_false] at hop
  have hsingle : ∀ c ∈ ['%', '@', '+'], startsWith (joinsOperator c) rest = false := by
    intro c hc
    cases rest with
    | nil => rfl
    | cons d rest =>
      simp only [mem_cons, not_mem_nil, or_false] at hc
      rcases hc with rfl | rfl | rfl <;> simp [joinsOperator, pairOperators]
  rcases hop with rfl | rfl | rfl | rfl | rfl
  · exact hsingle '%' (by simp)
  · rfl
  · rfl
  · exact hsingle '@' (by simp)
  · exact hsingle '+' (by simp)

theorem extendsOperator_mark (htext : text ≠ ['.'])
    (hmark : mark ∈ [",", ")", ";", ".", "%", "..", "@"]) :
    extendsOperator text (mark.toList ++ rest) = false := by
  unfold extendsOperator
  split
  · rename_i c
    have hpoint : c ≠ '.' := fun hc => htext (by rw [hc])
    have hjoins : ∀ d ∈ [',', ')', ';', '.', '%', '@'], joinsOperator c d = false := by
      intro d hd
      simp only [mem_cons, not_mem_nil, or_false] at hd
      rcases hd with rfl | rfl | rfl | rfl | rfl | rfl <;>
        simp [joinsOperator, pairOperators, isNameStart, hpoint]
    simp only [mem_cons, not_mem_nil, or_false] at hmark
    rcases hmark with rfl | rfl | rfl | rfl | rfl | rfl | rfl <;> exact hjoins _ (by decide)
  · rfl

theorem extendsOperator_shift (h : extendsOperator text (">>".toList ++ rest)) :
    text = "<".toList ∨ text = ">".toList ∨ text = "=".toList := by
  unfold extendsOperator at h
  split at h
  · rename_i c
    have hjoins : joinsOperator c '>' := h
    have hc : c = '=' ∨ c = '<' ∨ c = '>' := by
      simpa [joinsOperator, pairOperators, isNameStart] using hjoins
    rcases hc with rfl | rfl | rfl <;> simp
  · cases h

/-- What starts with a minus is that operator. -/
theorem munches_minus {xs : List Char} (h : Munches kind '-' xs rest) :
    kind = .operator ∧ xs = [] := by
  rw [Munches, munch] at h
  generalize xs ++ rest = cs at h
  by_cases hline : cs.head? = some '-'
  · have hstart : start '-' cs = .lineComment := by simp [start, Text.isAsciiBlank, hline]
    rw [hstart] at h
    cases h
  · have hstart : start '-' cs = .operator := by
      simp [start, Text.isAsciiBlank, hline, opensAlternative, isNameStart, isMark]
    have hsingle : (operator '-' cs).1 = ['-'] := by
      cases cs with
      | nil => rfl
      | cons d cs => simp [operator, pairOperators]
    rw [hstart] at h
    obtain ⟨hkind, htaken⟩ := cut_iff.1 h
    rw [htaken] at hsingle
    cases hsingle
    exact ⟨hkind, rfl⟩

end Scan

/-! ### Printed pieces that run into each other -/

namespace Piece

variable {before : Option Piece}

theorem Scanned.ne_point (h : p.Scanned) (hkind : p.kind = .operator) : p.text.toList ≠ ['.'] := by
  obtain ⟨c, xs, rest, htext, hmunches⟩ := h
  rw [htext]
  intro hpoint
  cases hpoint
  exact not_munches_point (hkind ▸ hmunches)

/-- Where a space is left out after an operator, it is a binding operator or a sign, or a mark or a
binding operator follows. -/
theorem operator_of_not_spaced (h : spaced before p q = false) (hop : p.kind = .operator) :
    p.text ∈ ["%", "..", "<<", "@", "+"] ∨ q.text ∈ [",", ")", ";", ".", "%", "..", "@"] ∨
      q.isOp ">>" ∨ (isSign before p ∧ p.text = "-") := by
  simp only [spaced, attachesLeft, attachesRight, bindsRight, bindsLeft, opensArguments, hop,
    Bool.not_eq_false', Bool.or_eq_true, Bool.and_eq_true, beq_iff_eq] at h
  have hsign : isSign before p → p.text = "-" ∨ p.text = "+" := by
    simp only [isSign, Bool.and_eq_true, Bool.or_eq_true, beq_iff_eq]
    exact fun h => h.1.2
  simp only [isOp_iff, mem_cons]
  grind

/-- An operator that runs into what is printed after it is a comparison before `>>` or a minus sign
before a minus. -/
theorem clash_of_extendsOperator (hp : p.Scanned) (hq : q.Scanned) (hkind : p.kind = .operator)
    (hspaced : spaced before p q = false)
    (h : extendsOperator p.text.toList (q.text.toList ++ rest)) (next : Option Piece) :
    clash before p q next := by
  rcases operator_of_not_spaced hspaced hkind with hop | hmark | hshift | ⟨hsign, hminus⟩
  · rw [extendsOperator_attached hop] at h
    cases h
  · rw [extendsOperator_mark (hp.ne_point hkind) hmark] at h
    cases h
  · rw [(isOp_iff.1 hshift).2] at h
    have hcompare : p.isOp "<" ∨ p.isOp ">" ∨ p.isOp "=" = true := by
      simp only [isOp_iff, hkind, true_and, ← String.toList_inj]
      exact extendsOperator_shift h
    simp only [clash, Bool.or_eq_true, Bool.and_eq_true, or_assoc]
    exact .inr (.inr (.inl ⟨hcompare, hshift⟩))
  · rw [hminus] at h
    have hnext : q.isOp "-" := by
      obtain ⟨d, ys, rest', htext, hmunches⟩ := hq
      rw [htext] at h
      obtain rfl : d = '-' := by simpa [extendsOperator, joinsOperator, pairOperators] using h
      obtain ⟨hkind', rfl⟩ := munches_minus hmunches
      exact isOp_iff.2 ⟨hkind', String.toList_inj.1 htext⟩
    simp [clash, hsign, hminus, hnext]

theorem clashes_of_point (hpoint : q.isPunct '.')
    (hdigit : (ps.head?.any fun r => startsWith Char.isDigit r.text.toList)) :
    clashes before (q :: ps) := by
  cases ps with
  | nil => cases hdigit
  | cons r ps =>
    have hstarts : startsWith (fun c => c.isDigit || c == '.') r.text.toList := by
      simp only [head?_cons, Option.any_some] at hdigit
      cases htext : r.text.toList with
      | nil => simp [htext] at hdigit
      | cons d ds =>
        rw [htext, startsWith_cons] at hdigit
        rw [startsWith_cons, hdigit, Bool.true_or]
    simp [clashes, clash, hpoint, hstarts]

/-- Where a piece runs into what is printed after it, there is a clash here or at the next piece. -/
theorem clash_of_runsInto (hp : p.Scanned) (hq : q.Scanned) (hps : ∀ r ∈ ps, r.Scanned)
    (h : runsInto p.kind p.text.toList (renderAfter before p (q :: ps))) :
    clash before p q ps.head? ∨ clashes (some p) (q :: ps) := by
  cases hspaced : spaced before p q with
  | true =>
    rw [renderAfter_of_spaced hspaced, runsInto_space] at h
    cases h
  | false =>
    rw [renderAfter_of_not_spaced hspaced] at h
    by_cases hop : p.kind = .operator
    · rw [hop] at h
      exact .inl (clash_of_extendsOperator hp hq hop hspaced h _)
    by_cases hpunct : p.kind = .punctuation
    · rw [hpunct, runsInto, Bool.and_eq_true, beq_iff_eq, hq.startsWith_append] at h
      have hpoint : p.isPunct '.' :=
        isPunct_iff.2 ⟨hpunct, String.toList_inj.1 h.1⟩
      exact .inl (by simp [clash, hpoint, h.2])
    rcases text_of_not_spaced hspaced hop hpunct with hpoint | hmark
    · obtain ⟨_, htext⟩ := isPunct_iff.1 hpoint
      have hchars : q.text.toList = ['.'] := by rw [htext]; rfl
      rw [hchars, singleton_append] at h
      rcases runsInto_of_not_continuesText rfl h with ⟨hkind, _⟩ | ⟨rest', hrest, hafter⟩
      · exact absurd hkind hop
      · cases hrest
        rcases hafter with ⟨hkind, _⟩ | ⟨hbind, hname⟩ | ⟨_, hdigit⟩
        · exact absurd hkind hpunct
        · rw [startsWith_renderAfter_point hpoint hps] at hname
          exact .inl (by simp [clash, hbind, hpoint, hname])
        · rw [startsWith_renderAfter_point hpoint hps] at hdigit
          exact .inr (clashes_of_point hpoint hdigit)
    · rw [runsInto_mark hmark hop hpunct] at h
      cases h

/-- A clash is a piece that runs into what is printed after it. -/
theorem runsInto_of_clash (hq : q.Scanned) (hps : ∀ r ∈ ps, r.Scanned)
    (h : clash before p q ps.head?) :
    runsInto p.kind p.text.toList (renderAfter before p (q :: ps)) := by
  simp only [clash, Bool.or_eq_true, Bool.and_eq_true] at h
  rcases h with ((⟨hpoint, hstarts⟩ | ⟨⟨hbind, hpoint⟩, hname⟩) | ⟨hcompare, hshift⟩) |
    ⟨⟨hsign, hminus⟩, hnext⟩
  · obtain ⟨hkind, htext⟩ := isPunct_iff.1 hpoint
    rw [renderAfter_of_not_spaced (spaced_of_point_left hpoint), hkind, htext, runsInto,
      hq.startsWith_append, hstarts]
    rfl
  · obtain ⟨_, htext⟩ := isPunct_iff.1 hpoint
    have hchars : q.text.toList = ['.'] := by rw [htext]; rfl
    rw [← startsWith_renderAfter_point hpoint hps] at hname
    rw [renderAfter_of_not_spaced (spaced_of_point_right hpoint), beq_iff_eq.1 hbind, hchars,
      singleton_append, runsInto, extendsBind, hname]
    rfl
  · obtain ⟨hkind, htext⟩ := isOp_iff.1 hshift
    have hspaced : spaced before p q = false := by simp [spaced, bindsLeft, hkind, htext]
    rw [renderAfter_of_not_spaced hspaced, htext]
    simp only [isOp_iff] at hcompare
    rcases hcompare with (⟨hp, hcompare⟩ | ⟨hp, hcompare⟩) | ⟨hp, hcompare⟩ <;>
      rw [hp, hcompare] <;> rfl
  · have hspaced : spaced before p q = false := by simp [spaced, hsign]
    obtain ⟨_, hnext⟩ := isOp_iff.1 hnext
    have hkind : p.kind = .operator := by
      simp only [isSign, Bool.and_eq_true, beq_iff_eq] at hsign
      exact hsign.1.1
    rw [renderAfter_of_not_spaced hspaced, hkind, beq_iff_eq.1 hminus, hnext]
    rfl

theorem separate_iff (before : Option Piece) (h : ∀ q ∈ p :: ps, q.Scanned) :
    Separate before (p :: ps) ↔ clashes before (p :: ps) = false := by
  induction ps generalizing before p with
  | nil => simp [Separate, clashes, renderAfter, runsInto_nil]
  | cons q ps ih =>
    rw [forall_mem_cons] at h
    obtain ⟨hp, hlater⟩ := h
    obtain ⟨hq, hps⟩ := forall_mem_cons.1 hlater
    rw [Separate, ih (some p) hlater, clashes, Bool.or_eq_false_iff, ← Bool.not_eq_true,
      ← Bool.not_eq_true (clash _ _ _ _)]
    constructor
    · rintro ⟨hruns, hclashes⟩
      exact ⟨fun hclash => hruns (runsInto_of_clash hq hps hclash), hclashes⟩
    · rintro ⟨hclash, hclashes⟩
      refine ⟨fun hruns => ?_, hclashes⟩
      rcases clash_of_runsInto hp hq hps hruns with hhere | hnext
      · exact hclash hhere
      · rw [hclashes] at hnext
        cases hnext

end Piece

/-- The pieces of a source are read back from their text in canonical spacing exactly if there is no
clash among them. -/
theorem ofSource_render_iff {source : String} {ts : List Token}
    (h : Token.ofSource source = .ok ts) :
    (∃ us, Token.ofSource (render ts) = .ok us ∧ pieces us = pieces ts) ↔
      clashes none (pieces ts) = false := by
  have hscanned := (reads_iff_ofSource.2 ⟨ts, h, rfl⟩).scanned
  rw [← reads_iff_ofSource, render, Piece.render, String.toList_ofList]
  cases hpieces : pieces ts with
  | nil => simp [renderChars, clashes]
  | cons p ps =>
    rw [hpieces] at hscanned
    rw [renderChars, reads_rendered_iff none hscanned, separate_iff none hscanned]

/-- Signs, dots and brackets that are printed without spaces. -/
def signed : String := "a.b := - f ( 1 ) - -2"

theorem ofSource_render_signed :
    ∃ ts us, Token.ofSource signed = .ok ts ∧ clashes none (pieces ts) = false ∧
      Token.ofSource (render ts) = .ok us ∧ pieces us = pieces ts := by
  have hsource := ofSource_eq_ok (by decide +kernel : (lex signed.toList).unfinished = none)
  have hclashes : clashes none (pieces (lex signed.toList).tokens) = false := by
    decide +kernel
  obtain ⟨us, hus, hpieces⟩ := (ofSource_render_iff hsource).2 hclashes
  exact ⟨_, us, hsource, hclashes, hus, hpieces⟩

/-- A sign before a sign. -/
def doublySigned : String := "x := - - 1"

/-- Two minus signs are printed as the start of a comment. -/
theorem ofSource_render_doublySigned :
    ∃ ts, Token.ofSource doublySigned = .ok ts ∧ render ts = "x := --1" ∧
      ¬∃ us, Token.ofSource (render ts) = .ok us ∧ pieces us = pieces ts := by
  have hsource := ofSource_eq_ok (by decide +kernel : (lex doublySigned.toList).unfinished = none)
  have hprinted : render (lex doublySigned.toList).tokens = "x := --1" := by decide +kernel
  have hread := ofSource_eq_ok (by decide +kernel : (lex "x := --1".toList).unfinished = none)
  refine ⟨_, hsource, hprinted, ?_⟩
  rintro ⟨us, hus, hpieces⟩
  rw [hprinted, hread] at hus
  cases hus
  exact absurd hpieces (by decide +kernel)

end TriggerDialect
