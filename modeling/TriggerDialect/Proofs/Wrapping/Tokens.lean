import TriggerDialect.Proofs.Lexing.Pieces
import TriggerDialect.Proofs.Wrapping.Trimming

/-!
# Tokens of a trimmed text

Where blanks are lost at the ends of lines, blanks stay blanks and comments stay comments
(`reads_trimmed_append_iff`). A token that loses some is not read again: it is gone, or a different
token stands in its place (`reads_lost`). So a text has the same tokens exactly if none of them
loses a blank (`reads_trimmed_iff`). Literals and names in plain quotes never do while the count of
quotes is in step (`spares_of_steady_others`).
-/

namespace TriggerDialect

open List Text Scan Lexeme

/-- Whether a piece holds nothing but blanks. A blank beyond ASCII is part of a name. -/
def Piece.isBlank (p : Piece) : Bool := p.text.toList.all Text.isBlank

namespace Layout

variable {quote : Option Char} {c d : Char} {cs xs rest : List Char} {ps : List Piece} {kind : Kind}
  {mark : Char} {body : List Char} {step : Cut}

/-! ### Blanks and comments -/

/-- Blanks lost from a text do not close a comment, nor do they leave it open. -/
theorem closesPair_trimmed (h : closesPair '*' '/' xs) (quote : Option Char)
    (rest : List Char) : closesPair '*' '/' (trimmed quote xs rest) := by
  fun_induction closesPair '*' '/' xs generalizing quote with
  | case1 => cases h
  | case2 => cases h
  | case3 c d cs hpair =>
    obtain ⟨rfl, rfl⟩ := hpair
    rw [List.isEmpty_iff] at h
    subst h
    rw [trimmed_kept (drops_of_not_blank rfl quote _), trimmed_kept (drops_of_not_blank rfl _ _)]
    rfl
  | case4 c d cs hpair ih =>
    have hlater := ih h (quoteAfter quote c)
    rw [trimmed_cons]
    split
    · exact hlater
    · cases hleft : trimmed (quoteAfter quote c) (d :: cs) rest with
      | nil => rw [hleft] at hlater; cases hlater
      | cons e left =>
        rw [hleft] at hlater
        have hopen : ¬(c = '*' ∧ e = '/') := by
          rintro ⟨rfl, rfl⟩
          rcases head?_trimmed (by rw [hleft]; rfl) with hslash | hslash
          · cases hslash
          · cases hslash
            exact hpair ⟨rfl, rfl⟩
        rw [closesPair, if_neg hopen]
        exact hlater

/-- What starts with a line feed, or is empty, does so without its trailing blanks. -/
theorem startsWith_trimmed (h : startsWith (· != '\n') rest = false) (quote : Option Char) :
    startsWith (· != '\n') (trimmed quote rest []) = false := by
  cases hleft : trimmed quote rest [] with
  | nil => rfl
  | cons d left =>
    rcases head?_trimmed (by rw [hleft]; rfl) with rfl | hd
    · rfl
    · cases rest with
      | nil => cases hd
      | cons e rest =>
        cases hd
        exact h

theorem reads_lineComment_iff (hbody : body.all (· != '\n'))
    (hrest : startsWith (· != '\n') rest = false) :
    Reads ('-' :: '-' :: (body ++ rest)) ps ↔ Reads rest ps := by
  have hmunch : munch '-' ('-' :: (body ++ rest)) = _ := munch_lineComment hbody hrest
  rw [reads_cons_iff hmunch]
  simp [piece?]

theorem reads_blockComment_iff (hbody : closesPair '*' '/' body) :
    Reads ('/' :: '*' :: (body ++ rest)) ps ↔ Reads rest ps := by
  have hmunch : munch '/' ('*' :: (body ++ rest)) = _ := munch_blockComment hbody rest
  rw [reads_cons_iff hmunch]
  simp [piece?]

/-- Blanks and comments stay blanks and comments. -/
theorem reads_trimmed_append_iff (h : munch c cs = .ok step) (hpiece : step.lexeme.piece? = none)
    (quote quote' : Option Char) :
    Reads (trimmed quote step.lexeme.chars step.rest ++ trimmed quote' step.rest []) ps ↔
      Reads (trimmed quote' step.rest []) ps := by
  cases hshape : step.lexeme.shape with
  | token kind => simp [piece?, hshape] at hpiece
  | blank => exact reads_blanks_iff (trimmed_all (isAsciiBlank_of_munch_blank h hshape) _ _)
  | comment =>
    rcases munch_comment h hshape with ⟨body, hchars, hbody, hrest⟩ | ⟨body, hchars, hbody⟩
    · rw [hchars, trimmed_kept (drops_of_not_blank rfl _ _),
        trimmed_kept (drops_of_not_blank rfl _ _)]
      exact reads_lineComment_iff (trimmed_all hbody _ _) (startsWith_trimmed hrest quote')
    · rw [hchars, trimmed_kept (drops_of_not_blank rfl _ _),
        trimmed_kept (drops_of_not_blank rfl _ _)]
      exact reads_blockComment_iff (closesPair_trimmed hbody _ _)

/-! ### Tokens -/

/-- What is left is the same text up to its end or a line feed in place of blanks. -/
theorem cleared_trimmed (quote : Option Char) (cs : List Char) :
    Cleared cs (trimmed quote cs []) := by
  induction cs generalizing quote with
  | nil => exact .done []
  | cons c cs ih =>
    cases hdrops : drops quote c (cs ++ []) with
    | false =>
      rw [trimmed_kept hdrops]
      exact .cons c (ih _)
    | true =>
      obtain ⟨_, _, hends⟩ := drops_iff.1 hdrops
      rw [trimmed_dropped hdrops]
      cases htrimmed : trimmed none cs [] with
      | nil => exact .done _
      | cons d left =>
        obtain rfl := head?_trimmed_of_endsLine hends (by rw [htrimmed]; rfl)
        exact .blank rfl _ left

/-- A name loses nothing or the blanks at its end. -/
theorem trimmed_name (hquote : IsQuote quote)
    (h : ∀ d ∈ xs, d ≠ '\'' ∧ d ≠ '"' ∧ d ≠ '\n') (rest : List Char) :
    trimmed quote xs rest = xs ∨
      ∃ front blanks, xs = front ++ blanks ∧ trimmed quote xs rest = front ∧ blanks ≠ [] ∧
        blanks.all isBlank ∧ ∀ d ∈ front.getLast?, isBlank d = false := by
  induction xs with
  | nil => exact .inl rfl
  | cons x xs ih =>
    obtain ⟨⟨hx, hdouble, hline⟩, hxs⟩ := forall_mem_cons.1 h
    have hlines : xs.all (· != '\n') :=
      all_eq_true.2 fun d hd => bne_iff_ne.2 (hxs d hd).2.2
    cases hdrops : drops quote x (xs ++ rest) with
    | true =>
      obtain ⟨_, hblank, hends⟩ := drops_iff.1 hdrops
      have hnone : trimmed none xs rest = [] := by
        cases hleft : trimmed none xs rest with
        | nil => rfl
        | cons d left =>
          have hd := head?_trimmed_of_endsLine hends (by rw [hleft]; rfl)
          have hall := trimmed_all hlines none rest
          rw [hleft, hd] at hall
          cases hall
      have hall : xs.all isBlank := by
        have hwhole := endsLine_iff.1 (endsLine_of_append hends)
        rwa [(takeWhile_iff.2 ⟨(append_nil xs).symm, hlines, rfl⟩).1] at hwhole
      have hlost : trimmed quote (x :: xs) rest = [] := by rw [trimmed_dropped hdrops, hnone]
      refine .inr ⟨[], x :: xs, rfl, hlost, cons_ne_nil x xs, ?_, by simp⟩
      rw [all_cons, (isLineBlank_iff.1 hblank).1, hall]
      rfl
    | false =>
      rw [trimmed_kept hdrops, hquote.quoteAfter_eq hx hdouble]
      rcases ih hxs with hwhole | ⟨front, blanks, happend, hfront, hne, hblanks, hlast⟩
      · exact .inl (by rw [hwhole])
      · refine .inr ⟨x :: front, blanks, by rw [happend]; rfl, by rw [hfront], hne, hblanks, ?_⟩
        cases front with
        | cons y front =>
          intro d hd
          rw [getLast?_cons_cons] at hd
          exact hlast d hd
        | nil =>
          -- all that follows on the line is lost, so that `x` would be as well
          obtain ⟨y, ys, rfl⟩ := exists_cons_of_ne_nil hne
          rw [nil_append] at happend
          subst happend
          have hfirst : drops quote y (ys ++ rest) := by
            rw [← Bool.not_eq_false]
            intro hkept
            rw [trimmed_kept hkept] at hfront
            cases hfront
          obtain ⟨hnone, hy, hends⟩ := drops_iff.1 hfirst
          rw [← endsLine_blank hy] at hends
          intro d hd
          rw [getLast?_singleton, Option.mem_some_iff] at hd
          rw [← hd, ← Bool.not_eq_true]
          intro hblank
          have hlost := drops_iff.2 ⟨hnone, isLineBlank_iff.2 ⟨hblank, hline⟩, hends⟩
          rw [cons_append, hlost] at hdrops
          cases hdrops

/-- The blanks that are none of the scanner's are beyond ASCII, but for the vertical tab. -/
theorem isBlank_cases (h : isBlank c) (hascii : isAsciiBlank c = false) :
    c = '\x0b' ∨ 128 ≤ c.toNat := by
  have hne : ∀ d : Char, c ≠ d → c.toNat ≠ d.toNat := fun d hd heq => hd (Char.toNat_inj.1 heq)
  simp only [isBlank, blankRanges, any_cons, any_nil, Bool.or_eq_true, Bool.and_eq_true,
    decide_eq_true_eq, Bool.false_eq_true, or_false] at h
  simp only [isAsciiBlank, Bool.or_eq_false_iff, beq_eq_false_iff_ne] at hascii
  obtain ⟨⟨⟨⟨hspace, htab⟩, hline⟩, hform⟩, hreturn⟩ := hascii
  have hspace : c.toNat ≠ 32 := hne ' ' hspace
  have htab : c.toNat ≠ 9 := hne '\t' htab
  have hline : c.toNat ≠ 10 := hne '\n' hline
  have hform : c.toNat ≠ 12 := hne '\x0c' hform
  have hreturn : c.toNat ≠ 13 := hne '\r' hreturn
  have hcode : c.toNat = 11 ∨ 128 ≤ c.toNat := by omega
  exact hcode.imp (fun hc => Char.toNat_inj.1 hc) id

theorem munch_verticalTab (cs : List Char) :
    munch '\x0b' cs = .ok (cut (.token .operator) (['\x0b'], cs)) := by
  have hstart : start '\x0b' cs = .operator := by cases cs <;> rfl
  have hoperator : operator '\x0b' cs = (['\x0b'], cs) := by
    cases cs with
    | nil => rfl
    | cons d cs => exact operator_single (by simp [pairOperators])
  rw [munch, hstart]
  exact congrArg (fun taken => Except.ok (cut (.token .operator) taken)) hoperator

theorem munch_beyondAscii (h : 128 ≤ c.toNat) (cs : List Char) : munch c cs = .ok (word c cs) := by
  have hname : isNameStart c := by simp [isNameStart, h]
  have hne : ∀ d : Char, d.toNat < 128 → c ≠ d := by
    rintro d hd rfl
    omega
  have hliteral : opensLiteral c cs = false := by
    simp [opensLiteral, opensAlternative, hne 'q' (by decide), hne 'Q' (by decide),
      hne 'n' (by decide), hne 'N' (by decide)]
  rw [munch, start_word hname hliteral]

/-- A token that starts with a blank is a name, or this blank alone. -/
theorem munch_of_isBlank (h : isBlank c) (hascii : isAsciiBlank c = false) (cs : List Char) :
    ∃ kind, munch c cs = .ok (cut (.token kind)
      (c :: cs.takeWhile fun d => isNameStart c && isNamePart d,
        cs.dropWhile fun d => isNameStart c && isNamePart d)) := by
  rcases isBlank_cases h hascii with rfl | hc
  · have hends : startsWith (fun d => isNameStart '\x0b' && isNamePart d) cs =
        false := by cases cs <;> rfl
    obtain ⟨htake, hdrop⟩ := takeWhile_iff.2 ⟨(nil_append cs).symm, rfl, hends⟩
    exact ⟨.operator, by rw [htake, hdrop, munch_verticalTab]⟩
  · refine ⟨wordKind (c :: cs.takeWhile isNamePart), ?_⟩
    have hname : isNameStart c := by simp [isNameStart, hc]
    rw [munch_beyondAscii hc]
    simp [hname, word, wordKind]

/-- What stands in a token that starts with a blank. -/
theorem namePart_of_munches (hblank : isBlank c) (h : Scan.Munches kind c xs rest) :
    xs.all (fun d => isNameStart c && isNamePart d) ∧
      ∀ d ∈ c :: xs, d ≠ '\'' ∧ d ≠ '"' ∧ d ≠ '\n' := by
  have hascii := isAsciiBlank_of_munches h
  obtain ⟨kind', hmunch⟩ := munch_of_isBlank hblank hascii (xs ++ rest)
  have hname : xs.all (fun d => isNameStart c && isNamePart d) := by
    rw [Scan.Munches, hmunch] at h
    simp only [cut, Except.ok.injEq, Cut.mk.injEq, mk.injEq, cons.injEq, true_and] at h
    rw [← h.1.2]
    exact all_takeWhile
  refine ⟨hname, forall_mem_cons.2 ⟨?_, fun d hd => ?_⟩⟩
  · obtain ⟨hquote, hdouble⟩ := ne_quote_of_isBlank hblank
    refine ⟨hquote, hdouble, ?_⟩
    rintro rfl
    cases hascii
  · have hpart := all_eq_true.1 hname d hd
    rw [Bool.and_eq_true] at hpart
    refine ⟨?_, ?_, ?_⟩ <;> rintro rfl <;> cases hpart.2

/-- No comment starts where there was none. -/
theorem start_trimmed {start : Scan.Start} (hstart : start = .lineComment ∨ start = .blockComment)
    (h : Scan.start c (trimmed quote cs []) = start) : Scan.start c cs = start := by
  have hknown := Scan.announces_start c (trimmed quote cs [])
  rw [h] at hknown
  rcases hstart with rfl | rfl
  · obtain ⟨rfl, hhead⟩ : c = '-' ∧ _ := hknown
    rcases head?_trimmed hhead with hline | hhead
    · cases hline
    · simp [Scan.start, isAsciiBlank, hhead]
  · obtain ⟨rfl, hhead⟩ : c = '/' ∧ _ := hknown
    rcases head?_trimmed hhead with hline | hhead
    · cases hline
    · simp [Scan.start, isAsciiBlank, hhead]

/-- Where a token starts with no blank, what is left of the text starts with a token. -/
theorem exists_token_of_trimmed (hmunches : Scan.Munches kind c xs rest)
    (h : Reads (c :: trimmed quote (xs ++ rest) []) ps) :
    ∃ kind' ys qs, ps = ⟨kind', String.ofList (c :: ys)⟩ :: qs ∧
      c :: ys <+: c :: trimmed quote (xs ++ rest) [] := by
  obtain ⟨step, hmunch⟩ := h.exists_munch
  obtain ⟨qs, _, rfl⟩ := (reads_cons_iff hmunch).1 h
  cases hshape : step.lexeme.shape with
  | blank =>
    have hblank := (start_of_shape hmunch).1 hshape
    rw [isAsciiBlank_of_munches hmunches] at hblank
    cases hblank
  | comment =>
    exfalso
    have hcomment := (start_of_shape hmunch).2 hshape
    have hstart := start_trimmed hcomment rfl
    rw [Scan.Munches, Scan.munch, hstart] at hmunches
    rcases hcomment with hcomment | hcomment
    · rw [hcomment] at hmunches
      cases hmunches
    · rw [hcomment] at hmunches
      cases Scan.closed_shape hmunches
  | token kind' =>
    obtain ⟨ys, htext, hlexeme, _⟩ := munches_of_token hmunch hshape
    refine ⟨kind', ys, qs, by simp [hlexeme, piece?, text], ?_⟩
    rw [htext]
    exact prefix_append (c :: ys) step.rest

/-- A token that loses blanks is gone, or another token stands in its place, which is not blank. -/
theorem reads_lost (hquote : IsQuote quote) (hmunches : Scan.Munches kind c xs rest)
    (hlost : trimmed quote (c :: xs) rest ≠ c :: xs)
    (h : Reads (trimmed quote (c :: xs ++ rest) []) ps) :
    ((c :: xs).all Text.isBlank = true ∧
        Reads (trimmed (quoteThrough quote (c :: xs)) rest []) ps) ∨
      ∃ p qs, ps = p :: qs ∧ p.text.toList ≠ c :: xs ∧ p.isBlank = false := by
  have hother : ∀ {ys}, ys <+: trimmed quote (c :: xs ++ rest) [] → ys ≠ c :: xs := by
    rintro _ hprefix rfl
    exact hlost (trimmed_eq_of_isPrefix hprefix)
  cases hblank : Text.isBlank c with
  | false =>
    have hkept : drops quote c (xs ++ rest ++ []) = false :=
      drops_of_not_blank (by simp [isLineBlank, hblank]) quote _
    rw [cons_append, trimmed_kept hkept] at h hother
    obtain ⟨kind', ys, qs, rfl, hprefix⟩ := exists_token_of_trimmed hmunches h
    refine .inr ⟨_, qs, rfl, ?_, by simp [Piece.isBlank, hblank]⟩
    rw [String.toList_ofList]
    exact hother hprefix
  | true =>
    obtain ⟨hname, hplain⟩ := namePart_of_munches hblank hmunches
    rcases trimmed_name hquote hplain rest with
      hwhole | ⟨front, blanks, happend, hfront, hne, hblanks, hlast⟩
    · exact absurd hwhole hlost
    · rw [trimmed_append, append_nil, hfront] at h hother
      cases front with
      | nil =>
        rw [nil_append] at happend h
        exact .inl ⟨happend ▸ hblanks, h⟩
      | cons d front =>
        rw [cons_append, cons.injEq] at happend
        obtain ⟨rfl, rfl⟩ := happend
        generalize trimmed (quoteThrough quote (c :: (front ++ blanks))) rest [] = left at h hother
        -- the name is cut short, so that it ends in the character before the blanks
        obtain ⟨kind', hmunch⟩ :=
          munch_of_isBlank hblank (isAsciiBlank_of_munches hmunches) (front ++ left)
        obtain ⟨qs, _, rfl⟩ := (reads_cons_iff hmunch).1 h
        rw [all_append, Bool.and_eq_true] at hname
        have hrun : (front ++ left).takeWhile (fun d => isNameStart c && isNamePart d) =
            front ++ left.takeWhile _ := takeWhile_append_of_pos (all_eq_true.1 hname.1)
        refine .inr ⟨_, qs, by rw [hrun]; rfl, ?_, ?_⟩
        · rw [text, String.toList_ofList]
          exact hother ((prefix_append_right_inj (c :: front)).2 ( takeWhile_prefix _))
        · have hd := hlast _ (getLast?_eq_some_getLast (cons_ne_nil c front))
          have hmem := getLast_mem (cons_ne_nil c front)
          rw [Bool.eq_false_iff]
          intro hall
          rw [Piece.isBlank, text, String.toList_ofList, all_eq_true] at hall
          rw [hall _ (mem_append_left _ hmem)] at hd
          cases hd

/-- Whether no token among the lexemes loses a blank, where `quote` is open before them. -/
def spares (quote : Option Char) : List Lexeme → Bool
  | [] => true
  | lexeme :: later =>
    (lexeme.piece?.isNone ||
        trimmed quote lexeme.chars (later.flatMap Lexeme.chars) == lexeme.chars) &&
      spares (quoteThrough quote lexeme.chars) later

theorem flatMap_chars_of_reads (h : Reads cs ps) : (lex cs).lexemes.flatMap Lexeme.chars = cs := by
  have happend := lex_append cs
  rwa [h.1, Option.map_none, Option.getD_none, append_nil] at happend

/-- A text that loses the blanks at the ends of its lines has the same pieces exactly if no token
loses one. Blank tokens before them, which `zs` stands for, are never gained. -/
theorem reads_trimmed_iff (hquote : IsQuote quote) (h : Reads cs ps)
    {zs : List Piece} (hzs : ∀ z ∈ zs, z.isBlank) :
    Reads (trimmed quote cs []) (zs ++ ps) ↔ zs = [] ∧ spares quote (lex cs).lexemes := by
  induction cs using lex.induct generalizing quote ps zs with
  | case1 =>
    rw [lex_nil]
    simp [trimmed, spares, reads_nil_iff.1 h]
  | case2 c cs fault hmunch => exact absurd h (not_reads_of_error hmunch)
  | case3 c cs step hmunch hlt ih =>
    obtain ⟨qs, hrest, rfl⟩ := (reads_cons_iff hmunch).1 h
    have hlater : ∀ zs : List Piece, (∀ z ∈ zs, z.isBlank) →
        (Reads (trimmed (quoteThrough quote step.lexeme.chars) step.rest []) (zs ++ qs) ↔
          zs = [] ∧
            spares (quoteThrough quote step.lexeme.chars) (lex step.rest).lexemes) :=
      fun _ hzs => ih (hquote.quoteThrough _) hrest hzs
    rw [lex_cons_ok hmunch, spares, flatMap_chars_of_reads hrest, ← munch_append hmunch]
    cases hshape : step.lexeme.shape with
    | blank | comment =>
      have hpiece : step.lexeme.piece? = none := by rw [Lexeme.piece?, hshape]
      rw [trimmed_append, append_nil, reads_trimmed_append_iff hmunch hpiece, hpiece]
      simpa using hlater zs hzs
    | token kind =>
      obtain ⟨xs, _, hlexeme, hmunches⟩ := munches_of_token hmunch hshape
      rw [hlexeme] at hlater ⊢
      simp only [Lexeme.piece?, Lexeme.text, Option.toList_some, Option.isNone_some, Bool.false_or,
        singleton_append, Bool.and_eq_true, beq_iff_eq] at hlater ⊢
      -- a blank token before the pieces is one that was lost or passed over
      have hgained : ∀ zs : List Piece, (∀ z ∈ zs, z.isBlank) →
          (c :: xs).all Text.isBlank →
          ¬Reads (trimmed (quoteThrough quote (c :: xs)) step.rest [])
            (zs ++ ⟨kind, String.ofList (c :: xs)⟩ :: qs) := by
        intro zs hzs hblank hreads
        rw [append_cons] at hreads
        have hmore := (hlater _ (forall_mem_append.2 ⟨hzs, ?_⟩)).1 hreads
        · simp at hmore
        · intro z hz
          rw [mem_singleton.1 hz, Piece.isBlank, String.toList_ofList]
          exact hblank
      by_cases hwhole : trimmed quote (c :: xs) step.rest = c :: xs
      · have hkeeps := munches_of_cleared hmunches
          (cleared_trimmed (quoteThrough quote (c :: xs)) step.rest)
          fun hlone => absurd hlone hrest.ne_apostrophe
        rw [trimmed_append, append_nil, hwhole, reads_token_iff hkeeps]
        constructor
        · rintro ⟨rs, hreads, heq⟩
          cases zs with
          | nil =>
            cases heq
            exact ⟨rfl, rfl, ((hlater [] hzs).1 hreads).2⟩
          | cons z zs =>
            cases heq
            have hz := forall_mem_cons.1 hzs
            exact absurd hreads (hgained zs hz.2 (by simpa [Piece.isBlank] using hz.1))
        · rintro ⟨rfl, _, hspares⟩
          exact ⟨qs, (hlater [] hzs).2 ⟨rfl, hspares⟩, rfl⟩
      · constructor
        · intro hreads
          exfalso
          rcases reads_lost hquote hmunches hwhole hreads with
            ⟨hblank, hleft⟩ | ⟨p, rs, heq, hother, hink⟩
          · exact hgained zs hzs hblank hleft
          · cases zs with
            | nil =>
              cases heq
              exact hother String.toList_ofList
            | cons z zs =>
              cases heq
              rw [hzs _ mem_cons_self] at hink
              cases hink
        · rintro ⟨_, hspares, _⟩
          exact absurd hspares hwhole

/-! ### Lexemes that keep in step -/

/-- Whether a lexeme closes the quotes that are counted in it and, if it is a token, loses nothing
by itself. -/
def steady (lexeme : Lexeme) : Bool :=
  (quoteThrough none lexeme.chars).isNone &&
    (lexeme.piece?.isNone || trimmed none lexeme.chars [] == lexeme.chars)

theorem trimmed_eq_of_append (h : trimmed quote xs [] = xs) (rest : List Char) :
    trimmed quote xs rest = xs := by
  induction xs generalizing quote with
  | nil => rfl
  | cons x xs ih =>
    have hkept : drops quote x (xs ++ []) = false := by
      rw [← Bool.not_eq_true]
      intro hdrops
      obtain ⟨_, hblank, hends⟩ := drops_iff.1 hdrops
      rw [trimmed_dropped hdrops] at h
      exact (isLineBlank_iff.1 hblank).2 (head?_trimmed_of_endsLine hends (by rw [h]; rfl))
    have hlonger : drops quote x (xs ++ rest) = false := by
      rw [← Bool.not_eq_true] at hkept ⊢
      intro hdrops
      obtain ⟨hnone, hblank, hends⟩ := drops_iff.1 hdrops
      rw [append_nil] at hkept
      exact hkept (drops_iff.2 ⟨hnone, hblank, endsLine_of_append hends⟩)
    rw [trimmed_kept hkept, cons.injEq] at h
    rw [trimmed_kept hlonger, ih h.2]

/-- No token loses a blank where all lexemes keep in step. -/
theorem spares_of_steady {lexemes : List Lexeme} (h : ∀ lexeme ∈ lexemes, steady lexeme) :
    spares none lexemes := by
  induction lexemes with
  | nil => rfl
  | cons lexeme later ih =>
    obtain ⟨hfirst, hlater⟩ := forall_mem_cons.1 h
    simp only [steady, Bool.and_eq_true, Option.isNone_iff_eq_none, Bool.or_eq_true,
      beq_iff_eq] at hfirst
    rw [spares, hfirst.1, ih hlater, Bool.and_true, Bool.or_eq_true, beq_iff_eq,
      Option.isNone_iff_eq_none]
    exact hfirst.2.imp id fun hwhole => trimmed_eq_of_append hwhole _

theorem isLineBlank_mark (h : mark = '\'' ∨ mark = '"') : isLineBlank mark = false := by
  rcases h with rfl | rfl
  · rfl
  · rfl

theorem drops_some (mark : Char) (cs : List Char) : drops (some mark) c cs = false := rfl

/-- A quotation is open up to its closing mark, but for the first of two marks in a row. -/
theorem trimmed_quotation (hmark : mark = '\'' ∨ mark = '"') (h : closesQuote mark xs) :
    trimmed (some mark) xs [] = xs ∧ quoteThrough (some mark) xs = none := by
  have hcloses : quoteAfter (some mark) mark = none := if_pos rfl
  have hopens : quoteAfter none mark = some mark := if_pos hmark
  have hink := isLineBlank_mark hmark
  fun_induction closesQuote mark xs with
  | case1 => cases h
  | case2 c =>
    obtain rfl := beq_iff_eq.1 h
    exact ⟨by rw [trimmed_kept (drops_some _ _)]; rfl, hcloses⟩
  | case3 d cs ih =>
    rw [Bool.and_eq_true, beq_iff_eq] at h
    obtain ⟨rfl, h⟩ := h
    obtain ⟨hwhole, hthrough⟩ := ih h
    rw [trimmed_kept (drops_some _ _), hcloses, trimmed_kept (drops_of_not_blank hink _ _), hopens,
      hwhole]
    refine ⟨rfl, ?_⟩
    rw [quoteThrough, foldl_cons, hcloses, foldl_cons, hopens]
    exact hthrough
  | case4 c d cs hc ih =>
    have hstays : quoteAfter (some mark) c = some mark := if_neg hc
    obtain ⟨hwhole, hthrough⟩ := ih h
    rw [trimmed_kept (drops_some _ _), hstays, hwhole]
    refine ⟨rfl, ?_⟩
    rw [quoteThrough, foldl_cons, hstays]
    exact hthrough

theorem steady_quotation (hmark : mark = '\'' ∨ mark = '"') (h : closesQuote mark xs) :
    steady ⟨.token kind, mark :: xs⟩ := by
  obtain ⟨hwhole, hthrough⟩ := trimmed_quotation hmark h
  have hopens : quoteAfter none mark = some mark := if_pos hmark
  have hink := isLineBlank_mark hmark
  have hcloses : quoteThrough none (mark :: xs) = none := by
    rw [quoteThrough, foldl_cons, hopens]
    exact hthrough
  rw [steady, hcloses, trimmed_kept (drops_of_not_blank hink _ _), hopens, hwhole]
  simp

/-- Whether a lexeme is a literal or a name in plain quotes. -/
def isQuotation (lexeme : Lexeme) : Bool :=
  startsWith (fun c => c == '\'' || c == '"') lexeme.chars

theorem steady_of_munch (h : munch c cs = .ok step) (hquotation : isQuotation step.lexeme) :
    steady step.lexeme := by
  have hmark : c = '\'' ∨ c = '"' := by
    obtain ⟨chars, hchars, -⟩ := munch_taken h
    rw [isQuotation, hchars, startsWith_cons] at hquotation
    simpa using hquotation
  have hmunch := h
  rcases hmark with rfl | rfl
  · rw [munch, start_quote] at hmunch
    obtain ⟨xs, _, hlexeme, hmunches⟩ := munches_of_token h (closed_shape hmunch)
    rw [hlexeme]
    exact steady_quotation (.inl rfl) (munches_quote_iff.1 hmunches).2.1
  · rw [munch, start_doubleQuote] at hmunch
    obtain ⟨xs, _, hlexeme, hmunches⟩ := munches_of_token h (closed_shape hmunch)
    rw [hlexeme]
    exact steady_quotation (.inr rfl) (munches_doubleQuote_iff.1 hmunches).2.1

/-- No token loses a blank where all lexemes but plain quotations keep in step. -/
theorem spares_of_steady_others
    (h : ∀ lexeme ∈ (lex cs).lexemes, isQuotation lexeme ∨ steady lexeme) :
    spares none (lex cs).lexemes := by
  have hquotation : ∀ lexeme ∈ (lex cs).lexemes,
      isQuotation lexeme → steady lexeme := lex_forall steady_of_munch cs
  refine spares_of_steady fun lexeme hlexeme => ?_
  exact (h lexeme hlexeme).elim (hquotation lexeme hlexeme) id

end Layout

end TriggerDialect
