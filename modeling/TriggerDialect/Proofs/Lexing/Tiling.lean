import TriggerDialect.Proofs.Lexing.Pieces
import TriggerDialect.Proofs.Lexing.Scanner
import TriggerDialect.Proofs.Reading.Heads

/-!
# Tokens tile their source

Every byte of a source belongs to a token or to padding, which is blanks and complete comments.
`Tiled` says so by recursion over the tokens: padding, a token, and a tiled rest. The lexemes of any
text tile it (`lex_tiled`). Where the tokens stand, that they do not overlap and what is between
them is read off, and it holds of the tokens that are found byte by byte (`recover_tiles`).
-/

namespace TriggerDialect

open List Text

variable {c : Char} {cs : List Char} {ts : List Token} {rest chars : List Char} {offset : Nat}
  {step : Cut}

/-! ### Padding -/

/-- Blanks and complete comments. -/
inductive Padding : List Char → Prop
  | nil : Padding []
  | blank {c : Char} {rest : List Char} (hc : isAsciiBlank c) (h : Padding rest) :
      Padding (c :: rest)
  /-- A line comment ends at a newline or with the text. -/
  | lineComment {body rest : List Char} (hbody : body.all (· != '\n'))
      (hend : Scan.startsWith (· != '\n') rest = false) (h : Padding rest) :
      Padding ('-' :: '-' :: body ++ rest)
  /-- A block comment ends at the first star and slash. -/
  | blockComment {body rest : List Char} (hbody : Scan.closesPair '*' '/' body)
      (h : Padding rest) : Padding ('/' :: '*' :: body ++ rest)

theorem Padding.blanks {blanks : List Char} (hblanks : blanks.all isAsciiBlank)
    (h : Padding rest) : Padding (blanks ++ rest) := by
  induction blanks with
  | nil => exact h
  | cons b blanks ih =>
    rw [all_cons, Bool.and_eq_true] at hblanks
    exact .blank hblanks.1 (ih hblanks.2)

/-- A blank or a comment before padding is padding. A line comment needs to know what followed it
in the text that it was cut from. -/
theorem Padding.of_munch {gap : List Char} (h : Scan.munch c cs = .ok step)
    (hshape : ∀ kind, step.lexeme.shape ≠ .token kind) (hpart : gap <+: step.rest)
    (hgap : Padding gap) : Padding (step.lexeme.chars ++ gap) := by
  cases hknown : step.lexeme.shape with
  | token kind => exact absurd hknown (hshape kind)
  | blank => exact .blanks (isAsciiBlank_of_munch_blank h hknown) hgap
  | comment =>
    rcases munch_comment h hknown with ⟨body, hchars, hbody, hend⟩ | ⟨body, hchars, hbody⟩
    · rw [hchars]
      refine .lineComment hbody ?_ hgap
      obtain ⟨after, hafter⟩ := hpart
      cases gap with
      | nil => rfl
      | cons d gap => rwa [← hafter, Scan.startsWith_append (cons_ne_nil d gap)] at hend
    · rw [hchars]
      exact .blockComment hbody hgap

/-- Padding holds no pieces. -/
theorem Padding.reads (h : Padding cs) : Reads cs [] := by
  induction h with
  | nil => exact reads_nil_iff.2 rfl
  | @blank c rest hc _ ih =>
    have hblank : [c].all isAsciiBlank := by simp [hc]
    exact (reads_blanks_iff hblank).2 ih
  | lineComment hbody hend _ ih =>
    exact (reads_cons_iff (munch_lineComment hbody hend)).2 ⟨[], ih, rfl⟩
  | @blockComment body rest hbody _ ih =>
    exact (reads_cons_iff (munch_blockComment hbody rest)).2 ⟨[], ih, rfl⟩

theorem Padding.ofSource (h : Padding cs) : Token.ofSource (String.ofList cs) = .ok [] := by
  rw [← String.toList_ofList (l := cs)] at h
  obtain ⟨ts, hts, hpieces⟩ := reads_iff_ofSource.1 h.reads
  rw [hts, map_eq_nil_iff.1 hpieces]

/-! ### Tilings -/

/-- The byte after a token. -/
def Token.stop (t : Token) : Nat := t.offset + t.text.utf8ByteSize

/-- The text, which stands at byte `offset`, is made of the tokens with padding around them. -/
inductive Tiled : Nat → List Char → List Token → Prop
  | done {offset : Nat} {cs : List Char} (h : Padding cs) : Tiled offset cs []
  | token {offset : Nat} {gap rest : List Char} {t : Token} {ts : List Token} (hgap : Padding gap)
      (hoffset : t.offset = offset + byteLength gap) (hfilled : t.text ≠ "")
      (hrest : Tiled t.stop rest ts) : Tiled offset (gap ++ (t.text.toList ++ rest)) (t :: ts)

/-- Text before a tiling that makes padding of the padding at its start. -/
theorem Tiled.pad (hpad : ∀ gap, gap <+: rest → Padding gap → Padding (chars ++ gap))
    (h : Tiled (offset + byteLength chars) rest ts) : Tiled offset (chars ++ rest) ts := by
  cases h with
  | done hgap => exact .done (hpad _ (prefix_refl _) hgap)
  | token hgap hoffset hfilled hrest =>
    rw [← append_assoc]
    refine .token (hpad _ (prefix_append _ _) hgap) ?_ hfilled hrest
    rw [hoffset, byteLength_append, Nat.add_assoc]

theorem Tiled.ofChars (kind : Kind) (hne : chars ≠ [])
    (h : Tiled (offset + byteLength chars) rest ts) :
    Tiled offset (chars ++ rest) (⟨⟨kind, String.ofList chars⟩, offset⟩ :: ts) := by
  have htext : (String.ofList chars).toList = chars := String.toList_ofList
  have hfilled : String.ofList chars ≠ "" := by simpa using hne
  have htoken : Tiled offset ([] ++ ((String.ofList chars).toList ++ rest))
      (⟨⟨kind, String.ofList chars⟩, offset⟩ :: ts) := by
    refine .token (t := ⟨⟨kind, String.ofList chars⟩, offset⟩) .nil rfl hfilled ?_
    rwa [Token.stop, utf8ByteSize_ofList]
  rwa [nil_append, htext] at htoken

/-- The lexemes of a text tile it. -/
theorem lex_tiled (offset : Nat) (cs : List Char) : Tiled offset cs ((lex cs).tokensAt offset) := by
  fun_induction lex cs generalizing offset with
  | case1 => exact .done .nil
  | case2 c cs fault hmunch =>
    have htoken : Tiled offset (c :: cs ++ []) [⟨⟨.trailing, String.ofList (c :: cs)⟩, offset⟩] :=
      .ofChars .trailing (cons_ne_nil c cs) (.done .nil)
    rwa [append_nil] at htoken
  | case3 c cs step hmunch hlt later ih =>
    rw [← Scan.munch_append hmunch]
    by_cases hshape : ∃ kind, step.lexeme.shape = .token kind
    · obtain ⟨kind, hkind⟩ := hshape
      rw [Lexing.tokensAt_token hkind]
      exact .ofChars kind (Scan.munch_taken_ne_nil hmunch) (ih _)
    · have hpadding : ∀ kind, step.lexeme.shape ≠ .token kind :=
        fun kind hkind => hshape ⟨kind, hkind⟩
      rw [Lexing.tokensAt_padding hpadding]
      exact .pad (fun gap hpart hgap => .of_munch hmunch hpadding hpart hgap) (ih _)

/-! ### What a tiling says of the source -/

/-- The bytes before, between and after tokens, from byte `start` to byte `stop`. -/
def gapsFrom (start stop : Nat) : List Token → List (Nat × Nat)
  | [] => [(start, stop)]
  | t :: ts => (start, t.offset) :: gapsFrom t.stop stop ts

/-- A stretch of a source that holds nothing but padding, and so no tokens. -/
def IsGap (source : String) (gap : Nat × Nat) : Prop :=
  ∃ text, Text.IsSlice source gap.1 gap.2 text ∧ Padding text.toList ∧
    Token.ofSource text = .ok []

/-- The tokens stand one after another in the source, with nothing but padding around them. -/
structure Tiles (source : String) (ts : List Token) : Prop where
  filled : ∀ t ∈ ts, t.text ≠ ""
  sliced : ∀ t ∈ ts, Text.IsSlice source t.offset t.stop t.text
  ordered : ts.Pairwise fun t u => t.offset < u.offset ∧ t.stop ≤ u.offset
  padded : ∀ gap ∈ gapsFrom 0 source.utf8ByteSize ts, IsGap source gap

namespace Tiled

variable {source : String} {offset : Nat} {front : List Char} {ts : List Token}

theorem filled (h : Tiled offset cs ts) : ∀ t ∈ ts, t.text ≠ "" := by
  induction h with
  | done => simp
  | token _ _ hfilled _ ih => exact forall_mem_cons.2 ⟨hfilled, ih⟩

theorem le_offset (h : Tiled offset cs ts) : ∀ t ∈ ts, offset ≤ t.offset := by
  induction h with
  | done => simp
  | @token offset gap rest t ts _ hoffset _ _ ih =>
    refine forall_mem_cons.2 ⟨by omega, fun u hu => ?_⟩
    have hlater := ih u hu
    simp only [Token.stop] at hlater
    omega

theorem ordered (h : Tiled offset cs ts) :
    ts.Pairwise fun t u => t.offset < u.offset ∧ t.stop ≤ u.offset := by
  induction h with
  | done => exact .nil
  | @token offset gap rest t ts _ _ hfilled hrest ih =>
    refine .cons (fun u hu => ?_) ih
    have hlater := hrest.le_offset u hu
    have hsize : t.text.utf8ByteSize ≠ 0 := fun hzero =>
      hfilled (String.utf8ByteSize_eq_zero_iff.1 hzero)
    refine ⟨?_, hlater⟩
    simp only [Token.stop] at hlater
    omega

variable {gap rest : List Char} {t : Token}

theorem isSlice_token (h : source.toList = front ++ (gap ++ (t.text.toList ++ rest)))
    (hoffset : t.offset = byteLength front + byteLength gap) :
    Text.IsSlice source t.offset t.stop t.text := by
  rw [← append_assoc] at h
  have hslice := isSlice_ofList h
  rwa [byteLength_append, ← hoffset, byteLength_toList, String.ofList_toList] at hslice

theorem stop_eq (hoffset : t.offset = byteLength front + byteLength gap) :
    t.stop = byteLength (front ++ (gap ++ t.text.toList)) := by
  rw [byteLength_append, byteLength_append, byteLength_toList, Token.stop, hoffset, Nat.add_assoc]

theorem sliced (h : Tiled offset cs ts) (front : List Char) (hsource : source.toList = front ++ cs)
    (hfront : offset = byteLength front) :
    ∀ t ∈ ts, Text.IsSlice source t.offset t.stop t.text := by
  induction h generalizing front with
  | done => simp
  | @token offset gap rest t ts _ hoffset _ _ ih =>
    rw [hfront] at hoffset
    refine forall_mem_cons.2 ⟨isSlice_token hsource hoffset, ?_⟩
    exact ih _ (by simpa using hsource) (stop_eq hoffset)

theorem padded (h : Tiled offset cs ts) (front : List Char) (hsource : source.toList = front ++ cs)
    (hfront : offset = byteLength front) :
    ∀ gap ∈ gapsFrom offset source.utf8ByteSize ts, IsGap source gap := by
  have hgap : ∀ {front gap rest : List Char}, source.toList = front ++ (gap ++ rest) →
      Padding gap →
      IsGap source (byteLength front, byteLength front + byteLength gap) := by
    intro front gap rest hsplit hpadding
    refine ⟨_, isSlice_ofList hsplit, ?_, hpadding.ofSource⟩
    rwa [String.toList_ofList]
  induction h generalizing front with
  | @done offset cs hpadding =>
    have hsize : source.utf8ByteSize = byteLength front + byteLength cs := by
      rw [← byteLength_toList, hsource, byteLength_append]
    rw [gapsFrom, hfront, hsize, forall_mem_singleton]
    rw [← append_nil cs] at hsource
    exact hgap hsource hpadding
  | @token offset gap rest t ts hpadding hoffset _ _ ih =>
    rw [hfront] at hoffset
    rw [gapsFrom, hfront, hoffset]
    refine forall_mem_cons.2 ⟨hgap hsource hpadding, ?_⟩
    exact ih _ (by simpa using hsource) (stop_eq hoffset)

theorem tiles (h : Tiled 0 source.toList ts) : Tiles source ts where
  filled := h.filled
  sliced := h.sliced [] rfl rfl
  ordered := h.ordered
  padded := h.padded [] rfl rfl

end Tiled

/-- The tokens of a source stand in order, and none is empty. -/
theorem ofSource_inSource {source : String} (h : Token.ofSource source = .ok ts) : InSource ts := by
  have htiled := lex_tiled 0 source.toList
  obtain ⟨hunfinished, hts⟩ := unfinished_of_ofSource h
  have htokens : (lex source.toList).tokensAt 0 = ts := by
    rw [Lexing.tokensAt, hunfinished, append_nil]
    exact hts
  rw [htokens] at htiled
  exact ⟨htiled.ordered.imp And.left, htiled.filled⟩

/-! ### The unterminated rest -/

theorem munch_ne_trailing (h : Scan.munch c cs = .ok step) :
    step.lexeme.shape ≠ .token .trailing := by
  intro hshape
  have hclass := Scan.start_mem_classes h
  rw [hshape] at hclass
  cases hclass

theorem lex_tokens_ne_trailing (cs : List Char) : ∀ t ∈ (lex cs).tokens, t.kind ≠ .trailing := by
  intro t ht hkind
  have hlexemes : ∀ lexeme ∈ (lex cs).lexemes, lexeme.shape ≠ .token .trailing :=
    lex_forall munch_ne_trailing cs
  obtain ⟨lexeme, hlexeme, hpiece⟩ := Lexeme.exists_of_mem_tokensFrom ht
  exact hlexemes lexeme hlexeme (hkind ▸ Lexeme.shape_of_piece? hpiece)

/-- Scanning a source by bytes goes on behind every lexeme and cuts no character. The tokens it
gives tile the source, whether or not a literal or a comment is left open at its end. If one is, it
is the last token, which runs to the end of the source. -/
theorem recover_tiles (source : String) :
    Bytewise.recover? source = some (Token.recover source) ∧
    Tiles source (Token.recover source).1 ∧
      match (Token.recover source).2 with
      | none => ∀ t ∈ (Token.recover source).1, t.kind ≠ .trailing
      | some fault =>
        ∃ front last, (Token.recover source).1 = front ++ [last] ∧
          (∀ t ∈ front, t.kind ≠ .trailing) ∧ last.kind = .trailing ∧
          last.offset = fault.offset ∧ last.stop = source.utf8ByteSize := by
  refine ⟨Bytewise.recover?_eq source, ?_, ?_⟩
  · rw [Lexing.recover_eq]
    exact (lex_tiled 0 source.toList).tiles
  · have hcomplete := lex_tokens_ne_trailing source.toList
    have hwhole := lex_append source.toList
    simp only [Token.recover, Lexing.fault, Lexing.trailing]
    cases hunfinished : (lex source.toList).unfinished with
    | none => simpa using hcomplete
    | some unfinished =>
      obtain ⟨cause, rest⟩ := unfinished
      rw [hunfinished] at hwhole
      have hsize := congrArg byteLength hwhole
      rw [byteLength_append, Lexeme.byteLength_flatMap, byteLength_toList] at hsize
      refine ⟨_, _, rfl, hcomplete, rfl, rfl, ?_⟩
      rw [Token.stop, utf8ByteSize_ofList]
      exact hsize

end TriggerDialect
