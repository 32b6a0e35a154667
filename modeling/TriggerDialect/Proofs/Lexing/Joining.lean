import TriggerDialect.Proofs.Lexing.Bytes
import TriggerDialect.Proofs.Lexing.Pieces

/-!
# Cutting and joining texts

The scanner keeps nothing in mind from one lexeme to the next, but it looks at the character after a
lexeme, or at two. `munch_congr` says which changes after a lexeme it does not see. So a text that
is cut between two lexemes is read as before up to the cut (`lex_cut`), and a text is read as before
if a newline and any other text are put after it (`lex_append_line`). Main statements: the strict
and the recovering reader agree, also on what stands before an open literal or comment
(`recover_agrees`), and the tokens of two sources that are joined by a newline are those of the one
and then those of the other (`ofSource_append_line`).
-/

namespace TriggerDialect

open List Text Scan Lexeme
open Token (ofSource recover)

variable {c : Char} {cs rest rest' : List Char} {step : Cut} {unfinished : Unterminated × List Char}
  {source : String}

/-! ### The text after a lexeme -/

/-- A lexeme is cut from another text that goes on with `rest'` after it, if that text ends earlier
or has a blank where it differs, a line comment still ends, and blanks do not go on. -/
theorem munch_congr (h : munch c cs = .ok step) (hcleared : Cleared step.rest rest')
    (hlone : step.rest = ['\''] → rest'.length ≤ 1)
    (hline : startsWith (· != '\n') step.rest = false → startsWith (· != '\n') rest' = false)
    (hblank : step.lexeme.shape = .blank → startsWith isAsciiBlank rest' = false) :
    ∃ xs, step.lexeme.chars = c :: xs ∧ munch c (xs ++ rest') = .ok ⟨step.lexeme, rest'⟩ := by
  obtain ⟨⟨shape, chars⟩, left⟩ := step
  cases shape with
  | token kind =>
    obtain ⟨xs, _, hlexeme, hmunches⟩ := munches_of_token h rfl
    cases hlexeme
    exact ⟨xs, rfl, munches_of_cleared hmunches hcleared hlone⟩
  | comment =>
    have happend := munch_append h
    rcases munch_comment h rfl with ⟨body, rfl, hbody, hends⟩ | ⟨body, rfl, hbody⟩
    · cases happend
      exact ⟨'-' :: body, rfl, munch_lineComment hbody (hline hends)⟩
    · cases happend
      exact ⟨'*' :: body, rfl, munch_blockComment hbody rest'⟩
  | blank =>
    have hall := isAsciiBlank_of_munch_blank h rfl
    obtain ⟨d, xs, rfl⟩ := exists_cons_of_ne_nil (munch_taken_ne_nil h)
    cases munch_append h
    rw [all_cons, Bool.and_eq_true] at hall
    obtain ⟨htake, hdrop⟩ := takeWhile_iff.2 ⟨rfl, hall.2, hblank rfl⟩
    exact ⟨xs, rfl, by rw [munch_blank hall.1, htake, hdrop]; rfl⟩

theorem startsWith_of_isPrefix {p : Char → Bool} (h : rest' <+: rest)
    (hrest : startsWith p rest = false) : startsWith p rest' = false := by
  obtain ⟨more, rfl⟩ := h
  cases rest' with
  | nil => rfl
  | cons d rest' => exact hrest

theorem startsWith_rest_of_blank (h : munch c cs = .ok step) (hshape : step.lexeme.shape = .blank) :
    startsWith isAsciiBlank step.rest = false := by
  rw [munch_blank ((start_of_shape h).1 hshape)] at h
  cases h
  exact startsWith_dropWhile _ _

/-! ### Cutting between lexemes -/

theorem Cleared.of_isPrefix (h : rest' <+: rest) : Cleared rest rest' := by
  obtain ⟨more, rfl⟩ := h
  have hcleared := (Cleared.done more).append rest'
  rwa [append_nil] at hcleared

/-- A text that is cut between two of its lexemes is read as before up to the cut, with nothing left
open. -/
theorem lex_cut {front back : List Lexeme} (h : (lex cs).lexemes = front ++ back) :
    lex (front.flatMap chars) = ⟨front, none⟩ := by
  induction front generalizing cs with
  | nil => exact lex_nil
  | cons lexeme front ih =>
    cases cs with
    | nil =>
      rw [lex_nil] at h
      cases h
    | cons c cs =>
      cases hmunch : munch c cs with
      | error fault =>
        rw [lex_cons_error hmunch] at h
        cases h
      | ok step =>
        rw [lex_cons_ok hmunch] at h
        obtain ⟨rfl, hlater⟩ : step.lexeme = lexeme ∧ (lex step.rest).lexemes = front ++ back :=
          cons.inj h
        have hpart : front.flatMap chars <+: step.rest := by
          rw [← lex_append step.rest, hlater, flatMap_append, append_assoc]
          exact prefix_append _ _
        obtain ⟨xs, hchars, hcut⟩ := munch_congr hmunch (.of_isPrefix hpart)
          (fun hlone => by simpa [hlone] using hpart.length_le)
          (startsWith_of_isPrefix hpart)
          fun hshape => startsWith_of_isPrefix hpart (startsWith_rest_of_blank hmunch hshape)
        rw [flatMap_cons, hchars, cons_append, lex_cons_ok hcut, ih hlater]

theorem ofSource_eq_error (h : (lex source.toList).unfinished = some unfinished) :
    ofSource source = .error ⟨unfinished.1, byteLength (lex source.toList).lexemes,
      position source (byteLength (lex source.toList).lexemes)⟩ := by
  simp [ofSource, Lexing.fault, h]

/-- Where something is left open, both readers stop at its start, and the text before it is read
through. -/
theorem ofSource_of_unfinished (h : (lex source.toList).unfinished = some unfinished) :
    ∃ fault front, source = front ++ String.ofList unfinished.2 ∧
      front.utf8ByteSize = fault.offset ∧ ofSource source = .error fault ∧
      recover source = ((lex source.toList).tokens ++
        [⟨⟨.trailing, String.ofList unfinished.2⟩, fault.offset⟩], some fault) ∧
      ofSource front = .ok (lex source.toList).tokens := by
  have hsource := lex_append source.toList
  have hfront := lex_cut (append_nil (lex source.toList).lexemes).symm
  rw [h, Option.map_some, Option.getD_some] at hsource
  refine ⟨⟨unfinished.1, byteLength (lex source.toList).lexemes,
      position source (byteLength (lex source.toList).lexemes)⟩,
    String.ofList ((lex source.toList).lexemes.flatMap chars), ?_, ?_, ?_, ?_, ?_⟩
  · rw [← String.ofList_append, hsource, String.ofList_toList]
  · rw [utf8ByteSize_ofList, byteLength_flatMap]
  · exact ofSource_eq_error h
  · simp [recover, Lexing.fault, Lexing.trailing, h]
  · rw [ofSource_eq_ok (by rw [String.toList_ofList, hfront]), String.toList_ofList, hfront]
    rfl

/-- The strict and the recovering reader agree. Where nothing is left open both give the same
tokens. Otherwise both give the same fault, the recovering reader keeps the text from the fault on
as one token, and its other tokens are those that the strict reader finds in the text before the
fault. -/
theorem recover_agrees (source : String) :
    (∀ ts, ofSource source = .ok ts ↔ recover source = (ts, none)) ∧
      ∀ fault,
        (ofSource source = .error fault ↔
          ∃ ts front rest, source = front ++ rest ∧ front.utf8ByteSize = fault.offset ∧
            recover source = (ts ++ [⟨⟨.trailing, rest⟩, fault.offset⟩], some fault)) ∧
        ∀ ts front rest, source = front ++ rest → front.utf8ByteSize = fault.offset →
          recover source = (ts ++ [⟨⟨.trailing, rest⟩, fault.offset⟩], some fault) →
          ofSource front = .ok ts := by
  cases hunfinished : (lex source.toList).unfinished with
  | none =>
    have hrecover : recover source = ((lex source.toList).tokens, none) := by
      simp [recover, Lexing.fault, Lexing.trailing, hunfinished]
    rw [ofSource_eq_ok hunfinished, hrecover]
    simp
  | some unfinished =>
    obtain ⟨fault, front, hsource, hoffset, herror, hrecover, hfront⟩ :=
      ofSource_of_unfinished hunfinished
    rw [herror, hrecover]
    refine ⟨by simp, fun fault' => ⟨⟨?_, ?_⟩, ?_⟩⟩
    · rintro ⟨⟩
      exact ⟨_, front, _, hsource, hoffset, rfl⟩
    · rintro ⟨_, _, _, _, _, hpair⟩
      rw [Option.some.inj (Prod.mk.inj hpair).2]
    · intro ts front' rest hsource' _ hpair
      -- what is read from the source settles the tokens and the rest, and with it the front
      obtain ⟨htokens, hlast⟩ := append_inj' (Prod.mk.inj hpair).1 rfl
      simp only [cons.injEq, Token.mk.injEq, Piece.mk.injEq, true_and, and_true] at hlast
      obtain rfl : front = front' := by
        rw [hsource, hlast.1] at hsource'
        exact (String.append_left_inj _).1 hsource'
      rw [hfront, htokens]

/-- An alternative quotation that ends before its delimiter: the letter is a name, and the
apostrophe is left open. -/
theorem recover_agrees_halfWritten :
    ofSource "n q'" = .error ⟨.string, 3, ⟨1, 4⟩⟩ ∧
      recover "n q'" =
        ([⟨⟨.identifier, "n"⟩, 0⟩, ⟨⟨.identifier, "q"⟩, 2⟩] ++ [⟨⟨.trailing, "'"⟩, 3⟩],
          some ⟨.string, 3, ⟨1, 4⟩⟩) ∧
      ofSource "n q" = .ok [⟨⟨.identifier, "n"⟩, 0⟩, ⟨⟨.identifier, "q"⟩, 2⟩] := by
  have hrecover : recover "n q'" =
      ([⟨⟨.identifier, "n"⟩, 0⟩, ⟨⟨.identifier, "q"⟩, 2⟩] ++ [⟨⟨.trailing, "'"⟩, 3⟩],
        some ⟨.string, 3, ⟨1, 4⟩⟩) := by decide +kernel
  obtain ⟨hfails, hfront⟩ := (recover_agrees "n q'").2 ⟨.string, 3, ⟨1, 4⟩⟩
  exact ⟨hfails.2 ⟨_, "n q", "'", rfl, rfl, hrecover⟩, hrecover,
    hfront _ "n q" "'" rfl rfl hrecover⟩

/-! ### Joining by a newline -/

/-- A text is read as before if a newline and another text follow, which is read as it is alone. -/
theorem lex_append_line {front : List Char} (h : (lex front).unfinished = none) (back : List Char) :
    (lex (front ++ '\n' :: back)).unfinished = (lex back).unfinished ∧
      ∀ offset, placed offset (lex (front ++ '\n' :: back)).lexemes =
        placed offset (lex front).lexemes ++
          placed (offset + byteLength front + 1) (lex back).lexemes := by
  induction front using lex.induct with
  | case1 =>
    rw [lex_nil]
    exact lex_blank rfl back
  | case2 c cs fault hmunch =>
    rw [lex_cons_error hmunch] at h
    cases h
  | case3 c cs step hmunch hlt ih =>
    rw [lex_cons_ok hmunch] at h
    obtain ⟨hunfinished, hplaced⟩ := ih h
    rw [lex_cons_ok hmunch, ← munch_append hmunch, append_assoc]
    by_cases hshape : step.lexeme.shape = .blank
    · -- the newline may go on with the blanks
      obtain ⟨hsame, hmoved⟩ := lex_blanks (isAsciiBlank_of_munch_blank hmunch hshape)
        (step.rest ++ '\n' :: back)
      refine ⟨hsame.trans hunfinished, fun offset => ?_⟩
      rw [hmoved, hplaced, placed, if_pos hshape, byteLength_append]
      simp only [Nat.add_assoc]
    · have hcleared : Cleared step.rest (step.rest ++ '\n' :: back) := by
        have hblank : Cleared [] ('\n' :: back) := .blank rfl [] back
        have happend := hblank.append step.rest
        rwa [append_nil] at happend
      have hline : startsWith (· != '\n') step.rest = false →
          startsWith (· != '\n') (step.rest ++ '\n' :: back) = false := by
        intro hends
        cases hrest : step.rest with
        | nil => rfl
        | cons d rest => rwa [hrest] at hends
      have hreads : Reads step.rest _ := ⟨h, rfl⟩
      obtain ⟨xs, hchars, hjoined⟩ := munch_congr hmunch hcleared
        (fun hlone => absurd hlone hreads.ne_apostrophe) hline fun hblank => absurd hblank hshape
      rw [hchars, cons_append, lex_cons_ok hjoined]
      refine ⟨hunfinished, fun offset => ?_⟩
      rw [placed, placed, if_neg hshape, if_neg hshape, hplaced, hchars, byteLength_append]
      simp [Nat.add_assoc]

namespace Text

/-- A walk to an offset after a line feed counts the line feeds before it. -/
theorem positionFrom_append_line {offset here : Nat} (line lineStart : Nat) (front back : List Char)
    (h : here + byteLength front + 1 ≤ offset) :
    positionFrom offset here line lineStart (front ++ '\n' :: back) =
      positionFrom offset (here + byteLength front + 1) (line + front.count '\n' + 1)
        (here + byteLength front + 1) back := by
  induction front generalizing here line lineStart with
  | nil =>
    have hlt : ¬offset ≤ here := by
      rw [byteLength_nil] at h
      omega
    simp [positionFrom, hlt]
  | cons c front ih =>
    have hpos := c.utf8Size_pos
    rw [byteLength_cons, ← Nat.add_assoc] at h ⊢
    have hlt : ¬offset ≤ here := by omega
    rw [cons_append, positionFrom, if_neg hlt, count_cons]
    split
    · rename_i hc
      subst hc
      have hsize : Char.utf8Size '\n' = 1 := rfl
      rw [hsize] at h ⊢
      have hlines : line + 1 + front.count '\n' = line + (front.count '\n' + 1) := by omega
      rw [ih _ _ h, hlines, beq_self_eq_true, if_pos rfl]
    · rename_i hc
      rw [ih _ _ h]
      simp [hc]

/-- A walk goes the same way from a later place. -/
theorem positionFrom_add (before lines offset here line lineStart : Nat) (cs : List Char) :
    positionFrom (before + offset) (before + here) (lines + line) (before + lineStart) cs =
      ⟨lines + (positionFrom offset here line lineStart cs).line,
        (positionFrom offset here line lineStart cs).column⟩ := by
  induction cs generalizing here line lineStart with
  | nil =>
    simp only [positionFrom, Position.mk.injEq, true_and]
    omega
  | cons c cs ih =>
    simp only [positionFrom, Nat.add_le_add_iff_left, Nat.add_assoc]
    split
    · simp only [Position.mk.injEq, true_and]
      omega
    · split
      · exact ih _ _ _
      · exact ih _ _ _

/-- The second of two texts joined by a newline starts a line of its own. -/
theorem position_append_line (front back : String) (offset : Nat) :
    position (front ++ "\n" ++ back) (front.utf8ByteSize + 1 + offset) =
      ⟨front.toList.count '\n' + 1 + (position back offset).line,
        (position back offset).column⟩ := by
  have htext : (front ++ "\n" ++ back).toList = front.toList ++ '\n' :: back.toList := by simp
  have hle : 0 + byteLength front.toList + 1 ≤ front.utf8ByteSize + 1 + offset := by
    rw [byteLength_toList]
    omega
  have hadd := positionFrom_add (front.utf8ByteSize + 1) (front.toList.count '\n' + 1) offset 0 1 0
    back.toList
  rw [position, position, htext, positionFrom_append_line 1 0 _ _ hle, ← hadd, byteLength_toList,
    Nat.zero_add, Nat.add_zero, Nat.add_comm 1, Nat.add_right_comm]

end Text

/-- A token as it stands after a text of so many bytes. -/
def Token.after (bytes : Nat) (t : Token) : Token := { t with offset := bytes + t.offset }

/-- A fault as it stands in a source after another one and a newline. -/
def LexFault.afterLine (front : String) (fault : LexFault) : LexFault where
  cause := fault.cause
  offset := front.utf8ByteSize + 1 + fault.offset
  position := ⟨front.toList.count '\n' + 1 + fault.position.line, fault.position.column⟩

theorem Lexeme.tokensFrom_add (before offset : Nat) (lexemes : List Lexeme) :
    tokensFrom (before + offset) lexemes =
      (tokensFrom offset lexemes).map (Token.after before) := by
  induction lexemes generalizing offset with
  | nil => rfl
  | cons lexeme rest ih =>
    have hlater := ih (offset + Text.byteLength lexeme.chars)
    rw [← Nat.add_assoc] at hlater
    simp only [tokensFrom, hlater]
    cases lexeme.shape <;> rfl

theorem byteLength_lex (cs : List Char) :
    byteLength (lex cs).lexemes +
      byteLength (((lex cs).unfinished.map Prod.snd).getD []) = byteLength cs := by
  rw [← byteLength_flatMap, ← byteLength_append, lex_append]

/-- A source that is read through, a newline and a second source have the tokens of the one and then
those of the other. If the second one leaves something open, so do both, at the same place of it. -/
theorem ofSource_append_line (front back : String) {ts : List Token}
    (h : ofSource front = .ok ts) :
    ofSource (front ++ "\n" ++ back) =
      ((ofSource back).map fun us =>
        ts ++ us.map (Token.after (front.utf8ByteSize + 1))).mapError
          (LexFault.afterLine front) := by
  obtain ⟨hread, rfl⟩ := unfinished_of_ofSource h
  have htext : (front ++ "\n" ++ back).toList = front.toList ++ '\n' :: back.toList := by simp
  obtain ⟨hunfinished, hplaced⟩ := lex_append_line hread back.toList
  rw [← htext] at hunfinished hplaced
  cases hback : (lex back.toList).unfinished with
  | none =>
    have htokens : (lex (front ++ "\n" ++ back).toList).tokens = (lex front.toList).tokens ++
        (lex back.toList).tokens.map (Token.after (front.utf8ByteSize + 1)) := by
      rw [Lexing.tokens, tokensFrom_eq, hplaced, filterMap_append, ← tokensFrom_eq, ← tokensFrom_eq,
        byteLength_toList, Nat.zero_add]
      rw [← Nat.add_zero (front.utf8ByteSize + 1), tokensFrom_add]
      rfl
    rw [ofSource_eq_ok hback, ofSource_eq_ok (hunfinished.trans hback), htokens]
    rfl
  | some unfinished =>
    have hoffset : byteLength (lex (front ++ "\n" ++ back).toList).lexemes =
        front.utf8ByteSize + 1 + byteLength (lex back.toList).lexemes := by
      have hjoined := byteLength_lex (front ++ "\n" ++ back).toList
      have halone := byteLength_lex back.toList
      have hsize : byteLength (front ++ "\n" ++ back).toList =
          front.utf8ByteSize + (1 + byteLength back.toList) := by
        rw [htext, byteLength_append, byteLength_cons, byteLength_toList front]
        rfl
      rw [hunfinished] at hjoined
      omega
    rw [ofSource_eq_error hback, ofSource_eq_error (hunfinished.trans hback), hoffset,
      position_append_line]
    rfl

/-- A line comment that would hide what follows it, and a second source that leaves a comment open
after a literal. -/
theorem ofSource_append_line_comment :
    ofSource "q -- it's" = .ok [⟨⟨.identifier, "q"⟩, 0⟩] ∧
      ofSource ("q -- it's" ++ "\n" ++ "'[x]' b") =
        .ok [⟨⟨.identifier, "q"⟩, 0⟩, ⟨⟨.stringLiteral, "'[x]'"⟩, 10⟩, ⟨⟨.identifier, "b"⟩, 16⟩] ∧
      ofSource ("q -- it's" ++ "\n" ++ "'x' /*") = .error ⟨.comment, 14, ⟨2, 5⟩⟩ := by
  have hlexed : (lex "q -- it's".toList).unfinished = none ∧
      (lex "q -- it's".toList).tokens = [⟨⟨.identifier, "q"⟩, 0⟩] ∧
      (lex "'[x]' b".toList).unfinished = none ∧
      (lex "'[x]' b".toList).tokens =
        [⟨⟨.stringLiteral, "'[x]'"⟩, 0⟩, ⟨⟨.identifier, "b"⟩, 6⟩] ∧
      (lex "'x' /*".toList).unfinished = some (.comment, ['/', '*']) ∧
      byteLength (lex "'x' /*".toList).lexemes = 4 := by decide +kernel
  obtain ⟨hread, htokens, hliteral, hliteralTokens, hopen, hoffset⟩ := hlexed
  have hfront := ofSource_eq_ok hread
  rw [htokens] at hfront
  refine ⟨hfront, ?_, ?_⟩
  · rw [ofSource_append_line _ _ hfront, ofSource_eq_ok hliteral, hliteralTokens]
    rfl
  · rw [ofSource_append_line _ _ hfront, ofSource_eq_error hopen, hoffset]
    rfl

end TriggerDialect
