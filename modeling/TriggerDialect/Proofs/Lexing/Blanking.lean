import TriggerDialect.Proofs.Lexing.Bytes
import TriggerDialect.Proofs.Lexing.Pieces

/-!
# Comments blanked out

Blanking out the comments of a source turns each byte inside a comment into a space, newlines apart,
and leaves all other bytes as they are (`getElem?_blanked`). The tokens keep their places, and there
is nothing left to blank out (`blankComments_blanked`).
-/

namespace TriggerDialect

open List Lexeme

variable {cs : List Char} {source : String}

namespace Text

/-- The byte of a text at an offset. -/
def byteAt? (s : String) (i : Nat) : Option UInt8 := s.toUTF8.data[i]?

/-- A newline in UTF-8. -/
def newline : UInt8 := '\n'.toUInt8

/-- What a byte of a comment is turned into. -/
def blankByte (b : UInt8) : UInt8 := if b = newline then newline else ' '.toUInt8

theorem byteAt?_ofList (cs : List Char) (i : Nat) :
    byteAt? (String.ofList cs) i = (bytes cs)[i]? := by
  rw [byteAt?, toUTF8_ofList, data_toByteArray, getElem?_toArray]

theorem byteAt?_eq (s : String) (i : Nat) : byteAt? s i = (bytes s.toList)[i]? := by
  rw [← byteAt?_ofList, String.ofList_toList]

theorem blankByte_eq_newline_iff {b : UInt8} : blankByte b = newline ↔ b = newline := by
  unfold blankByte
  split
  · simp [*]
  · rename_i hb
    simp only [hb, iff_false]
    decide

/-- A newline is a byte of no other character. -/
theorem newline_notMem {c : Char} (h : c ≠ '\n') : newline ∉ String.utf8EncodeChar c := by
  have hhigh : ∀ {n : Nat}, 128 ≤ n → n < 256 → newline ≠ UInt8.ofNat n := by
    intro n hle hlt heq
    have hnat := congrArg UInt8.toNat heq
    rw [UInt8.toNat_ofNat', Nat.mod_eq_of_lt hlt] at hnat
    have hline : newline.toNat = 10 := rfl
    omega
  unfold String.utf8EncodeChar
  simp only
  split
  · rename_i hlow
    simp only [mem_singleton]
    intro heq
    have hnat := congrArg UInt8.toNat heq
    rw [UInt8.toNat_ofNat', Nat.mod_eq_of_lt (by omega)] at hnat
    exact h (Char.ext (UInt32.toNat_inj.1 hnat.symm))
  · split
    · simp only [mem_cons, not_mem_nil, or_false, not_or]
      refine ⟨?_, ?_⟩ <;> exact hhigh (by omega) (by omega)
    · split
      · simp only [mem_cons, not_mem_nil, or_false, not_or]
        refine ⟨?_, ?_, ?_⟩ <;> exact hhigh (by omega) (by omega)
      · simp only [mem_cons, not_mem_nil, or_false, not_or]
        refine ⟨?_, ?_, ?_, ?_⟩ <;> exact hhigh (by omega) (by omega)

theorem bytes_spaces (n : Nat) : bytes (replicate n ' ') = replicate n ' '.toUInt8 := by
  induction n with
  | zero => rfl
  | succ n ih =>
    rw [replicate_succ, bytes_cons, ih]
    rfl

/-- The blanks in place of one character of a comment, byte by byte. -/
theorem bytes_blanks (c : Char) :
    bytes (if c = '\n' then ['\n'] else replicate c.utf8Size ' ') =
      (String.utf8EncodeChar c).map blankByte := by
  split
  · rename_i hc
    subst hc
    decide
  · rename_i hc
    rw [bytes_spaces, ← String.length_utf8EncodeChar, eq_comm, map_eq_replicate_iff]
    intro b hb
    refine if_neg fun heq => newline_notMem hc ?_
    exact heq ▸ hb

end Text

namespace Lexeme

open Text (bytes blankByte)

variable {lexemes : List Lexeme}

/-- Whether the byte at an offset is inside one of the comments. -/
def inComment (placed : List (Nat × Lexeme)) (i : Nat) : Bool :=
  placed.any fun entry =>
    entry.2.shape == .comment && decide (entry.1 ≤ i) &&
      decide (i < entry.1 + Text.byteLength entry.2.chars)

theorem bytes_withoutComment (lexeme : Lexeme) :
    bytes lexeme.withoutComment =
      (bytes lexeme.chars).map (if lexeme.shape == .comment then blankByte else id) := by
  by_cases hshape : lexeme.shape = .comment
  · simp only [withoutComment, hshape, beq_self_eq_true, if_true]
    induction lexeme.chars with
    | nil => rfl
    | cons c chars ih =>
      rw [flatMap_cons, Text.bytes_append, Text.bytes_blanks, ih, Text.bytes_cons, map_append]
  · rw [withoutComment_of_ne hshape, if_neg (by simpa using hshape), map_id]

variable {offset i : Nat} {lexeme : Lexeme} {rest : List Lexeme}

theorem le_of_mem_placed {entry : Nat × Lexeme} (h : entry ∈ placed offset lexemes) :
    offset ≤ entry.1 := by
  induction lexemes generalizing offset with
  | nil => cases h
  | cons lexeme rest ih =>
    rw [placed] at h
    split at h
    · have hle := ih h
      omega
    · rcases mem_cons.1 h with rfl | h
      · exact Nat.le_refl _
      · have hle := ih h
        omega

/-- A byte of the first lexeme is inside a comment if that is one. -/
theorem inComment_head (hi : i < Text.byteLength lexeme.chars) :
    inComment (placed offset (lexeme :: rest)) (offset + i) = (lexeme.shape == .comment) := by
  have hlater : inComment (placed (offset + Text.byteLength lexeme.chars) rest) (offset + i) =
      false := by
    rw [inComment, any_eq_false]
    intro entry hentry
    have hle := le_of_mem_placed hentry
    have hbefore : ¬entry.1 ≤ offset + i := by omega
    simp [hbefore]
  rw [placed]
  split
  · rename_i hblank
    rw [hlater, hblank]
    rfl
  · rw [inComment, any_cons]
    rw [inComment] at hlater
    simp [hlater, hi]

theorem inComment_tail (hi : Text.byteLength lexeme.chars ≤ i) :
    inComment (placed offset (lexeme :: rest)) (offset + i) =
      inComment (placed (offset + Text.byteLength lexeme.chars) rest) (offset + i) := by
  rw [placed]
  split
  · rfl
  · have hafter : ¬i < Text.byteLength lexeme.chars := by omega
    simp [inComment, hafter]

/-- Blanking out comments changes the bytes inside them, one by one, and no others. -/
theorem getElem?_blanked (offset : Nat) (lexemes : List Lexeme) (i : Nat) :
    (bytes (lexemes.flatMap withoutComment))[i]? =
      ((bytes (lexemes.flatMap chars))[i]?).map
        (if inComment (placed offset lexemes) (offset + i) then blankByte else id) := by
  induction lexemes generalizing offset i with
  | nil => rfl
  | cons lexeme rest ih =>
    have hlength : (bytes lexeme.withoutComment).length = (bytes lexeme.chars).length := by
      rw [Text.length_bytes, Text.length_bytes, byteLength_withoutComment]
    simp only [flatMap_cons, Text.bytes_append, getElem?_append, hlength]
    simp only [Text.length_bytes]
    split
    · rename_i hi
      rw [inComment_head hi, bytes_withoutComment, getElem?_map]
    · rename_i hi
      have hle : Text.byteLength lexeme.chars ≤ i := by omega
      have hplace : offset + Text.byteLength lexeme.chars + (i - Text.byteLength lexeme.chars) =
          offset + i := by omega
      rw [ih (offset + Text.byteLength lexeme.chars), hplace, inComment_tail hle]

theorem exists_mem_placed (offset : Nat) (hmem : lexeme ∈ lexemes) (hshape : lexeme.shape ≠ .blank)
    : ∃ start, (start, lexeme) ∈ placed offset lexemes := by
  induction lexemes generalizing offset with
  | nil => cases hmem
  | cons first rest ih =>
    rw [placed]
    rcases mem_cons.1 hmem with rfl | hmem
    · exact ⟨offset, by simp [hshape]⟩
    · obtain ⟨start, hstart⟩ := ih (offset + Text.byteLength first.chars) hmem
      refine ⟨start, ?_⟩
      split
      · exact hstart
      · exact mem_cons_of_mem _ hstart

end Lexeme

theorem flatMap_chars_lex (h : (lex cs).unfinished = none) :
    (lex cs).lexemes.flatMap chars = cs := by
  have hwhole := lex_append cs
  rwa [h, Option.map_none, Option.getD_none, append_nil] at hwhole

theorem byteLength_cleared (h : (lex cs).unfinished = none) :
    Text.byteLength (cleared cs) = Text.byteLength cs := by
  have hsum : ∀ lexemes : List Lexeme, Text.byteLength (lexemes.flatMap withoutComment) =
      Text.byteLength (lexemes.flatMap chars) := by
    intro lexemes
    induction lexemes with
    | nil => rfl
    | cons lexeme rest ih =>
      rw [flatMap_cons, flatMap_cons, Text.byteLength_append, Text.byteLength_append, ih,
        byteLength_withoutComment]
  rw [cleared, hsum, flatMap_chars_lex h]

/-- A text whose comments are blanked out has none. -/
theorem cleared_cleared (h : (lex cs).unfinished = none) : cleared (cleared cs) = cleared cs := by
  have hyields : Yields 0 cs _ := ⟨h, rfl⟩
  obtain ⟨hunfinished, hplaced⟩ := yields_cleared hyields
  have hnone : ∀ lexeme ∈ (lex (cleared cs)).lexemes, lexeme.withoutComment = lexeme.chars := by
    intro lexeme hlexeme
    refine withoutComment_of_ne fun hshape => ?_
    obtain ⟨start, hstart⟩ :=
      exists_mem_placed 0 hlexeme (by rw [hshape]; exact Shape.noConfusion)
    rw [hplaced, mem_filter] at hstart
    simp [isNoComment, hshape] at hstart
  rw [cleared, flatMap_def, map_congr_left hnone, ← flatMap_def]
  exact flatMap_chars_lex hunfinished

open Text (byteAt? newline blankByte)

/-- Whether the byte of a source at an offset is inside a comment. -/
def inComment (source : String) (i : Nat) : Bool :=
  Lexeme.inComment (Lexeme.placed 0 (lex source.toList).lexemes) i

/-- The second text is the source with its comments blanked out. -/
structure Blanked (source blanked : String) : Prop where
  size_eq : blanked.utf8ByteSize = source.utf8ByteSize
  newline_iff : ∀ i, byteAt? blanked i = some newline ↔ byteAt? source i = some newline
  outside : ∀ i, inComment source i = false → byteAt? blanked i = byteAt? source i
  inside : ∀ i, inComment source i → byteAt? blanked i = (byteAt? source i).map blankByte
  tokens_eq : Token.ofSource blanked = Token.ofSource source
  fixed : blankComments blanked = .ok blanked

theorem ofSource_cleared (h : (lex source.toList).unfinished = none) :
    Token.ofSource (String.ofList (cleared source.toList)) = Token.ofSource source := by
  have hyields : Yields 0 source.toList _ := ⟨h, rfl⟩
  obtain ⟨hunfinished, hplaced⟩ := yields_cleared hyields
  rw [ofSource_eq_ok h, ofSource_eq_ok (by rwa [String.toList_ofList]), String.toList_ofList,
    Lexing.tokens, Lexing.tokens, tokensFrom_eq, tokensFrom_eq, hplaced,
    filterMap_tokenAt?]

theorem blanked_cleared (h : (lex source.toList).unfinished = none) :
    Blanked source (String.ofList (cleared source.toList)) := by
  have hbyte : ∀ i, byteAt? (String.ofList (cleared source.toList)) i =
      (byteAt? source i).map (if inComment source i then blankByte else id) := by
    intro i
    rw [Text.byteAt?_ofList, Text.byteAt?_eq, cleared, Lexeme.getElem?_blanked 0,
      flatMap_chars_lex h, Nat.zero_add, inComment]
  constructor
  case size_eq =>
    rw [Text.utf8ByteSize_ofList, byteLength_cleared h, Text.byteLength_toList]
  case newline_iff =>
    intro i
    rw [hbyte]
    split
    · cases byteAt? source i with
      | none => simp
      | some b => simp [Text.blankByte_eq_newline_iff]
    · rw [Option.map_id, id]
  case outside =>
    intro i hi
    rw [hbyte, hi, if_neg Bool.false_ne_true, Option.map_id, id]
  case inside =>
    intro i hi
    rw [hbyte, if_pos hi]
  case tokens_eq => exact ofSource_cleared h
  case fixed =>
    have hyields : Yields 0 source.toList _ := ⟨h, rfl⟩
    have hunfinished := (yields_cleared hyields).1
    rw [blankComments_eq_ok (by rwa [String.toList_ofList]), String.toList_ofList,
      cleared_cleared h]

/-- Blanking out comments fails as reading the tokens does. Where it does not fail, the lexer cannot
tell the result from the source. -/
theorem blankComments_blanked (source : String) :
    (∀ fault, blankComments source = .error fault ↔ Token.ofSource source = .error fault) ∧
      ∀ blanked, blankComments source = .ok blanked → Blanked source blanked := by
  cases hunfinished : (lex source.toList).unfinished with
  | some unfinished => simp [blankComments, Token.ofSource, Lexing.fault, hunfinished]
  | none =>
    rw [blankComments_eq_ok hunfinished, ofSource_eq_ok hunfinished]
    refine ⟨by simp, fun blanked hblanked => ?_⟩
    cases hblanked
    exact blanked_cleared hunfinished

/-- Two comments with characters of two bytes, one of them on two lines. -/
theorem blankComments_twoByte :
    blankComments "a--é\n/*ü\n*/b" = .ok "a    \n    \n  b" ∧
      Blanked "a--é\n/*ü\n*/b" "a    \n    \n  b" := by
  have hread : (lex "a--é\n/*ü\n*/b".toList).unfinished = none ∧
      String.ofList (cleared "a--é\n/*ü\n*/b".toList) = "a    \n    \n  b" := by decide +kernel
  have hblanked : blankComments "a--é\n/*ü\n*/b" = .ok "a    \n    \n  b" := by
    rw [blankComments_eq_ok hread.1, hread.2]
  exact ⟨hblanked, (blankComments_blanked _).2 _ hblanked⟩

end TriggerDialect
