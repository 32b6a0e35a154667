import TriggerDialect.Proofs.Lexing.Bytes
import TriggerDialect.Proofs.Lexing.Munch
import TriggerDialect.Token.Stream

/-!
# Scanning by bytes

A source is kept as bytes of UTF-8, and the scanner goes through them by their offsets. It looks at
single bytes, and it cuts text out of the source between two offsets. A cut fails inside a
character, and a step of no bytes would be taken for ever; `Bytewise.recover?` has no result in
either case. Main statement: it has one for every source, and this is what the characters give
(`Bytewise.recover?_eq`).
-/

namespace TriggerDialect

open List Text Scan Option

namespace Text

/-- The characters behind so many bytes, unless that is inside a character or past the end. -/
def skip? : Nat → List Char → Option (List Char)
  | 0, cs => some cs
  | _ + 1, [] => none
  | n + 1, c :: cs => if c.utf8Size ≤ n + 1 then skip? (n + 1 - c.utf8Size) cs else none

/-- The text between two bytes of a source, if neither is inside a character or past the end and
they are in order. -/
def slice? (source : String) (start stop : Nat) : Option String :=
  (skip? start source.toList).bind fun front =>
    (skip? stop source.toList).bind fun rest =>
      if start ≤ stop then some (String.ofList (front.take (front.length - rest.length))) else none

/-- The text from a byte of a source on. -/
def tail? (source : String) (start : Nat) : Option String := slice? source start source.utf8ByteSize

end Text

namespace Bytewise

/-! ### The scanner -/

/-- The character with the code of a byte, which is what a byte is compared with. -/
def glyph (b : UInt8) : Char := Char.ofNat b.toNat

/-- Whether bytes start with one of a class. -/
def startsWith (p : Char → Bool) (bs : List UInt8) : Bool := bs.head?.any fun b => p (glyph b)

/-- The number of bytes of a class at the start. -/
def run (p : Char → Bool) (bs : List UInt8) : Nat := (bs.takeWhile fun b => p (glyph b)).length

/-- The number of bytes through the first `quote` that is not doubled. -/
def quoted (quote : Char) : List UInt8 → Option Nat
  | [] => none
  | [b] => if glyph b = quote then some 1 else none
  | b :: d :: rest =>
    if glyph b = quote then
      if glyph d = quote then (quoted quote rest).map (· + 2) else some 1
    else (quoted quote (d :: rest)).map (· + 1)

/-- The number of bytes through the first `first` that is directly followed by `second`. -/
def throughPair (first second : Char) : List UInt8 → Option Nat
  | [] => none
  | [_] => none
  | b :: d :: rest =>
    if glyph b = first ∧ glyph d = second then some 2
    else (throughPair first second (d :: rest)).map (· + 1)

/-- The bytes of a decimal point and the digits after it, if there are any. -/
def fraction (bs : List UInt8) : Nat :=
  if startsWith (· == '.') bs && startsWith Char.isDigit (bs.drop 1) then
    1 + run Char.isDigit (bs.drop 1)
  else 0

/-- The bytes of an exponent mark, an optional sign and digits, if all of it is there. -/
def exponent (bs : List UInt8) : Nat :=
  let digitsAt := if startsWith (fun c => c == '+' || c == '-') (bs.drop 1) then 2 else 1
  if startsWith (fun c => c == 'e' || c == 'E') bs &&
      startsWith Char.isDigit (bs.drop digitsAt) then
    digitsAt + run Char.isDigit (bs.drop digitsAt)
  else 0

/-- The bytes of a number. -/
def number (bs : List UInt8) : Nat :=
  let digits := run Char.isDigit bs
  let decimals := digits + fraction (bs.drop digits)
  decimals + exponent (bs.drop decimals)

/-- The bytes of names with dots between them. -/
def dottedName : List UInt8 → Nat
  | [] => 0
  | b :: bs =>
    if isNamePart (glyph b) || (glyph b == '.' && startsWith isNameStart bs) then
      dottedName bs + 1
    else 0

/-- The number of bytes of a character, from its first one. -/
def width (b : UInt8) : Nat :=
  if 0xf0 ≤ b.toNat then 4 else if 0xe0 ≤ b.toNat then 3 else if 0xc0 ≤ b.toNat then 2 else 1

/-- The bytes of the operator at the start of a text whose first byte is `b`. -/
def operator (b : UInt8) (text : String) : Nat :=
  if pairOperators.any fun op => [op.1, op.2].isPrefixOf text.toList then 2 else width b

/-- The class of the lexeme that starts with a byte. A second dot is looked for later. -/
def start (b : UInt8) (bs : List UInt8) : Scan.Start :=
  let c := glyph b
  if isAsciiBlank c then .blank
  else if c == '-' && startsWith (· == '-') bs then .lineComment
  else if c == '/' && startsWith (· == '*') bs then .blockComment
  else if c == '\'' then .string
  else if (c == 'q' || c == 'Q') && startsWith (· == '\'') bs && 2 ≤ bs.length then
    .alternativeString
  else if (c == 'n' || c == 'N') && startsWith (· == '\'') bs then .nationalString
  else if c == '"' then .quotedName
  else if c.isDigit || (c == '.' && startsWith Char.isDigit bs) then .number
  else if isNameStart c then .word
  else if c == ':' && startsWith isNameStart bs then .bindVariable
  else if isMark c then .mark
  else .operator

/-- What a step finds: a shape and a number of bytes, or what is left open. -/
abbrev Found := Except Unterminated (Shape × Nat)

/-- A lexeme of `lead` bytes and those through its closing mark, which may be missing. -/
def closed (fault : Unterminated) (shape : Shape) (lead : Nat) (size : Option Nat) : Found :=
  match size with
  | none => .error fault
  | some size => .ok (shape, lead + size)

/-- The lexeme at byte `here`, where `b` and then `bs` stand. -/
def step (source : String) (here : Nat) (b : UInt8) (bs : List UInt8) : Option Found :=
  match start b bs with
  | .blank => some (.ok (.blank, run isAsciiBlank (b :: bs)))
  | .lineComment => some (.ok (.comment, run (· != '\n') (b :: bs)))
  | .blockComment =>
    (tail? source (here + 2)).map fun body =>
      closed .comment .comment 2 (throughPair '*' '/' (bytes body.toList))
  | .string => some (closed .string (.token .stringLiteral) 1 (quoted '\'' bs))
  | .alternativeString =>
    let closing := closingDelimiter (glyph (bs.getD 1 0))
    some (closed .string (.token .stringLiteral) 3 (throughPair closing '\'' (bs.drop 2)))
  | .nationalString => some (closed .string (.token .stringLiteral) 2 (quoted '\'' (bs.drop 1)))
  | .quotedName => some (closed .string (.token .identifier) 1 (quoted '"' bs))
  | .number => some (.ok (.token .numericLiteral, number (b :: bs)))
  | .word =>
    let size := run isNamePart (b :: bs)
    (slice? source here (here + size)).map fun name =>
      .ok (.token (if isReserved name then .keyword else .identifier), size)
  | .bindVariable => some (.ok (.token .bindVariable, 1 + dottedName bs))
  | .mark =>
    (tail? source here).map fun text =>
      if ['.', '.'].isPrefixOf text.toList then .ok (.token .operator, operator b text)
      else .ok (.token .punctuation, 1)
  | .operator =>
    (tail? source here).map fun text => .ok (.token .operator, operator b text)

theorem bytes_left {bs : List UInt8} {here size : Nat} {b : UInt8} {rest : List UInt8}
    (h : bs.drop here = b :: rest) (hsize : size ≠ 0) :
    bs.length - (here + size) < bs.length - here := by
  have hlength := congrArg length h
  rw [length_drop, length_cons] at hlength
  omega

/-- The tokens from a byte of a source on, with what is left open and where. -/
def tokensFrom? (source : String) (here : Nat) :
    Option (List Token × Option (Unterminated × Nat)) :=
  match h : (bytes source.toList).drop here with
  | [] => some ([], none)
  | b :: bs =>
    match step source here b bs with
    | none => none
    | some (.error fault) =>
      (tail? source here).map fun text => ([⟨⟨.trailing, text⟩, here⟩], some (fault, here))
    | some (.ok (shape, size)) =>
      if hsize : size = 0 then none
      else
        have := bytes_left h hsize
        match shape with
        | .token kind =>
          (slice? source here (here + size)).bind fun text =>
            (tokensFrom? source (here + size)).map fun later =>
              (⟨⟨kind, text⟩, here⟩ :: later.1, later.2)
        | .blank | .comment => tokensFrom? source (here + size)
termination_by (bytes source.toList).length - here
decreasing_by all_goals exact this

/-- The tokens of a source, an unterminated rest being one last token. -/
def recover? (source : String) : Option (List Token × Option LexFault) :=
  (tokensFrom? source 0).map fun found =>
    (found.1, found.2.map fun left => ⟨left.1, left.2, position source left.2⟩)

end Bytewise

/-! ### Cuts -/

namespace Text

variable {source : String}

theorem skip?_append (front rest : List Char) :
    skip? (byteLength front) (front ++ rest) = some rest := by
  induction front with
  | nil => cases rest <;> rfl
  | cons c front ih =>
    have hpos : 0 < c.utf8Size := c.utf8Size_pos
    obtain ⟨n, hn⟩ : ∃ n, byteLength (c :: front) = n + 1 :=
      Nat.exists_eq_add_one.2 (by rw [byteLength_cons]; omega)
    have hleft : n + 1 - c.utf8Size = byteLength front := by
      rw [← hn, byteLength_cons, Nat.add_sub_cancel_left]
    rw [hn, cons_append, skip?, if_pos (by rw [← hn, byteLength_cons]; omega), hleft, ih]

theorem slice?_append {front chars rest : List Char}
    (h : source.toList = front ++ (chars ++ rest)) :
    slice? source (byteLength front) (byteLength front + byteLength chars) =
      some (String.ofList chars) := by
  have hrest := skip?_append (front ++ chars) rest
  rw [byteLength_append, append_assoc] at hrest
  rw [slice?, h, skip?_append, hrest, bind_some, bind_some, if_pos (Nat.le_add_right _ _),
    length_append, Nat.add_sub_cancel, take_left]

theorem tail?_append {front rest : List Char} (h : source.toList = front ++ rest) :
    tail? source (byteLength front) = some (String.ofList rest) := by
  have hsize : source.utf8ByteSize = byteLength front + byteLength rest := by
    rw [← byteLength_toList, h, byteLength_append]
  have hall : source.toList = front ++ (rest ++ []) := by rw [h, append_nil]
  rw [tail?, hsize, slice?_append hall]

end Text

namespace Bytewise

/-! ### Bytes and characters -/

variable {c : Char} {b : UInt8} {bs block : List UInt8} {cs : List Char} {p : Char → Bool}

theorem toNat_glyph (b : UInt8) : (glyph b).toNat = b.toNat := by
  have hb : b.toNat < 256 := b.toNat_lt
  have hvalid : b.toNat.isValidChar := Or.inl (by omega)
  rw [glyph, Char.ofNat, dif_pos hvalid]
  rfl

/-- A character of ASCII is one byte. -/
theorem encode_ascii (h : c.toNat < 128) : ∃ b, String.utf8EncodeChar c = [b] ∧ glyph b = c := by
  refine ⟨UInt8.ofNat c.toNat, ?_, ?_⟩
  · have hle : c.val.toNat ≤ 127 := Nat.le_of_lt_succ h
    rw [String.utf8EncodeChar]
    exact if_pos hle
  · rw [← Char.toNat_inj, toNat_glyph, UInt8.toNat_ofNat']
    omega

/-- Any other character is a lead byte and tails. -/
theorem encode_wide (h : 128 ≤ c.toNat) :
    ∃ lead tail, String.utf8EncodeChar c = lead :: tail ∧ tail ≠ [] ∧ 192 ≤ (glyph lead).toNat ∧
      ∀ b ∈ tail, 128 ≤ (glyph b).toNat ∧ (glyph b).toNat < 192 := by
  have hnot : ¬c.val.toNat ≤ 127 := Nat.not_le.2 h
  rw [String.utf8EncodeChar]
  simp only [hnot, if_false, toNat_glyph]
  split
  · refine ⟨_, _, rfl, ?_⟩
    simp
    omega
  · split
    · refine ⟨_, _, rfl, ?_⟩
      simp
      omega
    · refine ⟨_, _, rfl, ?_⟩
      simp
      omega

/-- The bytes of a character are all in ASCII or all beyond it, as the character is. -/
theorem glyph_of_mem (h : b ∈ String.utf8EncodeChar c) :
    glyph b = c ∨ 128 ≤ c.toNat ∧ 128 ≤ (glyph b).toNat := by
  by_cases hc : c.toNat < 128
  · obtain ⟨d, hencode, hd⟩ := encode_ascii hc
    rw [hencode, mem_singleton] at h
    exact .inl (h ▸ hd)
  · obtain ⟨lead, tail, hencode, -, hlead, htail⟩ := encode_wide (Nat.not_lt.1 hc)
    rw [hencode, mem_cons] at h
    refine .inr ⟨Nat.not_lt.1 hc, ?_⟩
    rcases h with rfl | h
    · omega
    · exact (htail b h).1

/-- A class that does not tell characters beyond ASCII apart. -/
def Uniform (p : Char → Bool) : Prop :=
  ∀ c d : Char, 128 ≤ c.toNat → 128 ≤ d.toNat → p c = p d

theorem Uniform.of_false (h : ∀ c : Char, 128 ≤ c.toNat → p c = false) : Uniform p :=
  fun c d hc hd => (h c hc).trans (h d hd).symm

theorem Uniform.of_true (h : ∀ c : Char, 128 ≤ c.toNat → p c) : Uniform p :=
  fun c d hc hd => (h c hc).trans (h d hd).symm

/-- Such a class holds of the bytes of a character if it holds of the character. -/
theorem Uniform.glyph (hp : Uniform p) (h : b ∈ String.utf8EncodeChar c) : p (glyph b) = p c := by
  rcases glyph_of_mem h with heq | ⟨hc, hb⟩
  · rw [heq]
  · exact hp _ _ hb hc

theorem ne_of_wide (hc : 128 ≤ c.toNat) (hd : d.toNat < 128) : c ≠ d := by
  rintro rfl
  omega

theorem uniform_eq (hd : d.toNat < 128) : Uniform (· == d) :=
  .of_false fun _ hc => beq_eq_false_iff_ne.2 (ne_of_wide hc hd)

theorem uniform_isDigit : Uniform Char.isDigit := by
  refine .of_false fun c hc => ?_
  simp only [Char.isDigit, Bool.and_eq_false_iff, decide_eq_false_iff_not, UInt32.le_iff_toNat_le]
  exact .inr (Nat.not_le.2 (Nat.lt_of_lt_of_le (by decide) hc))

theorem uniform_isBlank : Uniform isAsciiBlank := by
  refine .of_false fun c hc => ?_
  simp [isAsciiBlank, ne_of_wide hc]

theorem uniform_isNameStart : Uniform isNameStart :=
  .of_true fun c hc => by simp [isNameStart, hc]

theorem uniform_isNamePart : Uniform isNamePart :=
  .of_true fun c hc => by simp [isNamePart, hc]

theorem encode_ne_nil (c : Char) : String.utf8EncodeChar c ≠ [] := by
  intro h
  have hlength := String.length_utf8EncodeChar c
  rw [h, length_nil] at hlength
  exact absurd c.utf8Size_pos (by omega)

theorem bytes_ne_nil (c : Char) (cs : List Char) : bytes (c :: cs) ≠ [] := by
  rw [bytes_cons]
  exact append_ne_nil_of_left_ne_nil (encode_ne_nil c) _

theorem startsWith_bytes (hp : Uniform p) (cs : List Char) :
    startsWith p (bytes cs) = Scan.startsWith p cs := by
  cases cs with
  | nil => rfl
  | cons c cs =>
    obtain ⟨b, bs, hencode⟩ := exists_cons_of_ne_nil (encode_ne_nil c)
    rw [bytes_cons, hencode]
    exact hp.glyph (by rw [hencode]; exact mem_cons_self)

/-- A run of bytes ends where the run of characters does. -/
theorem run_bytes (hp : Uniform p) (cs : List Char) :
    run p (bytes cs) = byteLength (cs.takeWhile p) := by
  rw [run, ← length_bytes]
  congr 1
  induction cs with
  | nil => rfl
  | cons c cs ih =>
    rw [bytes_cons, takeWhile_cons]
    cases hc : p c with
    | true =>
      rw [takeWhile_append_of_pos fun b hb => (hp.glyph hb).trans hc, ih]
      rfl
    | false =>
      obtain ⟨b, bs, hencode⟩ := exists_cons_of_ne_nil (encode_ne_nil c)
      have hb : p (glyph b) = false :=
        (hp.glyph (by rw [hencode]; exact mem_cons_self)).trans hc
      rw [hencode, cons_append, takeWhile_cons, hb]
      rfl

theorem drop_bytes (xs ys : List Char) : (bytes (xs ++ ys)).drop (byteLength xs) = bytes ys := by
  rw [bytes_append, ← length_bytes, drop_left]

/-! ### Quotations -/

theorem bytes_ascii (h : c.toNat < 128) (cs : List Char) :
    ∃ b, bytes (c :: cs) = b :: bytes cs ∧ glyph b = c := by
  obtain ⟨b, hencode, hb⟩ := encode_ascii h
  exact ⟨b, by rw [bytes_cons, hencode]; rfl, hb⟩

theorem utf8Size_ascii (h : c.toNat < 128) : c.utf8Size = 1 := by
  obtain ⟨b, hencode, -⟩ := encode_ascii h
  rw [← String.length_utf8EncodeChar, hencode, length_singleton]

theorem glyph_ne_of_mem (hd : d.toNat < 128) (hne : c ≠ d) (h : b ∈ String.utf8EncodeChar c) :
    glyph b ≠ d := by
  have hsame : (glyph b == d) = (c == d) := (uniform_eq hd).glyph h
  rw [beq_eq_false_iff_ne.2 hne] at hsame
  exact beq_eq_false_iff_ne.1 hsame

section Quotes

variable {quote : Char}

theorem quoted_cons (h : glyph b ≠ quote) :
    quoted quote (b :: bs) = (quoted quote bs).map (· + 1) := by
  cases bs with
  | nil => simp [quoted, h]
  | cons d bs => rw [quoted, if_neg h]

theorem quoted_block (h : ∀ b ∈ block, glyph b ≠ quote) :
    quoted quote (block ++ bs) = (quoted quote bs).map (· + block.length) := by
  induction block with
  | nil => simp
  | cons b block ih =>
    rw [forall_mem_cons] at h
    rw [cons_append, quoted_cons h.1, ih h.2, Option.map_map]
    rfl

theorem quoted_bytes (hquote : quote.toNat < 128) (cs : List Char) :
    quoted quote (bytes cs) =
      (throughQuote quote cs).map fun cut => byteLength cut.1 := by
  have hsize := utf8Size_ascii hquote
  have hother : ∀ {c : Char} (cs : List Char), c ≠ quote →
      quoted quote (bytes (c :: cs)) =
        (quoted quote (bytes cs)).map (· + c.utf8Size) := by
    intro c cs hc
    rw [bytes_cons, quoted_block fun b => glyph_ne_of_mem hquote hc, String.length_utf8EncodeChar]
  fun_induction throughQuote quote cs with
  | case1 => rfl
  | case2 =>
    obtain ⟨b, hbytes, hb⟩ := bytes_ascii hquote []
    simp [hbytes, quoted, hb, hsize]
  | case3 c hc => rw [hother [] hc]; rfl
  | case4 rest ih =>
    obtain ⟨b, hbytes, hb⟩ := bytes_ascii hquote (quote :: rest)
    obtain ⟨d, hbytes', hd⟩ := bytes_ascii hquote rest
    rw [hbytes, hbytes', quoted, if_pos hb, if_pos hd, ih, Option.map_map, Option.map_map]
    congr 1
    funext cut
    simp [hsize]
    omega
  | case5 d rest hd =>
    obtain ⟨b, hbytes, hb⟩ := bytes_ascii hquote (d :: rest)
    obtain ⟨e, es, hencode⟩ := exists_cons_of_ne_nil (encode_ne_nil d)
    have he : glyph e ≠ quote :=
      glyph_ne_of_mem hquote hd (by rw [hencode]; exact mem_cons_self)
    rw [hbytes, bytes_cons, hencode, cons_append, quoted, if_pos hb, if_neg he]
    simp [hsize]
  | case6 c d rest hc ih =>
    rw [hother _ hc, ih, Option.map_map, Option.map_map]
    congr 1
    funext cut
    simp [Nat.add_comm]

end Quotes

section Pairs

variable {first second : Char}

theorem throughPair_cons (h : ¬(glyph b = first ∧ startsWith (· == second) bs)) :
    throughPair first second (b :: bs) = (throughPair first second bs).map (· + 1) := by
  cases bs with
  | nil => rfl
  | cons d bs =>
    rw [throughPair, if_neg]
    simpa [startsWith] using h

theorem throughPair_block (h : ∀ b ∈ block, glyph b ≠ first) :
    throughPair first second (block ++ bs) =
      (throughPair first second bs).map (· + block.length) := by
  induction block with
  | nil => simp
  | cons b block ih =>
    rw [forall_mem_cons] at h
    rw [cons_append, throughPair_cons fun hpair => h.1 hpair.1, ih h.2, Option.map_map]
    rfl

theorem throughPair_bytes (hfirst : first.toNat < 128) (hsecond : second.toNat < 128)
    (cs : List Char) :
    throughPair first second (bytes cs) =
      (Scan.throughPair first second cs).map fun cut => byteLength cut.1 := by
  have hother : ∀ {c : Char} (cs : List Char),
      ¬(c = first ∧ Scan.startsWith (· == second) cs) →
      throughPair first second (bytes (c :: cs)) =
        (throughPair first second (bytes cs)).map (· + c.utf8Size) := by
    intro c cs hc
    by_cases hsame : c = first
    · rw [hsame] at hc ⊢
      obtain ⟨b, hbytes, hb⟩ := bytes_ascii hfirst cs
      rw [hbytes, throughPair_cons, utf8Size_ascii hfirst]
      rw [startsWith_bytes (uniform_eq hsecond)]
      exact fun h => hc ⟨rfl, h.2⟩
    · rw [bytes_cons, throughPair_block fun b => glyph_ne_of_mem hfirst hsame,
        String.length_utf8EncodeChar]
  fun_induction Scan.throughPair first second cs with
  | case1 => rfl
  | case2 c => rw [hother [] (by simp)]; rfl
  | case3 c d rest hpair =>
    obtain ⟨rfl, rfl⟩ := hpair
    obtain ⟨b, hbytes, hb⟩ := bytes_ascii hfirst (d :: rest)
    obtain ⟨e, hbytes', he⟩ := bytes_ascii hsecond rest
    rw [hbytes, hbytes', throughPair, if_pos ⟨hb, he⟩]
    simp [utf8Size_ascii hfirst, utf8Size_ascii hsecond]
  | case4 c d rest hpair ih =>
    rw [hother _ (by simpa using hpair), ih, Option.map_map, Option.map_map]
    congr 1
    funext cut
    simp [Nat.add_comm]

/-- A lead byte is never followed by a character of ASCII. -/
theorem throughPair_lead (hfirst : 192 ≤ first.toNat) (hsecond : second.toNat < 128)
    (cs : List Char) : throughPair first second (bytes cs) = none := by
  induction cs with
  | nil => rfl
  | cons c cs ih =>
    rw [bytes_cons]
    by_cases hc : c.toNat < 128
    · obtain ⟨b, hencode, hb⟩ := encode_ascii hc
      rw [hencode, throughPair_block, ih]
      · rfl
      · rw [forall_mem_singleton, hb]
        rintro rfl
        omega
    · obtain ⟨lead, tail, hencode, hne, -, htail⟩ := encode_wide (Nat.not_lt.1 hc)
      rw [hencode, cons_append, throughPair_cons, throughPair_block, ih]
      · rfl
      · rintro b hb rfl
        have := (htail _ hb).2
        omega
      · rintro ⟨-, hnext⟩
        obtain ⟨b, tail, rfl⟩ := exists_cons_of_ne_nil hne
        have hb := (htail b mem_cons_self).1
        rw [← beq_iff_eq.1 (show (glyph b == second) = true from hnext)] at hsecond
        omega

end Pairs

/-! ### Numbers, names and operators -/

theorem fraction_bytes : fraction (bytes cs) = byteLength (Scan.fraction cs).1 := by
  cases cs with
  | nil => rfl
  | cons c cs =>
    by_cases hc : c = '.'
    · rw [hc]
      change (if startsWith Char.isDigit (bytes cs) = true then
        1 + run Char.isDigit (bytes cs) else 0) = _
      rw [startsWith_bytes uniform_isDigit, run_bytes uniform_isDigit, Scan.fraction]
      split <;> rfl
    · have hpoint : startsWith (· == '.') (bytes (c :: cs)) = false := by
        rw [startsWith_bytes (uniform_eq (by decide))]
        exact beq_eq_false_iff_ne.2 hc
      rw [fraction, hpoint, Scan.fraction]
      · rfl
      · rintro rest ⟨⟩
        exact hc rfl

theorem uniform_or {q : Char → Bool} (hp : Uniform p) (hq : Uniform q) :
    Uniform fun c => p c || q c := by
  intro c d hc hd
  simp only [hp c d hc hd, hq c d hc hd]

theorem exponent_bytes : exponent (bytes cs) = byteLength (Scan.exponent cs).1 := by
  have hmark : Uniform fun c => c == 'e' || c == 'E' :=
    uniform_or (uniform_eq (by decide)) (uniform_eq (by decide))
  have hsign : Uniform fun c => c == '+' || c == '-' :=
    uniform_or (uniform_eq (by decide)) (uniform_eq (by decide))
  cases cs with
  | nil => rfl
  | cons e cs =>
    by_cases he : e = 'e' ∨ e = 'E'
    · have hsize : e.toNat < 128 := by rcases he with rfl | rfl <;> decide
      obtain ⟨b, hbytes, hb⟩ := bytes_ascii hsize cs
      have hstarts : startsWith (fun c => c == 'e' || c == 'E') (bytes (e :: cs)) := by
        rw [startsWith_bytes hmark]
        simpa [startsWith] using he
      rw [exponent, hstarts, hbytes, drop_succ_cons, drop_zero, startsWith_bytes hsign,
        Bool.true_and]
      simp only [Scan.exponent, if_pos he]
      cases cs with
      | nil => rfl
      | cons sign rest =>
        by_cases hs : sign = '+' ∨ sign = '-'
        · have hascii : sign.toNat < 128 := by rcases hs with rfl | rfl <;> decide
          have hdigit : sign.isDigit = false := by rcases hs with rfl | rfl <;> decide
          have hstarts' : Scan.startsWith (fun c => c == '+' || c == '-') (sign :: rest) := by
            simpa [startsWith] using hs
          obtain ⟨d, hbytes', -⟩ := bytes_ascii hascii rest
          rw [hstarts', if_pos rfl, hbytes', drop_succ_cons, drop_succ_cons, drop_zero,
            startsWith_bytes uniform_isDigit, run_bytes uniform_isDigit, startsWith_cons, hdigit]
          simp only [Bool.false_eq_true, if_false, hs, true_and]
          split
          · simp [utf8Size_ascii hsize, utf8Size_ascii hascii]
            omega
          · rfl
        · have hstarts' :
              Scan.startsWith (fun c => c == '+' || c == '-') (sign :: rest) = false := by
            simpa [startsWith] using hs
          rw [hstarts', if_neg Bool.false_ne_true, drop_succ_cons, drop_zero,
            startsWith_bytes uniform_isDigit, run_bytes uniform_isDigit]
          simp only [hs, false_and, if_false]
          split
          · simp [utf8Size_ascii hsize]
          · rfl
    · have hstarts : startsWith (fun c => c == 'e' || c == 'E') (bytes (e :: cs)) = false := by
        rw [startsWith_bytes hmark]
        simpa [startsWith] using he
      rw [exponent, hstarts]
      simp only [Scan.exponent, if_neg he]
      rfl

theorem number_parts :
    number (bytes cs) = byteLength (cs.takeWhile Char.isDigit ++
      (Scan.fraction (cs.dropWhile Char.isDigit)).1 ++
      (Scan.exponent (Scan.fraction (cs.dropWhile Char.isDigit)).2).1) := by
  have hdigits := drop_bytes (cs.takeWhile Char.isDigit) (cs.dropWhile Char.isDigit)
  have hdecimals := drop_bytes
    (cs.takeWhile Char.isDigit ++ (Scan.fraction (cs.dropWhile Char.isDigit)).1)
    (Scan.fraction (cs.dropWhile Char.isDigit)).2
  rw [takeWhile_append_dropWhile] at hdigits
  rw [append_assoc, fraction_append, takeWhile_append_dropWhile, byteLength_append] at hdecimals
  rw [number, run_bytes uniform_isDigit, hdigits, fraction_bytes, hdecimals, exponent_bytes,
    byteLength_append, byteLength_append]

theorem number_bytes (h : c.isDigit ∨ c = '.' ∧ Scan.startsWith Char.isDigit cs) :
    number (bytes (c :: cs)) = byteLength (Scan.number c cs).1 := by
  rw [number_parts, Scan.number]
  rcases h with hdigit | ⟨rfl, hstarts⟩
  · have hpoint : c ≠ '.' := by
      rintro rfl
      cases hdigit
    rw [takeWhile_cons_of_pos hdigit, dropWhile_cons_of_pos hdigit]
    simp only [hpoint, if_false]
  · rw [takeWhile_cons_of_neg (by decide), dropWhile_cons_of_neg (by decide), Scan.fraction,
      if_pos hstarts]
    simp

theorem dottedName_block (h : ∀ b ∈ block, isNamePart (glyph b)) :
    dottedName (block ++ bs) = dottedName bs + block.length := by
  induction block with
  | nil => rfl
  | cons b block ih =>
    rw [forall_mem_cons] at h
    rw [cons_append, dottedName, h.1, Bool.true_or, if_pos rfl, ih h.2]
    rfl

theorem dottedName_bytes : dottedName (bytes cs) = byteLength (Scan.dottedName cs).1 := by
  induction cs with
  | nil => rfl
  | cons c cs ih =>
    by_cases hc : isNamePart c
    · rw [bytes_cons, dottedName_block fun b hb => (uniform_isNamePart.glyph hb).trans hc, ih,
        String.length_utf8EncodeChar, Scan.dottedName, hc, Bool.true_or, if_pos rfl,
        byteLength_cons, Nat.add_comm]
    · have hascii : c.toNat < 128 := by
        refine Nat.lt_of_not_le fun hle => hc ?_
        simp [isNamePart, hle]
      obtain ⟨b, hbytes, hb⟩ := bytes_ascii hascii cs
      rw [hbytes, dottedName, hb, startsWith_bytes uniform_isNameStart, Scan.dottedName]
      split
      · rw [ih, byteLength_cons, utf8Size_ascii hascii, Nat.add_comm]
      · rfl

theorem operator_bytes (hc : c.toNat < 128) (hb : glyph b = c) (cs : List Char) :
    operator b (String.ofList (c :: cs)) = byteLength (Scan.operator c cs).1 := by
  have hwidth : width b = 1 := by
    rw [← hb, toNat_glyph] at hc
    unfold width
    grind
  have hpairs : ∀ op ∈ Scan.pairOperators, op.1.utf8Size + (op.2.utf8Size + 0) = 2 := by decide
  rw [operator, String.toList_ofList, hwidth]
  cases cs with
  | nil => simp [Scan.operator, utf8Size_ascii hc]
  | cons d cs =>
    have hany : (Scan.pairOperators.any fun op => [op.1, op.2].isPrefixOf (c :: d :: cs)) =
        Scan.pairOperators.contains (c, d) := by
      rw [Bool.eq_iff_iff]
      simp [isPrefixOf]
    rw [hany, Scan.operator]
    split
    · rename_i hpair
      exact (hpairs (c, d) (contains_iff_mem.1 hpair)).symm
    · exact (utf8Size_ascii hc).symm

/-! ### Classes -/

theorem start_wide (h : 128 ≤ (glyph b).toNat) : start b bs = .word := by
  have hne := fun d : Char => ne_of_wide (d := d) h
  have hdigit : (glyph b).isDigit = false := uniform_isDigit (glyph b) '\x80' h (by decide)
  have hname : isNameStart (glyph b) := by simp [isNameStart, h]
  simp [start, isAsciiBlank, hdigit, hname, hne]

theorem startsWith_eq (hd : d.toNat < 128) (cs : List Char) :
    startsWith (· == d) (bytes cs) = (cs.head? == some d) := by
  rw [startsWith_bytes (uniform_eq hd)]
  cases cs <;> rfl

theorem opensAlternative_bytes (c : Char) (cs : List Char) :
    ((c == 'q' || c == 'Q') && cs.head? == some '\'' && decide (2 ≤ (bytes cs).length)) =
      opensAlternative c cs := by
  rw [opensAlternative]
  cases hq : cs.head? == some '\'' with
  | false => simp
  | true =>
    obtain ⟨rest, rfl⟩ := head?_eq_some_iff.1 (beq_iff_eq.1 hq)
    cases rest with
    | nil => rfl
    | cons d rest =>
      have hlong : 2 ≤ (bytes ('\'' :: d :: rest)).length := by
        have hsize := d.utf8Size_pos
        have hquote : ('\'' : Char).utf8Size = 1 := rfl
        rw [length_bytes, byteLength_cons, byteLength_cons]
        omega
      rw [decide_eq_true hlong]
      rfl

/-- The class of the lexeme is seen from the bytes, but for dots, of which there may be two. -/
theorem start_bytes (hb : glyph b = c) (cs : List Char) :
    start b (bytes cs) = Scan.start c cs ∨
      Scan.isMark c ∧ start b (bytes cs) = .mark ∧ Scan.start c cs = .operator := by
  have hbranch : ∀ {q : Bool} {x y z : Scan.Start},
      (y = z ∨ isMark c ∧ y = .mark ∧ z = .operator) →
      (if q then x else y) = (if q then x else z) ∨
        isMark c ∧ (if q then x else y) = .mark ∧ (if q then x else z) = .operator := by
    intro q x y z h
    cases q with
    | true => exact .inl rfl
    | false => exact h
  simp only [start, hb, startsWith_eq (by decide : ('-' : Char).toNat < 128),
    startsWith_eq (by decide : ('*' : Char).toNat < 128), opensAlternative_bytes,
    startsWith_eq (by decide : ('\'' : Char).toNat < 128), startsWith_bytes uniform_isDigit,
    startsWith_bytes uniform_isNameStart, start]
  iterate 10 refine hbranch ?_
  cases hmark : isMark c with
  | false => exact .inl rfl
  | true =>
    rw [Bool.true_and, if_pos rfl]
    split
    · exact .inl rfl
    · exact .inr ⟨rfl, rfl, rfl⟩

/-! ### Steps -/

/-- What a step over the characters finds, with the number of bytes in place of the characters. -/
def found : Except Unterminated Cut → Found :=
  Except.map fun cut => (cut.lexeme.shape, byteLength cut.lexeme.chars)

theorem found_closed {fault : Unterminated} {shape : Shape} {lead : List Char} {size : Nat}
    {taken : Option (List Char × List Char)} (hsize : taken.isSome → byteLength lead = size) :
    found (Scan.closed fault shape lead taken) =
      closed fault shape size (taken.map fun cut => byteLength cut.1) := by
  cases taken with
  | none => rfl
  | some cut =>
    rw [map_some, ← hsize rfl]
    exact congrArg (fun size => Except.ok (shape, size)) (byteLength_append lead cut.1)

theorem closingDelimiter_of_wide (h : 128 ≤ c.toNat) : closingDelimiter c = c := by
  simp [closingDelimiter, ne_of_wide h]

theorem closingDelimiter_ascii (h : c.toNat < 128) : (closingDelimiter c).toNat < 128 := by
  unfold closingDelimiter
  repeat' split
  all_goals first | decide | exact h

/-- A quotation with a delimiter beyond ASCII is closed by no byte, as by no character. -/
theorem throughDelimiter_bytes (opening : Char) (cs : List Char) :
    throughPair (Scan.closingDelimiter (glyph ((bytes (opening :: cs)).getD 0 0))) '\''
        ((bytes (opening :: cs)).drop 1) =
      ((Scan.throughDelimiter opening cs).map fun cut => byteLength cut.1) := by
  by_cases h : opening.toNat < 128
  · obtain ⟨b, hbytes, hb⟩ := bytes_ascii h cs
    rw [hbytes, Scan.throughDelimiter, if_pos h]
    change throughPair (Scan.closingDelimiter (glyph b)) '\'' (bytes cs) = _
    rw [hb, throughPair_bytes (closingDelimiter_ascii h) (by decide)]
  · obtain ⟨lead, tail, hencode, -, hlead, htail⟩ := encode_wide (Nat.not_lt.1 h)
    rw [bytes_cons, hencode, Scan.throughDelimiter, if_neg h]
    change throughPair (Scan.closingDelimiter (glyph lead)) '\'' (tail ++ bytes cs) = _
    rw [closingDelimiter_of_wide (by omega), throughPair_block, throughPair_lead hlead (by decide)]
    · rfl
    · intro b hb heq
      have := (htail b hb).2
      rw [heq] at this
      omega

variable {source : String} {front : List Char}

theorem step_word (hsource : source.toList = front ++ c :: cs) (hbytes : bytes (c :: cs) = b :: bs)
    (hclass : start b bs = .word) (hstart : Scan.start c cs = .word) :
    step source (byteLength front) b bs = some (found (munch c cs)) := by
  have hname : isNameStart c := by
    have hknown := announces_start c cs
    rwa [hstart] at hknown
  have hcut : source.toList =
      front ++ (c :: cs.takeWhile isNamePart ++ cs.dropWhile isNamePart) := by
    rw [hsource, cons_append, takeWhile_append_dropWhile]
  rw [step, hclass, munch, hstart, ← hbytes]
  simp only [run_bytes uniform_isNamePart, takeWhile_cons_of_pos (isNamePart_of_isNameStart hname),
    slice?_append hcut]
  rfl

theorem step_operator (hc : c.toNat < 128) (hb : glyph b = c)
    (hsource : source.toList = front ++ c :: cs) (hstart : Scan.start c cs = .operator) :
    step source (byteLength front) b (bytes cs) = some (found (munch c cs)) := by
  have htext := tail?_append hsource
  rw [munch, hstart]
  rcases start_bytes hb cs with hclass | ⟨hmark, hclass, -⟩
  · rw [step, hclass, hstart]
    simp only [htext, map_some, operator_bytes hc hb]
    rfl
  · have hknown := announces_start c cs
    rw [hstart] at hknown
    obtain ⟨rfl, hnext⟩ := hknown.2 hmark
    obtain ⟨rest, rfl⟩ := head?_eq_some_iff.1 hnext
    rw [step, hclass]
    simp only [htext, map_some, String.toList_ofList, operator_bytes hc hb]
    rfl

theorem step_ascii (hc : c.toNat < 128) (hb : glyph b = c)
    (hbytes : bytes (c :: cs) = b :: bytes cs) (hsource : source.toList = front ++ c :: cs) :
    step source (byteLength front) b (bytes cs) = some (found (Scan.munch c cs)) := by
  by_cases hoperator : Scan.start c cs = .operator
  · exact step_operator hc hb hsource hoperator
  have hclass : start b (bytes cs) = Scan.start c cs :=
    (start_bytes hb cs).resolve_right fun h => hoperator h.2.2
  have hknown := Scan.announces_start c cs
  have hlead : byteLength [c] = 1 := utf8Size_ascii hc
  have hquote : ('\'' : Char).toNat < 128 := by decide
  cases hstart : Scan.start c cs with
  | word => exact step_word hsource hbytes (hclass.trans hstart) hstart
  | operator => exact absurd hstart hoperator
  | blank =>
    rw [hstart] at hknown
    rw [step, hclass, Scan.munch, hstart, ← hbytes]
    simp only [run_bytes uniform_isBlank, takeWhile_cons_of_pos hknown]
    rfl
  | lineComment =>
    rw [hstart] at hknown
    have huniform : Uniform (· != '\n') :=
      .of_true fun _ hc => bne_iff_ne.2 (ne_of_wide hc (by decide))
    have hfirst : (c != '\n') := by rw [hknown.1]; rfl
    rw [step, hclass, Scan.munch, hstart, ← hbytes]
    simp only [run_bytes huniform]
    rw [takeWhile_cons, hfirst]
    rfl
  | blockComment =>
    rw [hstart] at hknown
    obtain ⟨rfl, hnext⟩ := hknown
    obtain ⟨rest, rfl⟩ := head?_eq_some_iff.1 hnext
    have hbody : source.toList = (front ++ ['/', '*']) ++ rest := by simp [hsource]
    have htail := tail?_append hbody
    rw [byteLength_append] at htail
    rw [step, hclass, Scan.munch, hstart, found_closed fun _ => rfl]
    change (tail? source (byteLength front + 2)).map _ = _
    rw [show byteLength front + 2 = byteLength front + byteLength ['/', '*'] from rfl,
      htail, map_some, String.toList_ofList, throughPair_bytes (by decide) (by decide)]
    rfl
  | string =>
    rw [step, hclass, Scan.munch, hstart, found_closed fun _ => hlead, ← quoted_bytes hquote]
  | quotedName =>
    rw [step, hclass, Scan.munch, hstart, found_closed fun _ => hlead, ← quoted_bytes (by decide)]
  | alternativeString =>
    rw [hstart] at hknown
    simp only [Scan.Announces, Scan.opensAlternative, Bool.and_eq_true, beq_iff_eq,
      decide_eq_true_eq] at hknown
    obtain ⟨⟨-, hnext⟩, hlong⟩ := hknown
    obtain ⟨rest, rfl⟩ := head?_eq_some_iff.1 hnext
    obtain ⟨opening, rest, rfl⟩ : ∃ opening more, rest = opening :: more :=
      exists_cons_of_length_pos (Nat.le_of_succ_le_succ hlong)
    have hthree : (Scan.throughDelimiter opening rest).isSome →
        byteLength (c :: ['\'', opening]) = 3 := by
      intro hsome
      have hopening : opening.toNat < 128 := by
        refine Nat.lt_of_not_le fun hle => ?_
        rw [Scan.throughDelimiter, if_neg (Nat.not_lt.2 hle)] at hsome
        cases hsome
      rw [byteLength_cons, utf8Size_ascii hc, byteLength_cons, byteLength_cons,
        utf8Size_ascii hopening]
      rfl
    rw [step, hclass, Scan.munch, hstart]
    change _ = some (found (Scan.closed .string (.token .stringLiteral) (c :: ['\'', opening])
      (Scan.throughDelimiter opening rest)))
    rw [found_closed hthree, ← throughDelimiter_bytes]
    rfl
  | nationalString =>
    rw [hstart] at hknown
    obtain ⟨rest, rfl⟩ := head?_eq_some_iff.1 hknown.2
    have htwo : byteLength (c :: ['\'']) = 2 := congrArg (· + 1) hlead
    rw [step, hclass, Scan.munch, hstart]
    change _ = some (found (Scan.closed .string (.token .stringLiteral) (c :: ['\''])
      (Scan.throughQuote '\'' rest)))
    rw [found_closed fun _ => htwo, ← quoted_bytes hquote]
    rfl
  | number =>
    rw [hstart] at hknown
    rw [step, hclass, Scan.munch, hstart, ← hbytes]
    simp only [number_bytes hknown]
    rfl
  | bindVariable =>
    rw [step, hclass, Scan.munch, hstart]
    simp only [dottedName_bytes, ← hlead]
    rfl
  | mark =>
    have hdots : ['.', '.'].isPrefixOf (c :: cs) = false := by
      refine Bool.eq_false_iff.2 fun hprefix => ?_
      obtain ⟨rest, hrest⟩ := isPrefixOf_iff_prefix.1 hprefix
      cases hrest
      cases hstart
    rw [step, hclass, Scan.munch, hstart]
    simp only [tail?_append hsource, map_some, String.toList_ofList, hdots]
    rw [if_neg Bool.false_ne_true, ← hlead]
    rfl

theorem step_eq (hsource : source.toList = front ++ c :: cs) (hbytes : bytes (c :: cs) = b :: bs) :
    step source (byteLength front) b bs = some (found (Scan.munch c cs)) := by
  by_cases hc : c.toNat < 128
  · obtain ⟨d, hbytes', hd⟩ := bytes_ascii hc cs
    obtain ⟨rfl, rfl⟩ := cons.inj (hbytes.symm.trans hbytes')
    exact step_ascii hc hd hbytes' hsource
  · obtain ⟨lead, tail, hencode, -, hlead, -⟩ := encode_wide (Nat.not_lt.1 hc)
    rw [bytes_cons, hencode, cons_append] at hbytes
    obtain ⟨rfl, rfl⟩ := cons.inj hbytes
    have hwide : 128 ≤ c.toNat := Nat.not_lt.1 hc
    refine step_word hsource (by rw [bytes_cons, hencode]; rfl) (start_wide (by omega)) ?_
    have hname : Scan.isNameStart c := by simp [Scan.isNameStart, hwide]
    exact Scan.start_word hname
      (by simp [Scan.opensLiteral, Scan.opensAlternative, ne_of_wide hwide])

/-! ### All tokens -/

end Bytewise

namespace Lexing

/-- The tokens of a text that stands at byte `offset`, with the unterminated rest as one token. -/
def tokensAt (offset : Nat) (lexing : Lexing) : List Token :=
  Lexeme.tokensFrom offset lexing.lexemes ++
    match lexing.unfinished with
    | none => []
    | some (_, rest) =>
      [⟨⟨.trailing, String.ofList rest⟩, offset + Lexeme.byteLength lexing.lexemes⟩]

theorem recover_eq (source : String) :
    (Token.recover source).1 = (lex source.toList).tokensAt 0 := by
  simp only [tokensAt, Nat.zero_add]
  rfl

variable {offset : Nat} {lexeme : Lexeme} {lexemes : List Lexeme}
  {unfinished : Option (Unterminated × List Char)}

theorem tokensAt_token {kind : Kind} (h : lexeme.shape = .token kind) :
    tokensAt offset ⟨lexeme :: lexemes, unfinished⟩ =
      ⟨⟨kind, lexeme.text⟩, offset⟩ ::
        tokensAt (offset + byteLength lexeme.chars) ⟨lexemes, unfinished⟩ := by
  simp [tokensAt, Lexeme.tokensFrom, h, Lexeme.byteLength, total_cons, Nat.add_assoc]

theorem tokensAt_padding (h : ∀ kind, lexeme.shape ≠ .token kind) :
    tokensAt offset ⟨lexeme :: lexemes, unfinished⟩ =
      tokensAt (offset + byteLength lexeme.chars) ⟨lexemes, unfinished⟩ := by
  cases hshape : lexeme.shape with
  | token kind => exact absurd hshape (h kind)
  | blank | comment =>
    simp [tokensAt, Lexeme.tokensFrom, hshape, Lexeme.byteLength, total_cons, Nat.add_assoc]

end Lexing

namespace Bytewise

variable {c : Char} {b : UInt8} {bs : List UInt8} {cs front : List Char} {source : String}
  {text : String} {here : Nat}

/-- What the lexemes of a text at byte `here` leave open, and where. -/
def leftOpen (here : Nat) (lexing : Lexing) : Option (Unterminated × Nat) :=
  lexing.unfinished.map fun unfinished => (unfinished.1, here + Lexeme.byteLength lexing.lexemes)

/-- The token of a lexeme at byte `here`, if it is one. -/
def tokenAt (here : Nat) (shape : Shape) (text : String) : List Token :=
  match shape with
  | .token kind => [⟨⟨kind, text⟩, here⟩]
  | .blank | .comment => []

theorem tokensFrom?_error {fault : Unterminated} (hdrop : (bytes source.toList).drop here = b :: bs)
    (hstep : step source here b bs = some (.error fault)) (htext : tail? source here = some text) :
    tokensFrom? source here = some ([⟨⟨.trailing, text⟩, here⟩], some (fault, here)) := by
  rw [tokensFrom?]
  split
  · rename_i hnil
    cases hdrop.symm.trans hnil
  · rename_i hcons
    cases hdrop.symm.trans hcons
    rw [hstep, htext]
    rfl

theorem tokensFrom?_ok {size : Nat} {shape : Shape}
    {later : List Token × Option (Unterminated × Nat)}
    (hdrop : (bytes source.toList).drop here = b :: bs)
    (hstep : step source here b bs = some (.ok (shape, size))) (hsize : size ≠ 0)
    (htext : slice? source here (here + size) = some text)
    (hlater : tokensFrom? source (here + size) = some later) :
    tokensFrom? source here = some (tokenAt here shape text ++ later.1, later.2) := by
  rw [tokensFrom?]
  split
  · rename_i hnil
    cases hdrop.symm.trans hnil
  · rename_i hcons
    cases hdrop.symm.trans hcons
    rw [hstep]
    simp only [hsize, dite_false]
    cases shape with
    | token kind => rw [htext, hlater]; rfl
    | blank | comment => exact hlater

theorem drop_source (hsource : source.toList = front ++ cs) :
    (bytes source.toList).drop (byteLength front) = bytes cs := by
  rw [hsource, drop_bytes]

/-- From the end of any characters of the source on, the bytes give the tokens of what is left. -/
theorem tokensFrom?_eq (hsource : source.toList = front ++ cs) :
    tokensFrom? source (byteLength front) =
      some ((lex cs).tokensAt (byteLength front), leftOpen (byteLength front) (lex cs)) := by
  fun_induction lex cs generalizing front with
  | case1 =>
    rw [tokensFrom?]
    split
    · rfl
    · rename_i hcons
      cases (drop_source hsource).symm.trans hcons
  | case2 c cs fault hmunch =>
    obtain ⟨b, bs, hbytes⟩ := exists_cons_of_ne_nil (bytes_ne_nil c cs)
    have hstep := step_eq hsource hbytes
    rw [hmunch] at hstep
    exact tokensFrom?_error ((drop_source hsource).trans hbytes) hstep (tail?_append hsource)
  | case3 c cs cut hmunch =>
    rename_i ih
    obtain ⟨b, bs, hbytes⟩ := exists_cons_of_ne_nil (bytes_ne_nil c cs)
    have hdrop := (drop_source hsource).trans hbytes
    have hstep := step_eq hsource hbytes
    rw [hmunch] at hstep
    rw [← munch_append hmunch] at hsource
    have hlater := @ih (front ++ cut.lexeme.chars) (by rw [hsource, append_assoc])
    rw [byteLength_append] at hlater
    have hsize : byteLength cut.lexeme.chars ≠ 0 := by
      obtain ⟨d, ds, hchars⟩ := exists_cons_of_ne_nil (munch_taken_ne_nil hmunch)
      have hpos := d.utf8Size_pos
      rw [hchars, byteLength_cons]
      omega
    rw [tokensFrom?_ok hdrop hstep hsize (slice?_append hsource) hlater]
    have hleft : leftOpen (byteLength front) ⟨cut.lexeme :: (lex cut.rest).lexemes,
        (lex cut.rest).unfinished⟩ =
        leftOpen (byteLength front + byteLength cut.lexeme.chars) (lex cut.rest) := by
      simp [leftOpen, Lexeme.byteLength, Nat.add_assoc]
    rw [hleft]
    cases hshape : cut.lexeme.shape with
    | token kind =>
      rw [Lexing.tokensAt_token hshape]
      rfl
    | blank | comment =>
      rw [Lexing.tokensAt_padding (by rw [hshape]; exact fun _ => nofun)]
      rfl

/-- Scanning by bytes never fails, and gives what scanning by characters does. -/
theorem recover?_eq (source : String) : recover? source = some (Token.recover source) := by
  have hfound := tokensFrom?_eq (nil_append source.toList).symm
  rw [byteLength_nil] at hfound
  rw [recover?, hfound, Option.map_some, ← Lexing.recover_eq, leftOpen, Option.map_map]
  simp only [Nat.zero_add]
  rfl

end Bytewise

end TriggerDialect
