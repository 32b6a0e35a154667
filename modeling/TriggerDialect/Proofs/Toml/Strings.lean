import TriggerDialect.Proofs.Lexing.Runs
import TriggerDialect.Toml.Reader
import TriggerDialect.Toml.Writer

/-!
# Written strings and keys read back

Each kind of string gives back the text it was written for, on the conditions under which the writer
takes that kind. Main statements: every text is read back from its string (`string?_stringChars`),
and every key from its spelling (`keyPart?_keyChars`).
-/

namespace TriggerDialect.Toml

open List

open Scan (startsWith startsWith_append startsWith_dropWhile takeWhile_iff)

variable {fuel run : Nat} {c quote : Char} {cs rest : List Char}

/-! ### Escapes -/

theorem hexValue?_hexDigit {n : Nat} (h : n < 16) : Text.hexValue? (hexDigit n) = some n := by
  revert n
  decide

/-- A character is read back from the two digits of its code. -/
theorem hexChar?_codeEscape (hc : c.toNat < 256) :
    Text.hexChar? 4 ('0' :: '0' :: hexDigit (c.toNat / 16) :: hexDigit (c.toNat % 16) :: rest) =
      some (c, rest) := by
  have hzero : Text.hexValue? '0' = some 0 := by decide
  have hhigh := hexValue?_hexDigit (n := c.toNat / 16) (by omega)
  have hlow := hexValue?_hexDigit (n := c.toNat % 16) (by omega)
  have hvalid : c.toNat.isValidChar := c.valid
  have hcode : 16 * (c.toNat / 16) + c.toNat % 16 = c.toNat := by omega
  simp [Text.hexChar?, Text.number?, hzero, hhigh, hlow, hcode, Text.charOf?, hvalid]

/-- A written character is an escape that names it, or itself. An escape does not end a line. -/
theorem escapeChar_cases (c : Char) :
    (∃ es, escapeChar c = '\\' :: es ∧
      ∀ rest, escaped? (es ++ rest) = some (c, rest) ∧ joined? (es ++ rest) = none) ∨
    (escapeChar c = [c] ∧ c ≠ '\\' ∧ (isPrintable c ∨ c = '\n')) := by
  unfold escapeChar
  iterate 5
    split
    next h => subst h; exact .inl ⟨[_], rfl, fun _ => ⟨rfl, rfl⟩⟩
  split
  next hcode =>
    refine .inl ⟨_, rfl, fun rest => ⟨?_, rfl⟩⟩
    have hc : c.toNat < 256 := by
      simp only [needsCode, Bool.or_eq_true, Bool.and_eq_true, decide_eq_true_eq,
        beq_iff_eq] at hcode
      omega
    simpa [escaped?] using hexChar?_codeEscape hc
  next htab _ _ hslash hcode =>
    refine .inr ⟨rfl, hslash, ?_⟩
    by_cases hnewline : c = '\n'
    · exact .inr hnewline
    · simp [needsCode, htab, hnewline] at hcode
      exact .inl (by simpa [isPrintable, htab] using hcode)

/-! ### Strings on one line -/

theorem basicRest_escapeLineChar (fuel : Nat) (c : Char) :
    basicRest (fuel + 1) (escapeLineChar c ++ rest) = (basicRest fuel rest).map (prepend c) := by
  unfold escapeLineChar
  split
  next h => subst h; rfl
  next hquote =>
    split
    next h => subst h; rfl
    next hnewline =>
      obtain ⟨es, hes, hread⟩ | ⟨hplain, hslash, hprintable | h⟩ := escapeChar_cases c
      · simp [hes, basicRest, hread rest]
      · simp [hplain, basicRest, hquote, hslash, hprintable]
      · exact absurd h hnewline

theorem basicRest_flatMap (h : cs.length < fuel) :
    basicRest fuel (cs.flatMap escapeLineChar ++ '"' :: rest) = some (cs, rest) := by
  induction cs generalizing fuel with
  | nil =>
    obtain ⟨fuel, rfl⟩ := Nat.exists_eq_add_one.2 h
    simp [basicRest]
  | cons c cs ih =>
    obtain ⟨fuel, rfl⟩ := Nat.exists_eq_add_one.2 (Nat.zero_lt_of_lt h)
    rw [length_cons] at h
    rw [flatMap_cons, append_assoc, basicRest_escapeLineChar, ih (by omega)]
    rfl

/-- A character on one line is written by one that is no quote, and by more if need be. -/
theorem exists_escapeLineChar (c : Char) : ∃ e es, escapeLineChar c = e :: es ∧ e ≠ '"' := by
  unfold escapeLineChar
  split
  next => exact ⟨_, _, rfl, by decide⟩
  next hquote =>
    split
    next => exact ⟨_, _, rfl, by decide⟩
    next =>
      obtain ⟨es, hes, -⟩ | ⟨hplain, -⟩ := escapeChar_cases c
      · exact ⟨_, _, hes, by decide⟩
      · exact ⟨_, _, hplain, hquote⟩

theorem length_le_flatMap_escapeLineChar (cs : List Char) :
    cs.length ≤ (cs.flatMap escapeLineChar).length := by
  induction cs with
  | nil => simp
  | cons c cs ih =>
    obtain ⟨e, es, hc, -⟩ := exists_escapeLineChar c
    simp only [flatMap_cons, length_append, length_cons, hc]
    omega

theorem lineString?_basicString (cs rest : List Char) :
    lineString? (basicString cs ++ rest) = some (cs, rest) := by
  have hlength := length_le_flatMap_escapeLineChar cs
  simp only [basicString, cons_append, append_assoc, nil_append, lineString?]
  exact basicRest_flatMap (by simp only [length_append, length_cons]; omega)

theorem literalRest_append (h : ∀ c ∈ cs, c ≠ '\'' ∧ isPrintable c) :
    literalRest (cs ++ '\'' :: rest) = some (cs, rest) := by
  induction cs with
  | nil => simp [literalRest]
  | cons c cs ih =>
    obtain ⟨hquote, hprintable⟩ := h c mem_cons_self
    have hcs := ih fun c hc => h c (.tail _ hc)
    simp [literalRest, hquote, hprintable, hcs, prepend]

theorem lineString?_literalString (h : ∀ c ∈ cs, c ≠ '\'' ∧ isPrintable c) :
    lineString? (literalString cs ++ rest) = some (cs, rest) := by
  simp only [literalString, cons_append, append_assoc, nil_append, lineString?]
  exact literalRest_append h

/-! ### The end of a string on several lines -/

/-- Where at most two quotes lead, the closing quotes are found only if nothing else comes before
them. -/
theorem closing?_append (hlead : (cs.takeWhile (· == quote)).length ≤ 2)
    (hrest : startsWith (· == quote) rest = false) :
    closing? quote (cs ++ quote :: quote :: quote :: rest) =
      if cs.all (· == quote) then some (cs, rest) else none := by
  cases hall : cs.all (· == quote) with
  | true =>
    have hcs : cs = replicate cs.length quote :=
      eq_replicate_iff.2 ⟨rfl, fun c hc => by simpa using all_eq_true.1 hall c hc⟩
    have htake : (cs ++ quote :: quote :: quote :: rest).takeWhile (· == quote) =
        cs ++ [quote, quote, quote] :=
      (takeWhile_iff.2 ⟨by simp, by simp [hall], hrest⟩).1
    have hlength : cs.length ≤ 2 := by
      rwa [(takeWhile_iff.2 ⟨(append_nil cs).symm, hall, rfl⟩).1] at hlead
    rw [closing?, htake]
    simp only [length_append, length_cons, length_nil]
    rw [if_neg (by omega), if_pos trivial, Nat.add_sub_cancel, Nat.min_eq_left hlength, ← hcs]
    simp [drop_append]
  | false =>
    have hdrop : cs.dropWhile (· == quote) ≠ [] := by
      intro hnil
      have hcs := takeWhile_append_dropWhile (p := (· == quote)) (l := cs)
      rw [hnil, append_nil] at hcs
      rw [← hcs, all_takeWhile] at hall
      cases hall
    have hstart : startsWith (· == quote)
        (cs.dropWhile (· == quote) ++ quote :: quote :: quote :: rest) = false := by
      rw [startsWith_append hdrop, startsWith_dropWhile]
    have htake : (cs ++ quote :: quote :: quote :: rest).takeWhile (· == quote) =
        cs.takeWhile (· == quote) :=
      (takeWhile_iff.2 ⟨by rw [← append_assoc, takeWhile_append_dropWhile],
        all_takeWhile, hstart⟩).1
    rw [closing?, htake]
    simp only
    rw [if_pos (by omega)]
    rfl

/-! ### Strings on several lines with escapes -/

theorem afterNewline?_printable (hc : isPrintable c) : afterNewline? (c :: rest) = none := by
  unfold afterNewline?
  split
  next h => cases h; cases hc
  next h => cases h; cases hc
  next => rfl

theorem multiBasicRest_plain (hclosing : closing? '"' (c :: rest) = none) (hslash : c ≠ '\\')
    (hc : isPrintable c ∨ c = '\n') (fuel : Nat) :
    multiBasicRest (fuel + 1) (c :: rest) = (multiBasicRest fuel rest).map (prepend c) := by
  rcases hc with hc | rfl
  · simp [multiBasicRest, hclosing, hslash, afterNewline?_printable hc, hc]
  · simp [multiBasicRest, hclosing, afterNewline?]

theorem multiBasicRest_escape (hescaped : escaped? cs = some (c, rest))
    (hjoined : joined? cs = none) (fuel : Nat) :
    multiBasicRest (fuel + 1) ('\\' :: cs) = (multiBasicRest fuel rest).map (prepend c) := by
  have hclosing : closing? '"' ('\\' :: cs) = none := by simp [closing?]
  simp [multiBasicRest, hclosing, hjoined, hescaped]

/-- The quotes before are at most two with those that lead. -/
theorem length_lead_escapeLines (h : run ≤ 2) (cs : List Char) :
    ((escapeLines run cs).takeWhile (· == '"')).length + run ≤ 2 := by
  induction cs generalizing run with
  | nil => simpa [escapeLines] using h
  | cons c cs ih =>
    unfold escapeLines
    split
    next hc =>
      subst hc
      split
      next hrun =>
        have hcs := @ih (run + 1) (by omega)
        simp only [takeWhile_cons, beq_self_eq_true, if_true, length_cons]
        omega
      next => simpa using h
    next hc =>
      obtain ⟨es, hes, -⟩ | ⟨hplain, -⟩ := escapeChar_cases c
      · simpa [hes] using h
      · simpa [hplain, hc] using h

/-- Where only quotes are written, they are those of the text. -/
theorem escapeLines_eq_self (h : (escapeLines run cs).all (· == '"')) :
    escapeLines run cs = cs := by
  induction cs generalizing run with
  | nil => rfl
  | cons c cs ih =>
    unfold escapeLines at h ⊢
    split at h
    next hc =>
      subst hc
      split at h
      next hrun =>
        rw [if_pos rfl, if_pos hrun, ih (by simpa using h)]
      next => simp at h
    next hc =>
      obtain ⟨es, hes, -⟩ | ⟨hplain, -⟩ := escapeChar_cases c
      · simp [hes] at h
      · simp [hplain, hc] at h

theorem length_le_escapeLines (run : Nat) (cs : List Char) :
    cs.length ≤ (escapeLines run cs).length := by
  induction cs generalizing run with
  | nil => simp
  | cons c cs ih =>
    unfold escapeLines
    split
    next =>
      split
      next => simpa using ih (run + 1)
      next =>
        have hcs := ih 0
        simp only [length_cons]
        omega
    next =>
      have hcs := ih 0
      obtain ⟨es, hes, -⟩ | ⟨hplain, -⟩ := escapeChar_cases c
      · simp only [hes, length_append, length_cons]
        omega
      · simpa [hplain] using hcs

theorem multiBasicRest_closing {found : List Char × List Char} (h : closing? '"' cs = some found)
    (fuel : Nat) : multiBasicRest (fuel + 1) cs = some found := by
  cases cs with
  | nil => cases h
  | cons c cs => rw [multiBasicRest, h]

theorem multiBasicRest_escapeLines (hrun : run ≤ 2) (hfuel : cs.length < fuel)
    (hrest : startsWith (· == '"') rest = false) :
    multiBasicRest fuel (escapeLines run cs ++ '"' :: '"' :: '"' :: rest) = some (cs, rest) := by
  induction cs generalizing run fuel with
  | nil =>
    obtain ⟨fuel, rfl⟩ := Nat.exists_eq_add_one.2 (Nat.zero_lt_of_lt hfuel)
    have hclosing : closing? '"' ([] ++ '"' :: '"' :: '"' :: rest) = some ([], rest) :=
      closing?_append (by simp) hrest
    exact multiBasicRest_closing hclosing fuel
  | cons c cs ih =>
    obtain ⟨fuel, rfl⟩ := Nat.exists_eq_add_one.2 (Nat.zero_lt_of_lt hfuel)
    rw [length_cons] at hfuel
    have hlead := length_lead_escapeLines hrun (c :: cs)
    have hclosing := closing?_append (Nat.le_trans (Nat.le_add_right _ _) hlead) hrest
    by_cases hall : (escapeLines run (c :: cs)).all (· == '"')
    · rw [if_pos hall] at hclosing
      rw [multiBasicRest_closing hclosing, escapeLines_eq_self hall]
    · rw [if_neg hall] at hclosing
      rw [escapeLines] at hclosing ⊢
      split at hclosing
      next hc =>
        subst hc
        split at hclosing
        next hless =>
          rw [cons_append] at hclosing
          rw [if_pos rfl, if_pos hless, cons_append,
            multiBasicRest_plain hclosing (by decide) (.inl rfl), ih (by omega) (by omega)]
          rfl
        next hless =>
          rw [if_pos rfl, if_neg hless, cons_append, cons_append, multiBasicRest_escape rfl rfl,
            ih (Nat.zero_le 2) (by omega)]
          rfl
      next hc =>
        rw [if_neg hc]
        have hcs := ih (Nat.zero_le 2) (Nat.lt_of_succ_lt_succ hfuel)
        obtain ⟨es, hes, hread⟩ | ⟨hplain, hslash, hprintable⟩ := escapeChar_cases c
        · obtain ⟨hescaped, hjoined⟩ := hread (escapeLines 0 cs ++ '"' :: '"' :: '"' :: rest)
          rw [hes, append_assoc, cons_append, multiBasicRest_escape hescaped hjoined, hcs]
          rfl
        · rw [hplain, append_assoc, singleton_append] at hclosing ⊢
          rw [multiBasicRest_plain hclosing hslash hprintable, hcs]
          rfl

/-! ### Strings on several lines without escapes -/

theorem longestRun_mono {m n : Nat} (h : m ≤ n) (c : Char) (cs : List Char) :
    longestRun c m cs ≤ longestRun c n cs := by
  induction cs generalizing m n with
  | nil => exact h
  | cons d cs ih =>
    unfold longestRun
    split
    next => exact ih (Nat.succ_le_succ h)
    next => omega

/-- The longest run is no shorter than the one that leads. -/
theorem length_lead_le_longestRun (c : Char) (run : Nat) (cs : List Char) :
    (cs.takeWhile (· == c)).length + run ≤ longestRun c run cs := by
  induction cs generalizing run with
  | nil => simp [longestRun]
  | cons d cs ih =>
    unfold longestRun
    split
    next hd =>
      subst hd
      have hcs := ih (run + 1)
      simp only [takeWhile_cons, beq_self_eq_true, if_true, length_cons]
      omega
    next hd =>
      simp only [takeWhile_cons, beq_iff_eq, hd, if_false, length_nil]
      omega

theorem longestRun_tail (c : Char) (run : Nat) (d : Char) (cs : List Char) :
    longestRun c 0 cs ≤ longestRun c run (d :: cs) := by
  rw [longestRun]
  split
  next => exact longestRun_mono (Nat.zero_le _) c cs
  next => exact Nat.le_max_right ..

theorem multiLiteralRest_append (hruns : longestRun '\'' 0 cs ≤ 2)
    (hcs : ∀ c ∈ cs, isPrintable c ∨ c = '\n') (hfuel : cs.length < fuel)
    (hrest : startsWith (· == '\'') rest = false) :
    multiLiteralRest fuel (cs ++ '\'' :: '\'' :: '\'' :: rest) = some (cs, rest) := by
  have hlead := Nat.le_trans (length_lead_le_longestRun '\'' 0 cs) hruns
  have hclosing := closing?_append hlead hrest
  induction cs generalizing fuel with
  | nil =>
    obtain ⟨fuel, rfl⟩ := Nat.exists_eq_add_one.2 (Nat.zero_lt_of_lt hfuel)
    rw [nil_append] at hclosing ⊢
    rw [multiLiteralRest, hclosing]
    rfl
  | cons c cs ih =>
    obtain ⟨fuel, rfl⟩ := Nat.exists_eq_add_one.2 (Nat.zero_lt_of_lt hfuel)
    rw [length_cons] at hfuel
    rw [cons_append] at hclosing ⊢
    rw [multiLiteralRest, hclosing]
    split
    next found hfound =>
      split at hfound
      next => exact hfound.symm
      next => cases hfound
    next =>
      have hruns' := Nat.le_trans (longestRun_tail '\'' 0 c cs) hruns
      have hlead' := Nat.le_trans (length_lead_le_longestRun '\'' 0 cs) hruns'
      have hrec : multiLiteralRest fuel _ = some (cs, rest) :=
        ih hruns' (fun c hc => hcs c (.tail _ hc)) (by omega) hlead' (closing?_append hlead' hrest)
      rcases hcs c mem_cons_self with hc | rfl
      · rw [afterNewline?_printable hc, if_pos hc, hrec]
        rfl
      · simp only [afterNewline?, hrec]
        rfl

/-! ### Strings -/

theorem not_mem_of_longestRun_eq_zero (h : longestRun c 0 cs = 0) : c ∉ cs := by
  induction cs with
  | nil => simp
  | cons d cs ih =>
    rw [longestRun] at h
    split at h
    next =>
      have hlead := length_lead_le_longestRun c (0 + 1) cs
      omega
    next hd =>
      rw [mem_cons, not_or]
      exact ⟨Ne.symm hd, ih (by omega)⟩

theorem printable_of_not_needsCode (h : needsCode c = false) : isPrintable c ∨ c = '\n' := by
  by_cases htab : c = '\t'
  · exact .inl (by simp [isPrintable, htab])
  · by_cases hnewline : c = '\n'
    · exact .inr hnewline
    · exact .inl (by simpa [needsCode, isPrintable, htab, hnewline] using h)

theorem string?_line (hdouble : ∀ more, cs ≠ '"' :: '"' :: '"' :: more)
    (hsingle : ∀ more, cs ≠ '\'' :: '\'' :: '\'' :: more) : string? cs = lineString? cs := by
  unfold string?
  split
  next => exact absurd rfl (hdouble _)
  next => exact absurd rfl (hsingle _)
  next => rfl

theorem string?_basicString (hrest : startsWith (· == '"') rest = false) (cs : List Char) :
    string? (basicString cs ++ rest) = some (cs, rest) := by
  rw [string?_line ?_ (by simp [basicString]), lineString?_basicString]
  intro more hmore
  cases cs with
  | nil =>
    simp only [basicString, flatMap_nil, cons_append, nil_append, cons.injEq, true_and] at hmore
    rw [hmore] at hrest
    cases hrest
  | cons c cs =>
    obtain ⟨e, es, hc, he⟩ := exists_escapeLineChar c
    simp only [basicString, flatMap_cons, hc, cons_append, cons.injEq, true_and] at hmore
    exact he hmore.1

theorem string?_literalString (hne : cs ≠ []) (h : ∀ c ∈ cs, c ≠ '\'' ∧ isPrintable c) :
    string? (literalString cs ++ rest) = some (cs, rest) := by
  rw [string?_line (by simp [literalString]) ?_, lineString?_literalString h]
  intro more hmore
  cases cs with
  | nil => exact hne rfl
  | cons c cs =>
    simp only [literalString, cons_append, cons.injEq, true_and] at hmore
    exact (h c mem_cons_self).1 hmore.1

/-- The line feed after the opening quotes is passed over, and no other. -/
theorem skipFirstNewline_firstNewline {text : List Char}
    (h : '\n' ∉ cs → afterNewline? text = none) :
    skipFirstNewline (firstNewline cs ++ text) = text := by
  unfold firstNewline
  split
  next => rfl
  next hcs => simp [skipFirstNewline, h (by simpa using hcs)]

theorem string?_multiBasicString (hrest : startsWith (· == '"') rest = false) (cs : List Char) :
    string? (multiBasicString cs ++ rest) = some (cs, rest) := by
  have hlength := length_le_escapeLines 0 cs
  have hstart : '\n' ∉ cs →
      afterNewline? (escapeLines 0 cs ++ '"' :: '"' :: '"' :: rest) = none := by
    intro hnewline
    cases cs with
    | nil => rfl
    | cons c cs =>
      rw [escapeLines]
      split
      next hc => subst hc; rfl
      next =>
        obtain ⟨es, hes, -⟩ | ⟨hplain, -, hc | rfl⟩ := escapeChar_cases c
        · rw [hes]
          rfl
        · rw [hplain]
          exact afterNewline?_printable hc
        · exact absurd mem_cons_self hnewline
  have hquotes : "\"\"\"".toList = ['"', '"', '"'] := rfl
  simp only [multiBasicString, hquotes, append_assoc, cons_append, nil_append, string?]
  rw [skipFirstNewline_firstNewline hstart]
  refine multiBasicRest_escapeLines (Nat.zero_le 2) ?_ hrest
  simp only [length_append]
  omega

theorem string?_multiLiteralString (hruns : longestRun '\'' 0 cs ≤ 2)
    (hcs : ∀ c ∈ cs, isPrintable c ∨ c = '\n') (hrest : startsWith (· == '\'') rest = false) :
    string? (multiLiteralString cs ++ rest) = some (cs, rest) := by
  have hstart : '\n' ∉ cs → afterNewline? (cs ++ '\'' :: '\'' :: '\'' :: rest) = none := by
    intro hnewline
    cases cs with
    | nil => rfl
    | cons c cs =>
      rcases hcs c mem_cons_self with hc | rfl
      · exact afterNewline?_printable hc
      · exact absurd mem_cons_self hnewline
  have hquotes : "'''".toList = ['\'', '\'', '\''] := rfl
  simp only [multiLiteralString, hquotes, append_assoc, cons_append, nil_append, string?]
  rw [skipFirstNewline_firstNewline hstart]
  refine multiLiteralRest_append hruns hcs ?_ hrest
  simp only [length_append]
  omega

/-- Every text is read back from its string. -/
theorem string?_stringChars (cs : List Char) (hdouble : startsWith (· == '"') rest = false)
    (hsingle : startsWith (· == '\'') rest = false) :
    string? (stringChars cs ++ rest) = some (cs, rest) := by
  have hplain : cs.any needsCode = false → ∀ c ∈ cs, isPrintable c ∨ c = '\n' :=
    fun h c hc => printable_of_not_needsCode (by simpa using any_eq_false.1 h c hc)
  unfold stringChars
  simp only [Bool.and_eq_true, Bool.not_eq_true', beq_iff_eq, decide_eq_true_eq]
  split
  next => exact string?_basicString hdouble cs
  split
  next hbasic h =>
    obtain ⟨⟨hcoded, hsingles⟩, hbroken⟩ := h
    refine string?_literalString ?_ (fun c hc => ?_)
    · rintro rfl
      exact hbasic ⟨⟨⟨rfl, rfl⟩, rfl⟩, rfl⟩
    · refine ⟨?_, (hplain hcoded c hc).resolve_right ?_⟩
      · rintro rfl
        exact not_mem_of_longestRun_eq_zero hsingles hc
      · rintro rfl
        simp [hc] at hbroken
  split
  next => exact string?_multiBasicString hdouble cs
  split
  next h => exact string?_multiLiteralString h.2 (hplain h.1) hsingle
  split
  next => exact string?_multiBasicString hdouble cs
  next => exact string?_basicString hdouble cs

/-! ### Keys -/

theorem keyPart?_bare (hne : cs ≠ []) (hcs : cs.all isKeyChar)
    (hrest : startsWith isKeyChar rest = false) :
    keyPart? (cs ++ rest) = some (String.ofList cs, rest) := by
  obtain ⟨htake, hdrop⟩ := takeWhile_iff.2 ⟨rfl, hcs, hrest⟩
  have hline : lineString? (cs ++ rest) = none := by
    cases cs with
    | nil => exact absurd rfl hne
    | cons c cs =>
      have hc : isKeyChar c := all_eq_true.1 hcs c mem_cons_self
      rw [cons_append]
      unfold lineString?
      split
      next h => cases h; cases hc
      next h => cases h; cases hc
      next => rfl
  rw [keyPart?, hline]
  simp [htake, hdrop, hne]

/-- Every key is read back from its spelling, where none goes on. -/
theorem keyPart?_keyChars (cs : List Char) (hrest : startsWith isKeyChar rest = false) :
    keyPart? (keyChars cs ++ rest) = some (String.ofList cs, rest) := by
  unfold keyChars
  simp only [Bool.and_eq_true, Bool.not_eq_true']
  split
  next h => exact keyPart?_bare (by simpa using h.1) h.2 hrest
  split
  next => rw [keyPart?, lineString?_basicString]
  split
  next h =>
    obtain ⟨hcoded, hsingle⟩ := h
    have hcs : ∀ c ∈ cs, c ≠ '\'' ∧ isPrintable c := by
      intro c hc
      have hc' := any_eq_false.1 hcoded c hc
      simp only [Bool.or_eq_true, beq_iff_eq, not_or, Bool.not_eq_true] at hc'
      refine ⟨?_, (printable_of_not_needsCode hc'.1).resolve_right hc'.2⟩
      rintro rfl
      simp [hc] at hsingle
    rw [keyPart?, lineString?_literalString hcs]
  next => rw [keyPart?, lineString?_basicString]

end TriggerDialect.Toml
