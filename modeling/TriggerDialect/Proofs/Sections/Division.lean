import TriggerDialect.Proofs.Phrase.Leaf

/-!
# Sections make up their block

A block is cut at four places that are found by separate searches. Whatever tokens they are given,
balanced or not, the sections with the words between them are these tokens again, in order
(`split_division`). The outer `BEGIN` is closed by an `END` after which nothing is open, neither a
construct nor a bracket (`Nesting.Closed`); a block without one runs to the end of the tokens.
-/

namespace TriggerDialect

open List Nesting

/-- A passage that does not look at previous tokens can start after any of them. -/
theorem Passage.restart {visit : Nesting → Option Piece → Piece → Prop} {rest ts : List Token}
    {n n' : Nesting} {previous previous' : Option Piece}
    (h : Passage visit rest n previous ts n' previous')
    (hvisit : ∀ m p q t, visit m p t → visit m q t) (start : Option Piece) :
    ∃ last, Passage visit rest n start ts n' last := by
  cases h with
  | done => exact ⟨start, .done n start⟩
  | pair hhere hcloses hlater => exact ⟨_, .pair (hvisit _ _ _ _ hhere) hcloses hlater⟩
  | step hhere hcloses hlater => exact ⟨_, .step (hvisit _ _ _ _ hhere) hcloses hlater⟩

namespace Nesting

/-! ### The `END` that closes a block -/

/-- The nesting after the step at `t`, which takes the next token along if the two close something
together. -/
def after (n : Nesting) (t : Token) (rest : List Token) : Nesting :=
  match rest.head?.bind fun u => t.closesWith u.toPiece with
  | some frame => n.close frame
  | none => n.enter t.toPiece

/-- From `n` one comes over `front` to another nesting. -/
def Reaches (n : Nesting) (front rest : List Token) (m : Nesting) : Prop :=
  ∃ last, Passage (fun _ _ _ => True) rest n none front m last

/-- From `n` one comes over `front` to an `END` after which nothing is open. -/
def ClosedAt (n : Nesting) (front : List Token) (t : Token) (rest : List Token) : Prop :=
  t.isKeyword "END" ∧
    ∃ m, n.Reaches front (t :: rest) m ∧ (m.after t rest).isOutside

/-- There is an `END` after which nothing is open. -/
def Closed (n : Nesting) (ts : List Token) : Prop :=
  ∃ front t rest, ts = front ++ t :: rest ∧ n.ClosedAt front t rest

/-- One step of the walk at `t`, which takes the tokens `more` along: the word that an `END` closes
with, or none. -/
inductive Step (n : Nesting) (ts : List Token) : Token → List Token → Nesting → Prop
  | pair {t u : Token} {frame : Frame} (hcloses : t.closesWith u.toPiece = some frame) :
      Step n ts t [u] (n.close frame)
  | single {t : Token} (hcloses : ∀ u ∈ ts.head?, t.closesWith u.toPiece = none) :
      Step n ts t [] (n.enter t.toPiece)

variable {n m k : Nesting} {t : Token} {ts more front rest : List Token}

theorem Reaches.nil (n : Nesting) (rest : List Token) : n.Reaches [] rest n := ⟨none, .done n none⟩

theorem Reaches.append {us : List Token} (h : n.Reaches front (us ++ rest) m)
    (hlater : m.Reaches us rest k) : n.Reaches (front ++ us) rest k := by
  obtain ⟨between, hfirst⟩ := h
  obtain ⟨_, hpassage⟩ := hlater
  obtain ⟨last, hsecond⟩ := hpassage.restart (fun _ _ _ _ h => h) between
  exact ⟨last, hfirst.append hsecond⟩

namespace Step

theorem after_eq (h : n.Step ts t more m) : n.after t (more ++ ts) = m := by
  cases h with
  | pair hcloses => simp [after, hcloses]
  | single hcloses =>
    have hnone : (ts.head?.bind fun u => t.closesWith u.toPiece) = none := by
      rw [Option.bind_eq_none_iff]
      exact hcloses
    simp [after, hnone]

theorem reaches (h : n.Step (front ++ rest) t more m) (hlater : m.Reaches front rest k) :
    n.Reaches (t :: (more ++ front)) rest k := by
  obtain ⟨_, hpassage⟩ := hlater
  cases h with
  | @pair u _ hcloses =>
    obtain ⟨last, hlater⟩ := hpassage.restart (fun _ _ _ _ h => h) (some u.toPiece)
    exact ⟨last, .pair trivial hcloses hlater⟩
  | single hcloses =>
    obtain ⟨last, hlater⟩ := hpassage.restart (fun _ _ _ _ h => h) (some t.toPiece)
    exact ⟨last, .step trivial hcloses hlater⟩

/-- A walk over at least one token starts with the step. -/
theorem of_reaches (h : n.Step ts t more m) (hts : front ++ rest = more ++ ts)
    (hreaches : n.Reaches (t :: front) rest k) :
    ∃ later, front = more ++ later ∧ m.Reaches later rest k := by
  obtain ⟨last, hpassage⟩ := hreaches
  cases h with
  | @pair u _ hcloses =>
    cases hpassage with
    | @pair _ _ _ _ _ _ later _ _ hcloses' hlater =>
      obtain ⟨rfl, -⟩ := cons.inj hts
      rw [hcloses, Option.some.injEq] at hcloses'
      subst hcloses'
      exact ⟨later, rfl, hlater.restart (fun _ _ _ _ h => h) none⟩
    | step _ hnone _ =>
      rw [hts] at hnone
      rw [hnone u rfl] at hcloses
      cases hcloses
  | single hnone =>
    cases hpassage with
    | @pair _ _ _ _ _ u _ _ _ hcloses _ =>
      rw [nil_append] at hts
      rw [← hts] at hnone
      rw [hnone u rfl] at hcloses
      cases hcloses
    | step _ _ hlater => exact ⟨front, rfl, hlater.restart (fun _ _ _ _ h => h) none⟩

theorem closed_iff (h : n.Step ts t more m) :
    n.Closed (t :: (more ++ ts)) ↔
      (m.isOutside && t.isKeyword "END") ∨ m.Closed ts := by
  rw [Bool.and_eq_true]
  constructor
  · rintro ⟨front, w, rest, hts, hword, k, hreaches, hout⟩
    cases front with
    | nil =>
      obtain ⟨rfl, rfl⟩ := cons.inj hts
      obtain ⟨_, hpassage⟩ := hreaches
      cases hpassage
      rw [h.after_eq] at hout
      exact .inl ⟨hout, hword⟩
    | cons t' front =>
      obtain ⟨rfl, hrest⟩ := cons.inj hts
      obtain ⟨later, rfl, hlater⟩ := h.of_reaches hrest.symm hreaches
      exact .inr ⟨later, w, rest, by simpa using hts, hword, k, hlater, hout⟩
  · rintro (⟨hout, hword⟩ | ⟨front, w, rest, rfl, hword, k, hreaches, hout⟩)
    · exact ⟨[], t, more ++ ts, rfl, hword, n, .nil n _, by rwa [h.after_eq]⟩
    · exact ⟨t :: (more ++ front), w, rest, by simp, hword, k, h.reaches hreaches, hout⟩

end Step

end Nesting

namespace Sections

variable {ts : List Token} {s : Sections} {after : Option (List Token)}

/-! ### What the two searches find -/

/-- The reason why the statements `body` of the tokens `ts` end, from the nesting `n` on. -/
def EndsIn (n : Nesting) (ts body : List Token) : BodyEnd → Prop
  | .closed after => ∃ t, ts = body ++ t :: after ∧ n.ClosedAt body t after
  | .handlers after => ∃ t, ts = body ++ t :: after ∧ t.isKeyword "EXCEPTION" ∧
      n.Reaches body (t :: after) .outerBlock ∧
      (n.Closed ts ↔ outerBlock.Closed after)
  | .unclosed => body = ts ∧ ¬n.Closed ts

namespace EndsIn

variable {n m : Nesting} {t : Token} {ts more body : List Token} {bodyEnd : BodyEnd}

theorem step (hstep : n.Step ts t more m) (hinside : ¬(m.isOutside && t.isKeyword "END"))
    (h : EndsIn m ts body bodyEnd) :
    EndsIn n (t :: (more ++ ts)) (t :: (more ++ body)) bodyEnd := by
  have hclosed : n.Closed (t :: (more ++ ts)) ↔ m.Closed ts := by
    rw [hstep.closed_iff, or_iff_right hinside]
  cases bodyEnd with
  | closed after =>
    obtain ⟨w, rfl, hword, k, hreaches, hout⟩ := h
    exact ⟨w, by simp, hword, k, hstep.reaches hreaches, hout⟩
  | handlers after =>
    obtain ⟨w, rfl, hword, hreaches, hiff⟩ := h
    exact ⟨w, by simp, hword, hstep.reaches hreaches, hclosed.trans hiff⟩
  | unclosed =>
    obtain ⟨rfl, hopen⟩ := h
    exact ⟨rfl, fun hts => hopen (hclosed.1 hts)⟩

theorem nil (n : Nesting) : EndsIn n [] [] .unclosed := ⟨rfl, by simp [Nesting.Closed]⟩

theorem last (hinside : ¬((n.enter t.toPiece).isOutside && t.isKeyword "END")) :
    EndsIn n [t] [t] .unclosed :=
  step (.single (by simp)) hinside (.nil _)

/-- The search ends at an `END`. -/
theorem here (hstep : n.Step ts t more m) (hout : (m.isOutside && t.isKeyword "END")) :
    EndsIn n (t :: (more ++ ts)) [] (.closed (more ++ ts)) := by
  rw [Bool.and_eq_true] at hout
  exact ⟨t, rfl, hout.2, n, .nil n _, by rw [hstep.after_eq]; exact hout.1⟩

theorem here_handlers {declaring : Bool} (h : startsHandlers n declaring t) :
    EndsIn n (t :: ts) [] (.handlers ts) := by
  simp only [startsHandlers, Bool.and_eq_true] at h
  obtain ⟨⟨hn, _⟩, hword⟩ := h
  obtain rfl : n = .outerBlock := beq_iff_eq.1 hn
  have hinline : t.IsInline := .of_isKeyword hword (by decide)
  refine ⟨t, rfl, hword, .nil _ _, ?_⟩
  have hstep : outerBlock.Step ts t [] _ :=
    .single fun u _ => Piece.closesWith_eq_none hinline.ends
  rw [enter_of_inline hinline] at hstep
  simpa [hinline.ends] using hstep.closed_iff

end EndsIn

theorem splitBody_endsIn (n : Nesting) (declaring : Bool) (ts : List Token) :
    EndsIn n ts (splitBody n declaring ts).1 (splitBody n declaring ts).2 := by
  fun_induction splitBody n declaring ts with
  | case1 n declaring => exact .nil n
  | case2 n declaring t hhandlers => exact .here_handlers hhandlers
  | case3 n declaring t _ hend => exact .here (.single (by simp)) hend
  | case4 n declaring t _ hinside => exact .last hinside
  | case5 n declaring t u rest hhandlers => exact .here_handlers hhandlers
  | case6 n declaring t u rest _ frame hcloses hout =>
    exact .here (.pair hcloses) (by rw [hout, Piece.end_of_closesWith hcloses]; rfl)
  | case7 n declaring t u rest _ frame hcloses hinside later ih =>
    exact ih.step (.pair hcloses) (by simp [hinside])
  | case8 n declaring t u rest _ hcloses hend =>
    exact .here (.single (by simpa using hcloses)) hend
  | case9 n declaring t u rest _ hcloses hinside later ih =>
    exact ih.step (.single (by simpa using hcloses)) hinside

/-- The end of a search for the final `END`. -/
def BodyEnd.ofEnd : Option (List Token) → BodyEnd
  | some after => .closed after
  | none => .unclosed

theorem splitEnd_endsIn (n : Nesting) (ts : List Token) :
    EndsIn n ts (splitEnd n ts).1 (.ofEnd (splitEnd n ts).2) := by
  fun_induction splitEnd n ts with
  | case1 n => exact .nil n
  | case2 n t hend => exact .here (.single (by simp)) hend
  | case3 n t hinside => exact .last hinside
  | case4 n t u rest frame hcloses hout =>
    exact .here (.pair hcloses) (by rw [hout, Piece.end_of_closesWith hcloses]; rfl)
  | case5 n t u rest frame hcloses hinside later ih =>
    exact ih.step (.pair hcloses) (by simp [hinside])
  | case6 n t u rest hcloses hend => exact .here (.single (by simpa using hcloses)) hend
  | case7 n t u rest hcloses hinside later ih =>
    exact ih.step (.single (by simpa using hcloses)) hinside

/-! ### A block with all its tokens in place -/

open Phrase

/-- The tokens of an optional word or mark. -/
def optional {p : Piece → Bool} (word : Option (TokenOf p)) : List Token :=
  (word.map TokenOf.token).toList

/-- `END [label] [;] [/]` -/
structure BlockEnd where
  word : Word "END"
  label : Option Identifier
  semicolon : Option (Mark ';')
  slash : Option (Sign "/")

/-- A block with all its tokens, and what stands after it. -/
structure Division where
  /-- An optional `DECLARE` and the declarations, absent when nothing stands before `BEGIN`. -/
  declared : Option (Option (Word "DECLARE") × List Token)
  word : Word "BEGIN"
  statements : List Token
  handlers : Option (Word "EXCEPTION" × List Token)
  /-- Absent when the final `END` is missing. -/
  closing : Option BlockEnd
  trailing : List Token

namespace BlockEnd

/-- The tokens after `END`. -/
def marks (c : BlockEnd) : List Token :=
  optional c.label ++ (optional c.semicolon ++ optional c.slash)

/-- The tokens from `END` on. -/
def tokens (c : BlockEnd) : List Token := c.word.token :: c.marks

end BlockEnd

namespace Division

/-- The tokens before `BEGIN`. -/
def before (d : Division) : List Token :=
  (d.declared.map fun part => optional part.1 ++ part.2).getD []

/-- The tokens between `BEGIN` and the final `END`. -/
def inner (d : Division) : List Token :=
  d.statements ++ (d.handlers.map fun part => part.1.token :: part.2).getD []

/-- The tokens after `BEGIN`. -/
def rest (d : Division) : List Token :=
  d.inner ++ ((d.closing.map BlockEnd.tokens).getD [] ++ d.trailing)

/-- All tokens. -/
def tokens (d : Division) : List Token := d.before ++ d.word.token :: d.rest

end Division

/-- Whether the final `END` is reported missing. -/
def LacksEnd (s : Sections) : Prop := ∃ fault ∈ s.warnings, fault.cause = .missingTerminalEnd

/-- The sections that are token lists. -/
def slices (s : Sections) : List (List Token) :=
  s.declarations.toList ++ s.statements :: (s.handlers.toList ++ [s.trailing])

/-- The sections are the parts of a block. -/
structure Division.Gives (d : Division) (s : Sections) : Prop where
  declarations : s.declarations = d.declared.map Prod.snd
  statements : s.statements = d.statements
  handlers : s.handlers = d.handlers.map Prod.snd
  label : s.label = d.closing.bind fun c => c.label.map fun name => name.token.text
  trailing : s.trailing = d.trailing
  closing : s.LacksEnd ↔ d.closing = none

theorem declarationsOf_eq (before : List Token) :
    ∃ declared : Option (Option (Word "DECLARE") × List Token),
      before = (declared.map fun part => optional part.1 ++ part.2).getD [] ∧
        declarationsOf before = declared.map Prod.snd := by
  fun_cases declarationsOf before with
  | case1 => exact ⟨none, rfl, rfl⟩
  | case2 t rest hword => exact ⟨some (some ⟨t, hword⟩, rest), rfl, rfl⟩
  | case3 t rest _ => exact ⟨some (none, t :: rest), rfl, rfl⟩

theorem takeLabel_eq (ts : List Token) :
    ∃ name : Option Identifier, ts = optional name ++ (takeLabel ts).2 ∧
      (takeLabel ts).1 = name.map fun name => name.token.text := by
  fun_cases takeLabel ts with
  | case1 => exact ⟨none, rfl, rfl⟩
  | case2 t rest hname => exact ⟨some ⟨t, hname⟩, rfl, rfl⟩
  | case3 => exact ⟨none, rfl, rfl⟩

theorem dropOne_eq (p : Piece → Bool) (ts : List Token) :
    ∃ mark : Option (TokenOf p), ts = optional mark ++ dropOne (fun t => p t.toPiece) ts := by
  fun_cases dropOne (fun t : Token => p t.toPiece) ts with
  | case1 => exact ⟨none, rfl⟩
  | case2 t rest hmark => exact ⟨some ⟨t, hmark⟩, rfl⟩
  | case3 => exact ⟨none, rfl⟩

/-- What is put together from the parts that were found. -/
theorem assemble_ok {before statements : List Token} {handlers : Option (List Token)}
    (h : assemble ts before statements handlers after = .ok s) :
    s.declarations = declarationsOf before ∧ s.statements = statements ∧ s.handlers = handlers ∧
      s.label = (takeLabel (after.getD [])).1 ∧
      s.trailing =
        dropOne (·.isOp "/") (dropOne (·.isPunct ';') (takeLabel (after.getD [])).2) ∧
      s.warnings = if after.isSome then [] else [⟨.missingTerminalEnd, lastOffset ts⟩] := by
  unfold assemble at h
  split at h
  rename_i label rest hlabel
  simp only at h
  split at h
  · cases h
  · cases h
    rw [hlabel]
    exact ⟨rfl, rfl, rfl, rfl, rfl, rfl⟩

/-- The tokens after the final `END` are the end of the block and what is left. -/
theorem closing_of_after (word : Word "END") (after : List Token) :
    ∃ c : BlockEnd, c.word = word ∧
      after = c.marks ++ dropOne (·.isOp "/") (dropOne (·.isPunct ';') (takeLabel after).2) ∧
      (takeLabel after).1 = c.label.map fun name => name.token.text := by
  obtain ⟨label, hafter, hlabel⟩ := takeLabel_eq after
  obtain ⟨semicolon, hsemicolon⟩ := dropOne_eq (·.isPunct ';') (takeLabel after).2
  obtain ⟨slash, hslash⟩ :=
    dropOne_eq (·.isOp "/") (dropOne (fun t => t.isPunct ';') (takeLabel after).2)
  refine ⟨⟨word, label, semicolon, slash⟩, rfl, ?_, hlabel⟩
  rw [BlockEnd.marks, append_assoc, append_assoc, ← hslash, ← hsemicolon]
  exact hafter

/-- The search for the final `END` goes on after `EXCEPTION` where the other one stopped. -/
theorem EndsIn.through_handlers {n : Nesting} {body after inner : List Token}
    {last : Option (List Token)} (h : EndsIn n ts body (.handlers after))
    (hlater : EndsIn .outerBlock after inner (.ofEnd last)) :
    ∃ word : Word "EXCEPTION", EndsIn n ts (body ++ word.token :: inner) (.ofEnd last) := by
  obtain ⟨t, rfl, hword, hreaches, hclosed⟩ := h
  have hinline : t.IsInline := .of_isKeyword hword (by decide)
  refine ⟨⟨t, hword⟩, ?_⟩
  cases last with
  | some left =>
    obtain ⟨w, rfl, hend, m, hinner, hout⟩ := hlater
    rw [← enter_of_inline hinline .outerBlock] at hinner
    exact ⟨w, by simp, hend, m, hreaches.append (Nesting.Step.reaches
      (.single fun u _ => Piece.closesWith_eq_none hinline.ends) hinner), hout⟩
  | none =>
    obtain ⟨rfl, hopen⟩ := hlater
    exact ⟨rfl, fun hts => hopen (hclosed.1 hts)⟩

theorem lacksEnd_iff
    (h : s.warnings = if after.isSome then [] else [⟨.missingTerminalEnd, lastOffset ts⟩]) :
    s.LacksEnd ↔ after = none := by
  rw [LacksEnd, h]
  cases after <;> simp

/-- The parts that were found, put together with the words between them. -/
theorem exists_division {before rest statements : List Token} {word : Word "BEGIN"}
    (handlers : Option (Word "EXCEPTION" × List Token)) (after : Option (List Token))
    (hts : ts = before ++ word.token :: rest)
    (hrest : EndsIn .outerBlock rest
      (statements ++ (handlers.map fun part => part.1.token :: part.2).getD []) (.ofEnd after))
    (h : assemble ts before statements (handlers.map Prod.snd) after = .ok s) :
    ∃ d : Division, d.tokens = ts ∧ d.Gives s ∧
      (∀ c ∈ d.closing,
        outerBlock.ClosedAt d.inner c.word.token (c.marks ++ d.trailing)) ∧
      (s.LacksEnd ↔ ¬outerBlock.Closed d.rest) ∧ (s.LacksEnd → s.trailing = []) := by
  obtain ⟨hdeclarations, hstatements, hhandlers, hlabel, htrailing, hwarnings⟩ := assemble_ok h
  obtain ⟨declared, rfl, hdeclared⟩ := declarationsOf_eq before
  have hlacks := lacksEnd_iff hwarnings
  cases after with
  | some left =>
    have hnotLack : ¬s.LacksEnd := by simp [hlacks]
    obtain ⟨w, rfl, hclosed⟩ := hrest
    obtain ⟨c, hword, hleft, hname⟩ := closing_of_after ⟨w, hclosed.1⟩ left
    have hfinal : c.word.token :: (c.marks ++ s.trailing) = w :: left := by
      rw [show c.word.token = w from congrArg TokenOf.token hword, htrailing]
      exact congrArg (w :: ·) hleft.symm
    have hends : outerBlock.Closed (_ ++ w :: left) := ⟨_, w, left, rfl, hclosed⟩
    rw [← hfinal] at hends
    refine ⟨⟨declared, word, statements, handlers, some c, s.trailing⟩, ?_,
      ⟨?_, hstatements, hhandlers, ?_, rfl, ?_⟩, ?_, ?_, fun hlack => absurd hlack hnotLack⟩
    · rw [hts, ← hfinal]
      rfl
    · rw [hdeclarations, hdeclared]
    · rw [hlabel]
      exact hname
    · simp [hlacks]
    · rintro c' ⟨⟩
      obtain ⟨hhead, htail⟩ := cons.inj hfinal
      rw [hhead, htail]
      exact hclosed
    · exact ⟨fun hlack => absurd hlack hnotLack, fun hopen => absurd hends hopen⟩
  | none =>
    obtain ⟨rfl, hopen⟩ := hrest
    have hnothing : s.trailing = [] := htrailing
    refine ⟨⟨declared, word, statements, handlers, none, []⟩, ?_,
      ⟨?_, hstatements, hhandlers, hlabel, hnothing, ?_⟩, ?_, ?_, fun _ => hnothing⟩
    · rw [hts]
      simp [Division.tokens, Division.before, Division.rest, Division.inner]
    · rw [hdeclarations, hdeclared]
    · simp [hlacks]
    · rintro c ⟨⟩
    · simpa [hlacks, Division.rest, Division.inner] using hopen

/-- Every section is a run of the tokens. -/
theorem Division.Gives.isInfix {d : Division} (h : d.Gives s) :
    ∀ slice ∈ s.slices, slice <:+: d.tokens := by
  intro slice hslice
  simp only [slices, mem_append, mem_cons, Option.mem_toList, not_mem_nil, or_false, h.declarations,
    h.handlers, Option.map_eq_some_iff] at hslice
  rcases hslice with ⟨part, hpart, rfl⟩ | rfl | ⟨part, hpart, rfl⟩ | rfl
  · refine ⟨optional part.1, d.word.token :: d.rest, ?_⟩
    simp [Division.tokens, Division.before, hpart]
  · rw [h.statements]
    refine ⟨d.before ++ [d.word.token],
      (d.handlers.map fun part => part.1.token :: part.2).getD [] ++
        ((d.closing.map BlockEnd.tokens).getD [] ++ d.trailing), ?_⟩
    simp [Division.tokens, Division.rest, Division.inner]
  · refine ⟨d.before ++ d.word.token :: d.statements ++ [part.1.token],
      (d.closing.map BlockEnd.tokens).getD [] ++ d.trailing, ?_⟩
    simp [Division.tokens, Division.rest, Division.inner, hpart]
  · rw [h.trailing]
    refine ⟨d.before ++ d.word.token :: (d.inner ++ (d.closing.map BlockEnd.tokens).getD []), [],
      ?_⟩
    simp [Division.tokens, Division.rest]

theorem exists_extract {slice : List Token} (h : slice <:+: ts) :
    ∃ a b, a ≤ b ∧ b ≤ ts.length ∧ slice = ts.extract a b := by
  obtain ⟨front, rest, rfl⟩ := h
  refine ⟨front.length, front.length + slice.length, by omega, by simp, ?_⟩
  rw [extract_eq_take_drop, Nat.add_sub_cancel_left, append_assoc, drop_left, take_left]

/-- Cutting a block into sections loses and doubles nothing, whatever the tokens are. They are, in
this order, `DECLARE` and the declarations, `BEGIN` and the statements, `EXCEPTION` and the
handlers, the final `END` with a label, a semicolon and a slash, and what is left; each of these
but `BEGIN` and the statements may be absent. Every section is a run of the tokens within their
bounds. The final `END` is one after which nothing is open, and it is reported missing exactly if
there is no such `END` after `BEGIN`; then nothing is left after the block. -/
theorem split_division {ts : List Token} {s : Sections} (h : split ts = .ok s) :
    ∃ d : Division, d.tokens = ts ∧ d.Gives s ∧
      (∀ slice ∈ s.slices, ∃ a b, a ≤ b ∧ b ≤ ts.length ∧ slice = ts.extract a b) ∧
      (∀ c ∈ d.closing,
        outerBlock.ClosedAt d.inner c.word.token (c.marks ++ d.trailing)) ∧
      (s.LacksEnd ↔ ¬outerBlock.Closed d.rest) ∧ (s.LacksEnd → s.trailing = []) := by
  obtain ⟨d, rfl, hgives, hparts⟩ : ∃ d : Division, d.tokens = ts ∧ d.Gives s ∧ _ := by
    unfold split at h
    split at h
    · cases h
    · cases h
    · rename_i before rest hbegin
      obtain ⟨word, hts⟩ : ∃ word : Word "BEGIN", ts = before ++ word.token :: rest := by
        obtain ⟨word, hword, hts⟩ := splitBegin_eq hbegin
        exact ⟨⟨word, hword⟩, hts⟩
      have hbody := splitBody_endsIn .outerBlock false rest
      split at h
      all_goals
        rename_i hsplit
        rw [hsplit] at hbody
      · rename_i statements after
        obtain ⟨exception, hrest⟩ := hbody.through_handlers (splitEnd_endsIn .outerBlock after)
        exact exists_division (some (exception, _)) _ hts hrest h
      · rename_i statements after
        exact exists_division none (some after) hts (by simpa [BodyEnd.ofEnd] using hbody) h
      · rename_i statements
        exact exists_division none none hts (by simpa [BodyEnd.ofEnd] using hbody) h
  exact ⟨d, rfl, hgives, fun slice hslice => exists_extract (hgives.isInfix slice hslice), hparts⟩

/-- A block with a stray `END IF`, a bracketed `EXCEPTION` and a loop among its handlers. -/
def strayEnd : List Token :=
  (Token.recover ("DECLARE e EXCEPTION; BEGIN END IF (x EXCEPTION); EXCEPTION LOOP END LOOP " ++
    "END t; / y")).1

theorem split_division_strayEnd :
    ∃ s, split strayEnd = .ok s ∧ s.handlers = some (strayEnd.extract 13 16) ∧
      s.label = some "t" ∧ ∃ d : Division, d.tokens = strayEnd ∧ d.Gives s ∧
        (∀ slice ∈ s.slices, ∃ a b, a ≤ b ∧ b ≤ strayEnd.length ∧ slice = strayEnd.extract a b) ∧
        (∀ c ∈ d.closing,
          outerBlock.ClosedAt d.inner c.word.token (c.marks ++ d.trailing)) ∧
        (s.LacksEnd ↔ ¬outerBlock.Closed d.rest) ∧ (s.LacksEnd → s.trailing = []) := by
  have hread : (split strayEnd).toOption.map (fun s => (s.handlers, s.label)) =
      some (some (strayEnd.extract 13 16), some "t") := by
    decide +kernel
  cases hsplit : split strayEnd with
  | error fault => rw [hsplit] at hread; cases hread
  | ok s =>
    rw [hsplit] at hread
    obtain ⟨hhandlers, hlabel⟩ := Prod.ext_iff.1 (Option.some.inj hread)
    exact ⟨s, rfl, hhandlers, hlabel, split_division hsplit⟩

end Sections

end TriggerDialect
