import TriggerDialect.Grammar.Sections

/-!
# Passages

All cuts go over tokens in the same way: they carry the nesting along, look at one token, and take
`END` and the word it closes with in one step. A passage says that this walk goes over a span and
lands exactly at its end, and what holds at every token looked at on the way. Each cut passes over
a span that gives it no reason to stop, so that facts about spans are proved once, as passages.
-/

namespace TriggerDialect

open List Piece Sections Nesting

variable {a b base n n' : Nesting} {next p : Piece} {rest ts : List Token}
  {previous previous' : Option Piece} {mark : Char} {frame : Frame} {t : Token}
  {stop : Option Piece → Piece → Bool} {declaring : Bool}

/-! ### Reserved words exclude each other -/

/-- The reserved word that opens a construct. -/
def Frame.word : Frame → String
  | .block => "BEGIN"
  | .conditional => "IF"
  | .selection => "CASE"
  | .iteration => "LOOP"

namespace Piece

/-- A reserved word is another one only if both are spelled alike. -/
theorem isKeyword_eq {a : String} (h : p.isKeyword a) (b : String) :
    p.isKeyword b = (Text.upper a == Text.upper b) := by
  simp only [isKeyword, Text.sameWord, Bool.and_eq_true, beq_iff_eq] at h
  simp [isKeyword, Text.sameWord, h]

theorem isKeyword_eq_false {a b : String} (h : p.isKeyword a)
    (hab : Text.upper a ≠ Text.upper b) : p.isKeyword b = false := by
  rw [isKeyword_eq h, beq_eq_false_iff_ne]
  exact hab

theorem isKeyword_eq_false_of_kind (h : p.kind ≠ .keyword) (word : String) :
    p.isKeyword word = false := by
  simp [isKeyword, h]

theorem isPunct_eq_false_of_kind (h : p.kind ≠ .punctuation) (mark : Char) :
    p.isPunct mark = false := by
  simp [isPunct, h]

theorem isPunct_eq_false {other : Char} (h : p.isPunct mark) (hne : mark ≠ other) :
    p.isPunct other = false := by
  simp only [isPunct, Bool.and_eq_true, beq_iff_eq] at h
  simp [isPunct, h.2, hne]

/-- The words that open a construct are reserved and none of them is `END`. -/
theorem isKeyword_of_opens (h : p.opens = some frame) :
    p.kind = .keyword ∧ p.isKeyword "END" = false := by
  unfold opens at h
  repeat' split at h
  all_goals first
    | cases h; done
    | rename_i hword
      exact ⟨kind_of_isKeyword hword, isKeyword_eq_false hword (by decide)⟩

theorem opens_eq_none_iff :
    p.opens = none ↔ p.isKeyword "BEGIN" = false ∧ p.isKeyword "IF" = false ∧
      p.isKeyword "CASE" = false ∧ p.isKeyword "LOOP" = false := by
  unfold opens
  repeat' split
  all_goals simp_all

theorem closesAfterEnd_of_end (h : p.isKeyword "END") : p.closesAfterEnd = none := by
  simp only [closesAfterEnd, isKeyword_eq h]
  rfl

theorem closesAfterEnd_of_kind (h : p.kind ≠ .keyword) : p.closesAfterEnd = none := by
  simp [closesAfterEnd, isKeyword_eq_false_of_kind h]

/-- Which of the words that open a construct a word is. -/
theorem isKeyword_frame (h : p.isKeyword frame.word) :
    p.isKeyword "BEGIN" = (frame == .block) ∧ p.isKeyword "IF" = (frame == .conditional) ∧
      p.isKeyword "CASE" = (frame == .selection) ∧ p.isKeyword "LOOP" = (frame == .iteration) := by
  simp only [isKeyword_eq h]
  cases frame <;> decide

theorem opens_of_isKeyword (frame : Frame) (h : p.isKeyword frame.word) : p.opens = some frame := by
  obtain ⟨hblock, hif, hcase, hloop⟩ := isKeyword_frame h
  rw [opens, hblock, hif, hcase, hloop]
  cases frame <;> rfl

/-- `END` and the word that opened a construct close it, unless it is a block. -/
theorem closesWith_of_isKeyword (frame : Frame) (hframe : frame ≠ .block) (hend : p.isKeyword "END")
    (h : next.isKeyword frame.word) : p.closesWith next = some frame := by
  obtain ⟨-, hif, hcase, hloop⟩ := isKeyword_frame h
  rw [closesWith, if_pos hend, closesAfterEnd, hif, hcase, hloop]
  cases frame with
  | block => exact absurd rfl hframe
  | conditional | selection | iteration => rfl

end Piece

/-- The walk over `ts`, which stands before `rest`, leads from one nesting and previous token to
another, and `visit` holds of every token that is looked at. -/
inductive Passage (visit : Nesting → Option Piece → Piece → Prop) (rest : List Token) :
    Nesting → Option Piece → List Token → Nesting → Option Piece → Prop
  | done (n : Nesting) (previous : Option Piece) : Passage visit rest n previous [] n previous
  | pair {n n' : Nesting} {previous previous' : Option Piece} {t u : Token} {ts : List Token}
      {frame : Frame} (hvisit : visit n previous t.toPiece)
      (hcloses : t.closesWith u.toPiece = some frame)
      (hlater : Passage visit rest (n.close frame) (some u.toPiece) ts n' previous') :
      Passage visit rest n previous (t :: u :: ts) n' previous'
  | step {n n' : Nesting} {previous previous' : Option Piece} {t : Token} {ts : List Token}
      (hvisit : visit n previous t.toPiece)
      (hcloses : ∀ u ∈ (ts ++ rest).head?, t.closesWith u.toPiece = none)
      (hlater : Passage visit rest (n.enter t.toPiece) (some t.toPiece) ts n' previous') :
      Passage visit rest n previous (t :: ts) n' previous'

namespace Passage

variable {visit visit' : Nesting → Option Piece → Piece → Prop} {rest ts us : List Token}
  {n m n' : Nesting} {previous between previous' : Option Piece}

theorem mono (h : Passage visit rest n previous ts n' previous')
    (himp : ∀ m p t, visit m p t → visit' m p t) :
    Passage visit' rest n previous ts n' previous' := by
  induction h with
  | done n previous => exact .done n previous
  | pair hvisit hcloses _ ih => exact .pair (himp _ _ _ hvisit) hcloses ih
  | step hvisit hcloses _ ih => exact .step (himp _ _ _ hvisit) hcloses ih

/-- One passage after the other. -/
theorem append (hfirst : Passage visit (us ++ rest) n previous ts m between)
    (hsecond : Passage visit rest m between us n' previous') :
    Passage visit rest n previous (ts ++ us) n' previous' := by
  induction hfirst with
  | done => exact hsecond
  | pair hvisit hcloses _ ih => exact .pair hvisit hcloses (ih hsecond)
  | step hvisit hcloses _ ih => exact .step hvisit (by simpa using hcloses) (ih hsecond)

/-- What holds of all tokens looked at and of the end holds of the start. -/
theorem start {P : Nesting → Prop} (h : Passage visit rest n previous ts n' previous')
    (hvisit : ∀ m p t, visit m p t → P m) (hend : P n') : P n := by
  cases h with
  | done => exact hend
  | pair h _ _ => exact hvisit _ _ _ h
  | step h _ _ => exact hvisit _ _ _ h

end Passage

/-! ### Cuts pass over spans that give no reason to stop -/

theorem spanFrom_cons_none (hstop : ¬(n.isOutside && stop previous t.toPiece))
    (hcloses : ∀ u ∈ rest.head?, t.closesWith u.toPiece = none) :
    spanFrom stop n previous (t :: rest) =
      (t :: (spanFrom stop (n.enter t.toPiece) (some t.toPiece) rest).1,
        (spanFrom stop (n.enter t.toPiece) (some t.toPiece) rest).2) := by
  cases rest with
  | nil => simp only [spanFrom, if_neg hstop]
  | cons u rest => simp only [spanFrom, if_neg hstop, hcloses u rfl]

theorem spanFrom_cons_stop (hstop : (n.isOutside && stop previous t.toPiece)) :
    spanFrom stop n previous (t :: rest) = ([], t :: rest) := by
  cases rest <;> simp only [spanFrom, if_pos hstop]

/-- A cut is made where the stop is. -/
theorem stop_of_spanFrom {front : List Token}
    (h : spanFrom stop n previous ts = (front, t :: rest)) :
    ∃ p, stop p t.toPiece := by
  fun_induction spanFrom stop n previous ts generalizing front with
  | case1 => cases h
  | case2 n previous t hstop =>
    cases h
    exact ⟨previous, (Bool.and_eq_true _ _ ▸ hstop).2⟩
  | case3 => cases h
  | case4 n previous t u rest hstop =>
    cases h
    exact ⟨previous, (Bool.and_eq_true _ _ ▸ hstop).2⟩
  | case5 | case6 =>
    rename_i ih
    obtain ⟨_, hrest⟩ := Prod.ext_iff.1 h
    exact ih (Prod.ext rfl hrest)

/-- The search for a stop passes over a span without one. -/
theorem Passage.spanFrom_append
    (h : Passage (fun m p t => ¬(m.isOutside && stop p t)) rest n previous ts n' previous') :
    spanFrom stop n previous (ts ++ rest) =
      (ts ++ (spanFrom stop n' previous' rest).1, (spanFrom stop n' previous' rest).2) := by
  induction h with
  | done => rfl
  | pair hvisit hcloses _ ih =>
    simp only [cons_append, spanFrom, if_neg hvisit, hcloses, ih]
  | step hvisit hcloses _ ih =>
    simp [spanFrom_cons_none hvisit hcloses, ih]

theorem splitEnd_cons_inside (hinside : (n.enter t.toPiece).isOutside = false)
    (hcloses : ∀ u ∈ rest.head?, t.closesWith u.toPiece = none) :
    splitEnd n (t :: rest) =
      (t :: (splitEnd (n.enter t.toPiece) rest).1,
        (splitEnd (n.enter t.toPiece) rest).2) := by
  cases rest with
  | nil => simp [splitEnd, hinside]
  | cons u rest => simp [splitEnd, hcloses u rfl, hinside]

/-- The search for the final `END` passes over a span inside the block. -/
theorem Passage.splitEnd_append
    (h : Passage (fun m _ _ => m.isOutside = false) rest n previous ts n' previous')
    (hend : n'.isOutside = false) :
    splitEnd n (ts ++ rest) =
      (ts ++ (splitEnd n' rest).1, (splitEnd n' rest).2) := by
  induction h with
  | done => rfl
  | pair _ hcloses hlater ih =>
    have hinside := hlater.start (fun _ _ _ hm => hm) hend
    simp [splitEnd, hcloses, hinside, ih hend]
  | step _ hcloses hlater ih =>
    have hinside := hlater.start (fun _ _ _ hm => hm) hend
    simp [splitEnd_cons_inside hinside hcloses, ih hend]

/-- Whether a token keeps the statements of a block going: directly inside the block it starts
neither the handlers nor the declarations of an inner block. -/
def KeepsBody (n : Nesting) (p : Piece) : Prop :=
  n.inOuterBlock → p.isKeyword "EXCEPTION" = false ∧ p.isKeyword "DECLARE" = false

/-- Whether a token keeps the statements of a block going, inside (`declaring`) or outside the
declarations of an inner block: directly inside the outer block it starts no handlers and neither
starts nor ends such declarations. -/
def KeepsSection (declaring : Bool) (n : Nesting) (p : Piece) : Prop :=
  n.inOuterBlock → (declaring ∨ p.isKeyword "EXCEPTION" = false) ∧
    (declaring = true ∨ p.isKeyword "DECLARE" = false) ∧
    (declaring = false ∨ p.isKeyword "BEGIN" = false)

theorem KeepsBody.keepsSection (h : KeepsBody n p) : KeepsSection false n p :=
  fun hn => ⟨.inr (h hn).1, .inr (h hn).2, .inl rfl⟩

theorem KeepsSection.startsHandlers (h : KeepsSection declaring n t.toPiece) :
    startsHandlers n declaring t = false := by
  unfold Sections.startsHandlers
  cases hn : n.inOuterBlock with
  | false => rfl
  | true => rcases (h hn).1 with hdeclaring | hword <;> simp [*]

theorem KeepsSection.declaringAfter (h : KeepsSection declaring n t.toPiece) :
    declaringAfter n declaring t = declaring := by
  unfold Sections.declaringAfter
  cases hn : n.inOuterBlock with
  | false => rfl
  | true =>
    obtain ⟨_, hstart, hstop⟩ := h hn
    rcases hstart with rfl | hstart
    · simp [hstop.resolve_left (by simp)]
    · rcases hstop with rfl | hstop <;> simp [*]

theorem splitBody_cons_inside (hhandlers : startsHandlers n declaring t = false)
    (hinside : ((n.enter t.toPiece).isOutside && t.isKeyword "END") = false)
    (hcloses : ∀ u ∈ rest.head?, t.closesWith u.toPiece = none) :
    splitBody n declaring (t :: rest) =
      (t :: (splitBody (n.enter t.toPiece) (declaringAfter n declaring t) rest).1,
        (splitBody (n.enter t.toPiece) (declaringAfter n declaring t) rest).2) := by
  cases rest with
  | nil => simp [splitBody, hhandlers, hinside]
  | cons u rest => simp [splitBody, hhandlers, hcloses u rfl, hinside]

/-- The search for the end of the statements of a block passes over a span inside the block. -/
theorem Passage.splitBody_keepsSection
    (h : Passage (fun m _ t => m.isOutside = false ∧ KeepsSection declaring m t) rest n previous ts
      n' previous') (hend : n'.isOutside = false) :
    splitBody n declaring (ts ++ rest) =
      (ts ++ (splitBody n' declaring rest).1,
        (splitBody n' declaring rest).2) := by
  induction h with
  | done => rfl
  | pair hvisit hcloses hlater ih =>
    have hinside := hlater.start (fun _ _ _ hm => hm.1) hend
    simp [splitBody, hvisit.2.startsHandlers, hvisit.2.declaringAfter, hcloses, hinside, ih hend]
  | step hvisit hcloses hlater ih =>
    have hinside := hlater.start (fun _ _ _ hm => hm.1) hend
    have hcons := splitBody_cons_inside hvisit.2.startsHandlers (by rw [hinside]; rfl) hcloses
    rw [cons_append, hcons, hvisit.2.declaringAfter, ih hend]
    rfl

/-- The same where no inner block starts with declarations. -/
theorem Passage.splitBody_append
    (h : Passage (fun m _ t => m.isOutside = false ∧ KeepsBody m t) rest n previous ts n' previous')
    (hend : n'.isOutside = false) :
    splitBody n false (ts ++ rest) =
      (ts ++ (splitBody n' false rest).1, (splitBody n' false rest).2) :=
  (h.mono fun _ _ _ hvisit => ⟨hvisit.1, hvisit.2.keepsSection⟩).splitBody_keepsSection hend

/-! ### Groups are passed from any nesting -/

namespace Nesting

variable {n : Nesting} {p : Piece}

/-- What is open in the one is open in the other, on the outside. -/
def Within (base n : Nesting) : Prop := base.brackets ≤ n.brackets ∧ base.frames <:+ n.frames

theorem Within.refl (n : Nesting) : n.Within n := ⟨Nat.le_refl _, suffix_refl _⟩

theorem Within.trans {c : Nesting} (hab : a.Within b) (hbc : b.Within c) : a.Within c :=
  ⟨Nat.le_trans hab.1 hbc.1, hab.2.trans hbc.2⟩

/-- Inside an open construct one is never outside. -/
theorem isOutside_of_within (h : base.Within n) (hbase : base.isOutside = false) :
    n.isOutside = false := by
  rw [isOutside, beq_eq_false_iff_ne] at hbase ⊢
  rintro rfl
  have hbrackets : base.brackets = 0 := Nat.le_zero.1 h.1
  have hframes : base.frames = [] := suffix_nil.1 h.2
  cases base
  simp_all [outside]

/-- The nesting with one more open bracket. -/
def bracketed (n : Nesting) : Nesting := { n with brackets := n.brackets + 1 }

/-- The nesting inside one more construct. -/
def framed (n : Nesting) (frame : Frame) : Nesting := { n with frames := frame :: n.frames }

theorem within_framed (n : Nesting) (frame : Frame) : n.Within (n.framed frame) :=
  ⟨Nat.le_refl _, suffix_cons _ _⟩

theorem not_within_bracketed (n : Nesting) : ¬n.bracketed.Within n := by
  intro h
  have := h.1
  simp only [bracketed] at this
  omega

theorem not_within_framed (n : Nesting) (frame : Frame) : ¬(n.framed frame).Within n := by
  intro h
  have := h.2.length_le
  simp only [framed, length_cons] at this
  omega

theorem enter_of_opens (h : p.opens = some frame) : n.enter p = n.framed frame := by
  have hkind : p.kind ≠ .punctuation := by simp [(isKeyword_of_opens h).1]
  simp [enter, isPunct_eq_false_of_kind hkind, h, framed]

theorem enter_of_opening (h : p.isPunct '(' = true) :
    n.enter p = n.bracketed := by
  simp [enter, h, bracketed]

@[simp] theorem close_framed (n : Nesting) (frame : Frame) : (n.framed frame).close frame = n := by
  simp [close, framed]

theorem enter_framed_of_end (h : p.isKeyword "END") : (n.framed frame).enter p = n := by
  have hkind : p.kind ≠ .punctuation := by simp [kind_of_isKeyword h]
  have hopens : p.opens = none := by
    cases hopens : p.opens with
    | none => rfl
    | some frame => simp [(isKeyword_of_opens hopens).2] at h
  simp [enter, isPunct_eq_false_of_kind hkind, hopens, h, framed]

theorem enter_bracketed_of_closing (h : p.isPunct ')' = true) :
    n.bracketed.enter p = n := by
  have hopening : p.isPunct '(' = false := isPunct_eq_false h (by decide)
  simp [enter, h, hopening, bracketed]

end Nesting

/-- The last piece of a span, or the one before it when it is empty. -/
def lastPiece (previous : Option Piece) : List Token → Option Piece
  | [] => previous
  | t :: rest => lastPiece (some t.toPiece) rest

@[simp] theorem lastPiece_append (previous : Option Piece) (ts us : List Token) :
    lastPiece previous (ts ++ us) = lastPiece (lastPiece previous ts) us := by
  induction ts generalizing previous with
  | nil => rfl
  | cons t ts ih => exact ih (some t.toPiece)

theorem lastPiece_eq (previous : Option Piece) (ts : List Token) :
    lastPiece previous ts = (ts.getLast?.map Token.toPiece).or previous := by
  induction ts generalizing previous with
  | nil => rfl
  | cons t ts ih =>
    rw [lastPiece, ih, getLast?_cons]
    cases ts.getLast? <;> rfl

theorem exists_lastPiece (p : Piece) (ts : List Token) : ∃ q, lastPiece (some p) ts = some q := by
  rw [lastPiece_eq]
  cases ts.getLast? with
  | none => exact ⟨p, rfl⟩
  | some t => exact ⟨t.toPiece, rfl⟩

/-- Whether the last token of one span closes nothing together with the first of another. -/
def Apart (ts us : List Token) : Prop :=
  ∀ p ∈ lastPiece none ts, ∀ u ∈ us.head?, p.closesWith u.toPiece = none

namespace Apart

variable {ts us : List Token}

theorem nil (ts : List Token) : Apart ts [] := by
  intro p _ u hu
  cases hu

/-- No word but `IF`, `LOOP` and `CASE` closes anything with what stands before it. -/
theorem of_head (h : t.closesAfterEnd = none) (ts rest : List Token) : Apart ts (t :: rest) := by
  intro p _ u hu
  cases hu
  exact closesWith_eq_none_of_next h

/-- Nothing closes together with what stands after a word other than `END`. -/
theorem of_last (h : t.isKeyword "END" = false) (ts rest : List Token) :
    Apart (ts ++ [t]) rest := by
  intro p hp u _
  rw [lastPiece_append] at hp
  cases hp
  exact closesWith_eq_none h

theorem append_left (h : Apart us rest) (hts : us = [] → Apart ts rest) :
    Apart (ts ++ us) rest := by
  cases us with
  | nil => rw [append_nil]; exact hts rfl
  | cons u us =>
    intro p hp
    exact h p (by rwa [lastPiece_append] at hp)

theorem cons_left (h : Apart ts us) (ht : t.isKeyword "END" = false) : Apart (t :: ts) us :=
  h.append_left fun _ => of_last ht [] us

theorem right (h : Apart (ts ++ us) rest) : Apart us rest := by
  intro p hp
  cases us with
  | nil => cases hp
  | cons u us => exact h p (by rwa [lastPiece_append])

theorem append_right (h : Apart ts us) (hrest : Apart (ts ++ us) rest) : Apart ts (us ++ rest) := by
  cases us with
  | nil => rwa [append_nil] at hrest
  | cons u us => exact h

end Apart

/-- A span that leaves the nesting as it was, whatever that is. From a previous token at which it
may start, `visit` holds of each of its tokens that stands outside its groups. -/
def Neutral (start : Option Piece → Prop) (visit : Option Piece → Piece → Prop)
    (ts : List Token) : Prop :=
  ∀ base previous rest, start previous → Apart ts rest →
    Passage (fun n p t => base.Within n ∧ (n = base → visit p t)) rest base previous ts base
      (lastPiece previous ts)

/-- A span that leaves the nesting as it was. -/
def Passes (ts : List Token) : Prop := Neutral (fun _ => True) (fun _ _ => True) ts

/-- Whether a piece neither opens nor closes anything. -/
structure Piece.IsInline (p : Piece) : Prop where
  opening : p.isPunct '(' = false
  closing : p.isPunct ')' = false
  opens : p.opens = none
  ends : p.isKeyword "END" = false

theorem Nesting.enter_of_inline (h : p.IsInline) (n : Nesting) : n.enter p = n := by
  simp [enter, h.opening, h.closing, h.opens, h.ends]

namespace Neutral

variable {start start' : Option Piece → Prop} {visit visit' : Option Piece → Piece → Prop}
  {ts us inner rest : List Token} {t opening closing word : Token} {frame : Frame}

theorem mono (h : Neutral start visit ts) (hstart : ∀ p, start' p → start p)
    (hvisit : ∀ p t, visit p t → visit' p t) : Neutral start' visit' ts := by
  intro base previous rest hprevious hapart
  refine (h base previous rest (hstart _ hprevious) hapart).mono fun n p t hn => ?_
  exact ⟨hn.1, fun hbase => hvisit p t (hn.2 hbase)⟩

theorem passes (h : Neutral start visit ts) (hstart : ∀ p, start p) : Passes ts :=
  h.mono (fun p _ => hstart p) fun _ _ _ => trivial

theorem nil : Neutral start visit [] := fun base previous _ _ _ => .done base previous

theorem append (hts : Neutral start visit ts) (hus : Neutral start' visit us) (hapart : Apart ts us)
    (hstart : ∀ p, start p → start' (lastPiece p ts)) : Neutral start visit (ts ++ us) := by
  intro base previous rest hprevious hrest
  rw [lastPiece_append]
  exact (hts base previous (us ++ rest) hprevious (hapart.append_right hrest)).append
    (hus base _ rest (hstart _ hprevious) hrest.right)

/-- A span before one that may start anywhere. -/
theorem append_any (hts : Neutral start visit ts) (hus : Neutral (fun _ => True) visit us)
    (hapart : Apart ts us) : Neutral start visit (ts ++ us) :=
  hts.append hus hapart fun _ _ => trivial

/-- A token that opens and closes nothing. -/
theorem single (hinline : t.IsInline) (hvisit : ∀ p, start p → visit p t.toPiece) :
    Neutral start visit [t] := by
  intro base previous rest hprevious hapart
  have hhere : base.Within base ∧ (base = base → visit previous t.toPiece) :=
    ⟨.refl base, fun _ => hvisit previous hprevious⟩
  refine .step hhere (hapart t.toPiece rfl) ?_
  rw [enter_of_inline hinline]
  exact .done base _

/-- A token that opens and closes nothing, before a span. -/
theorem cons (hinline : t.IsInline) (hvisit : ∀ p, start p → visit p t.toPiece)
    (hus : Neutral start' visit us) (hstart : start' (some t.toPiece)) :
    Neutral start visit (t :: us) :=
  (single hinline hvisit).append hus (Apart.of_last hinline.ends [] us) fun _ _ => hstart

/-- A token that opens and closes nothing, before a span that may start anywhere. -/
theorem cons_any (hinline : t.IsInline) (hvisit : ∀ p, start p → visit p t.toPiece)
    (hus : Neutral (fun _ => True) visit us) : Neutral start visit (t :: us) :=
  cons hinline hvisit hus trivial

end Neutral

/-- A group: its first token leads deeper, and the walk over its other tokens comes back to where it
started without leaving the group before its end. -/
def IsGroup (opening : Token) (others : List Token) : Prop :=
  opening.isKeyword "END" = false ∧ ∀ base : Nesting,
    base.Within (base.enter opening.toPiece) ∧ ¬(base.enter opening.toPiece).Within base ∧
    ∀ previous rest, Apart (opening :: others) rest →
      Passage (fun n _ _ => (base.enter opening.toPiece).Within n) rest
        (base.enter opening.toPiece) previous others base (lastPiece previous others)

namespace IsGroup

variable {inner others rest : List Token} {opening closing word : Token} {frame : Frame}

/-- What is inside a group is not looked at from around it. -/
theorem neutral {start : Option Piece → Prop} {visit : Option Piece → Piece → Prop}
    (h : IsGroup opening others) (hvisit : ∀ p, start p → visit p opening.toPiece) :
    Neutral start visit (opening :: others) := by
  intro base previous rest hprevious hapart
  obtain ⟨hin, hout, hpassage⟩ := h.2 base
  refine .step ⟨.refl base, fun _ => hvisit previous hprevious⟩
    (fun u _ => closesWith_eq_none h.1) ?_
  refine (hpassage (some opening.toPiece) rest hapart).mono fun n p t hn => ?_
  exact ⟨hin.trans hn, fun hbase => absurd (hbase ▸ hn) hout⟩

/-- A construct with its two closing words. -/
theorem construct (hopens : opening.opens = some frame) (hinner : Passes inner)
    (hend : closing.isKeyword "END") (hcloses : closing.closesWith word.toPiece = some frame) :
    IsGroup opening (inner ++ [closing, word]) := by
  refine ⟨(isKeyword_of_opens hopens).2, fun base => ?_⟩
  rw [enter_of_opens hopens]
  refine ⟨base.within_framed frame, base.not_within_framed frame, fun previous rest _ => ?_⟩
  have happart := Apart.of_head (closesAfterEnd_of_end hend) inner (word :: rest)
  rw [lastPiece_append]
  refine ((hinner _ previous _ trivial happart).mono fun _ _ _ hn => hn.1).append ?_
  refine .pair (.refl _) hcloses ?_
  rw [close_framed]
  exact .done base _

/-- A construct that a bare `END` closes. -/
theorem closed (hopens : opening.opens = some frame) (hinner : Passes inner)
    (hend : closing.isKeyword "END") : IsGroup opening (inner ++ [closing]) := by
  refine ⟨(isKeyword_of_opens hopens).2, fun base => ?_⟩
  rw [enter_of_opens hopens]
  refine ⟨base.within_framed frame, base.not_within_framed frame, fun previous rest hapart => ?_⟩
  have hinside := Apart.of_head (closesAfterEnd_of_end hend) inner rest
  rw [lastPiece_append]
  refine ((hinner _ previous _ trivial hinside).mono fun _ _ _ hn => hn.1).append ?_
  refine .step (.refl _) (hapart closing.toPiece ?_) ?_
  · rw [lastPiece, lastPiece_append]
    rfl
  · rw [enter_framed_of_end hend]
    exact .done base _

/-- A pair of brackets. -/
theorem brackets (hopening : opening.isPunct '(' = true) (hinner : Passes inner)
    (hclosing : closing.isPunct ')') : IsGroup opening (inner ++ [closing]) := by
  have hmark : ∀ {t : Token} {mark : Char}, t.isPunct mark → t.kind ≠ .keyword := by
    intro t mark h
    simp [kind_of_isPunct h]
  refine ⟨isKeyword_eq_false_of_kind (hmark hopening) _, fun base => ?_⟩
  rw [enter_of_opening hopening]
  refine ⟨⟨Nat.le_succ _, suffix_refl _⟩, base.not_within_bracketed, fun previous rest _ => ?_⟩
  have hinside := Apart.of_head (closesAfterEnd_of_kind (hmark hclosing)) inner rest
  rw [lastPiece_append]
  refine ((hinner _ previous _ trivial hinside).mono fun _ _ _ hn => hn.1).append ?_
  refine .step (.refl _) (fun u _ => closesWith_eq_none ?_) ?_
  · exact isKeyword_eq_false_of_kind (hmark hclosing) _
  · rw [enter_bracketed_of_closing hclosing]
    exact .done base _

end IsGroup

namespace Neutral

/-! ### Cuts pass over neutral spans -/

variable {start : Option Piece → Prop} {visit : Option Piece → Piece → Prop}
  {ts rest : List Token} (h : Neutral start visit ts)
  (hvisit : ∀ p t, visit p t → stop p t = false) (hstart : start previous)

include h hvisit hstart

theorem spanFrom_append (hapart : Apart ts rest) :
    spanFrom stop .outside previous (ts ++ rest) =
      (ts ++ (spanFrom stop .outside (lastPiece previous ts) rest).1,
        (spanFrom stop .outside (lastPiece previous ts) rest).2) := by
  refine Passage.spanFrom_append ((h .outside previous rest hstart hapart).mono ?_)
  rintro n p t ⟨_, hbase⟩
  rw [Bool.and_eq_true, not_and]
  intro hout
  rw [hvisit p t (hbase (beq_iff_eq.1 hout))]
  simp

/-- The cut before the first stop after a span without one. -/
theorem spanFrom_stop (hapart : Apart ts (t :: rest))
    (hstop : stop (lastPiece previous ts) t.toPiece) :
    spanFrom stop .outside previous (ts ++ t :: rest) = (ts, t :: rest) := by
  rw [h.spanFrom_append hvisit hstart hapart, spanFrom_cons_stop (by simp [hstop]; rfl),
    append_nil]

/-- The cut of a span without a stop. -/
theorem spanFrom_none : spanFrom stop .outside previous ts = (ts, []) := by
  have hcut := h.spanFrom_append hvisit hstart (Apart.nil ts)
  simpa [spanFrom] using hcut

end Neutral

/-- The tokens are the parts with a comma between each two of them. -/
inductive Joined : List (List Token) → List Token → Prop
  | last (part : List Token) : Joined [part] part
  | cons {parts : List (List Token)} {ts : List Token} {comma : Token} (part : List Token)
      (hcomma : comma.isPunct ',') (h : Joined parts ts) :
      Joined (part :: parts) (part ++ comma :: ts)

/-- Neutral spans without commas of their own are the parts of a list. -/
theorem Joined.splitCommas {parts : List (List Token)} (h : Joined parts ts)
    (hparts : ∀ part ∈ parts, Neutral (fun _ => True) (fun _ p => p.isPunct ',' = false) part) :
    splitCommas ts = parts := by
  induction h with
  | last part =>
    have hpart := hparts part (mem_singleton_self part)
    rw [splitCommas_eq, spanAtDepth, hpart.spanFrom_none (fun _ _ hp => hp) trivial]
  | @cons parts ts comma part hcomma _ ih =>
    obtain ⟨hpart, hlater⟩ := forall_mem_cons.1 hparts
    have hkind : comma.kind ≠ .keyword := by simp [kind_of_isPunct hcomma]
    have hapart := Apart.of_head (closesAfterEnd_of_kind hkind) part ts
    rw [splitCommas_eq, spanAtDepth, hpart.spanFrom_stop (fun _ _ hp => hp) trivial hapart hcomma]
    exact congrArg _ (ih hlater)

/-! ### Spans that pass -/

/-- Whether the first token closes nothing together with what stands before it. -/
def StartsApart (ts : List Token) : Prop := ∀ t ∈ ts.head?, t.closesAfterEnd = none

namespace StartsApart

variable {α : Type} {ts us : List Token}

theorem apart (h : StartsApart us) (ts : List Token) : Apart ts us :=
  fun _ _ u hu => closesWith_eq_none_of_next (h u hu)

theorem nil : StartsApart [] := by
  intro t ht
  cases ht

theorem cons (h : t.closesAfterEnd = none) (ts : List Token) : StartsApart (t :: ts) := by
  intro u hu
  cases hu
  exact h

theorem append (hts : StartsApart ts) (hus : StartsApart us) : StartsApart (ts ++ us) := by
  cases ts with
  | nil => exact hus
  | cons t ts => exact hts

theorem flatMap {f : α → List Token} {as : List α} (h : ∀ a ∈ as, StartsApart (f a)) :
    StartsApart (as.flatMap f) := by
  induction as with
  | nil => exact nil
  | cons a as ih =>
    rw [flatMap_cons]
    exact (h a mem_cons_self).append (ih fun b hb => h b (mem_cons_of_mem a hb))

end StartsApart

theorem Piece.closesAfterEnd_of_inline (h : p.IsInline) : p.closesAfterEnd = none := by
  obtain ⟨_, hif, hcase, hloop⟩ := opens_eq_none_iff.1 h.opens
  simp [closesAfterEnd, hif, hcase, hloop]

namespace Passes

variable {α : Type} {ts us : List Token}

theorem nil : Passes [] := Neutral.nil

theorem append (hts : Passes ts) (hus : Passes us) (hapart : Apart ts us) : Passes (ts ++ us) :=
  Neutral.append hts hus hapart fun _ _ => trivial

theorem cons (h : t.IsInline) (hus : Passes us) : Passes (t :: us) :=
  Neutral.cons h (fun _ _ => trivial) hus trivial

theorem flatMap {f : α → List Token} {as : List α} (h : ∀ a ∈ as, Passes (f a))
    (hstart : ∀ a ∈ as, StartsApart (f a)) : Passes (as.flatMap f) := by
  induction as with
  | nil => exact nil
  | cons a as ih =>
    rw [flatMap_cons]
    have hlater : ∀ b ∈ as, b ∈ a :: as := fun b hb => mem_cons_of_mem a hb
    refine (h a mem_cons_self).append (ih (fun b hb => h b (hlater b hb))
      fun b hb => hstart b (hlater b hb)) ?_
    exact (StartsApart.flatMap fun b hb => hstart b (hlater b hb)).apart _

end Passes

/-! ### The end of the outer block -/

theorem isOutside_outerBlock : outerBlock.isOutside = false := by decide

theorem Passes.splitEnd_append (h : Passes ts) (hapart : Apart ts rest) :
    splitEnd .outerBlock (ts ++ rest) =
      (ts ++ (splitEnd .outerBlock rest).1, (splitEnd .outerBlock rest).2) := by
  have hpassage := h .outerBlock none rest trivial hapart
  refine Passage.splitEnd_append (hpassage.mono ?_) isOutside_outerBlock
  rintro n p t ⟨hwithin, _⟩
  exact isOutside_of_within hwithin isOutside_outerBlock

section

variable {t : Token} {rest : List Token}

theorem enter_outerBlock_end (hend : t.isKeyword "END") :
    (outerBlock.enter t.toPiece).isOutside := by
  have hframed : outerBlock = outside.framed .block := rfl
  rw [hframed, enter_framed_of_end hend]
  rfl

theorem splitEnd_end (hend : t.isKeyword "END")
    (hcloses : ∀ u ∈ rest.head?, t.closesWith u.toPiece = none) :
    splitEnd .outerBlock (t :: rest) = ([], some rest) := by
  cases rest with
  | nil => simp [splitEnd, enter_outerBlock_end hend, hend]
  | cons u rest => simp [splitEnd, hcloses u rfl, enter_outerBlock_end hend, hend]

theorem splitBody_end (hend : t.isKeyword "END") (declaring : Bool)
    (hcloses : ∀ u ∈ rest.head?, t.closesWith u.toPiece = none) :
    splitBody .outerBlock declaring (t :: rest) = ([], .closed rest) := by
  have hexception : t.isKeyword "EXCEPTION" = false := isKeyword_eq_false hend (by decide)
  cases rest with
  | nil =>
    simp [splitBody, startsHandlers, hexception, enter_outerBlock_end hend, hend]
  | cons u rest =>
    simp [splitBody, startsHandlers, hexception, hcloses u rfl, enter_outerBlock_end hend, hend]

theorem splitBody_exception (hword : t.isKeyword "EXCEPTION") (rest : List Token) :
    splitBody .outerBlock false (t :: rest) = ([], .handlers rest) := by
  have hstarts : startsHandlers .outerBlock false t := by
    simp [startsHandlers, hword]
    rfl
  cases rest <;> simp [splitBody, hstarts]

end

end TriggerDialect
