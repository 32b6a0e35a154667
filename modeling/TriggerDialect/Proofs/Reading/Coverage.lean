import TriggerDialect.Grammar.Statements
import TriggerDialect.Proofs.Nesting.Passage

/-!
# Runs that cover the literals

The reader cuts token lists at reserved words, marks and names, and keeps the runs between them.
`Covered P ts` says that every literal and every bind variable of `ts` stands in a run with the
property `P`. It is closed under all that a cut does: runs side by side (`append`), a token that
is no literal in front (`cons`), and runs that are themselves cut (`bind`).
-/

namespace TriggerDialect

open List

variable {front rest ts : List Token} {word : String} {t : Token} {previous : Option Piece}
  {n : Nesting} {stop : Option Piece → Piece → Bool} {after : Option (List Token)}
  {sections : Sections}

/-- Whether the piece is a literal or a bind variable. -/
def Piece.isLiteral (p : Piece) : Bool :=
  p.kind == .stringLiteral || p.kind == .numericLiteral || p.kind == .bindVariable

namespace Piece

variable {p : Piece}

theorem isLiteral_of_kind {kind : Kind} (h : p.kind = kind)
    (hkind : kind = .keyword ∨ kind = .identifier ∨ kind = .punctuation ∨ kind = .operator) :
    p.isLiteral = false := by
  rcases hkind with rfl | rfl | rfl | rfl <;> simp [isLiteral, h]

theorem isLiteral_of_isKeyword (h : p.isKeyword word) : p.isLiteral = false :=
  isLiteral_of_kind (kind_of_isKeyword h) (.inl rfl)

theorem isLiteral_of_isIdentifier (h : p.isIdentifier) : p.isLiteral = false :=
  isLiteral_of_kind (beq_iff_eq.1 h) (.inr (.inl rfl))

theorem isLiteral_of_isPunct {mark : Char} (h : p.isPunct mark) : p.isLiteral = false :=
  isLiteral_of_kind (kind_of_isPunct h) (.inr (.inr (.inl rfl)))

theorem isLiteral_of_isOp {op : String} (h : p.isOp op) : p.isLiteral = false := by
  simp only [isOp, Bool.and_eq_true, beq_iff_eq] at h
  exact isLiteral_of_kind h.1 (.inr (.inr (.inr rfl)))

theorem isLiteral_of_isSegment (h : p.isSegment) : p.isLiteral = false := by
  simp only [isSegment, Bool.or_eq_true, beq_iff_eq] at h
  rcases h with h | h
  · exact isLiteral_of_kind h (.inr (.inl rfl))
  · exact isLiteral_of_kind h (.inl rfl)

theorem isLiteral_of_isWord (h : p.isWord word) : p.isLiteral = false := by
  simp only [isWord, Bool.and_eq_true, Bool.or_eq_true, beq_iff_eq] at h
  rcases h.1 with h | h
  · exact isLiteral_of_kind h (.inl rfl)
  · exact isLiteral_of_kind h (.inr (.inl rfl))

end Piece

/-! ### Runs of tokens that cover the literals -/

/-- Every literal of the tokens stands in a run of them that has the property. -/
def Covered (P : List Token → Prop) (ts : List Token) : Prop :=
  ∀ front t rest, ts = front ++ t :: rest → t.isLiteral →
    ∃ before after, before <:+ front ∧ after <+: rest ∧ P (before ++ t :: after)

/-- Tokens without literals. -/
def Bare (ts : List Token) : Prop := ∀ t ∈ ts, t.isLiteral = false

theorem Bare.append {us : List Token} (hts : Bare ts) (hus : Bare us) : Bare (ts ++ us) :=
  fun t ht => (mem_append.1 ht).elim (hts t) (hus t)

theorem Bare.cons (ht : t.isLiteral = false) (hts : Bare ts) : Bare (t :: ts) :=
  forall_mem_cons.2 ⟨ht, hts⟩

theorem Bare.nil : Bare [] := fun _ ht => by cases ht

/-- Only tokens without literals stand before `rest`. -/
def BareTo (rest ts : List Token) : Prop := ∃ front, ts = front ++ rest ∧ Bare front

namespace BareTo

variable {ts us vs : List Token} {t : Token}

theorem refl (ts : List Token) : BareTo ts ts := ⟨[], rfl, .nil⟩

theorem cons (ht : t.isLiteral = false) (h : BareTo us ts) : BareTo us (t :: ts) := by
  obtain ⟨front, rfl, hfront⟩ := h
  exact ⟨t :: front, rfl, .cons ht hfront⟩

theorem trans (hus : BareTo us ts) (hvs : BareTo vs us) : BareTo vs ts := by
  obtain ⟨front, rfl, hfront⟩ := hus
  obtain ⟨middle, rfl, hmiddle⟩ := hvs
  exact ⟨front ++ middle, (append_assoc _ _ _).symm, hfront.append hmiddle⟩

theorem bare (h : BareTo us ts) (hus : Bare us) : Bare ts := by
  obtain ⟨front, rfl, hfront⟩ := h
  exact hfront.append hus

end BareTo

namespace Covered

variable {P Q : List Token → Prop} {ts us : List Token} {t : Token}

theorem of_bare (h : Bare ts) : Covered P ts := by
  rintro front t rest rfl hliteral
  rw [h t (by simp)] at hliteral
  cases hliteral

theorem self (h : P ts) : Covered P ts := by
  rintro front t rest rfl _
  exact ⟨front, rest, suffix_refl _, prefix_refl _, h⟩

theorem append (hts : Covered P ts) (hus : Covered P us) : Covered P (ts ++ us) := by
  intro front t rest hsplit hliteral
  rcases append_eq_append_iff.1 hsplit with ⟨middle, rfl, hus'⟩ | ⟨middle, hts', hrest⟩
  · obtain ⟨before, after, hbefore, hafter, h⟩ := hus middle t rest hus' hliteral
    exact ⟨before, after, hbefore.trans (suffix_append _ _), hafter, h⟩
  · cases middle with
    | nil =>
      obtain ⟨before, after, hbefore, hafter, h⟩ := hus [] t rest hrest.symm hliteral
      exact ⟨before, after, hbefore.trans nil_suffix, hafter, h⟩
    | cons u middle =>
      cases hrest
      obtain ⟨before, after, hbefore, hafter, h⟩ := hts front t middle hts' hliteral
      exact ⟨before, after, hbefore, hafter.trans (prefix_append _ _), h⟩

theorem cons (ht : t.isLiteral = false) (hts : Covered P ts) : Covered P (t :: ts) :=
  (of_bare (.cons ht .nil)).append hts

theorem of_bareTo (h : BareTo us ts) (hus : Covered P us) : Covered P ts := by
  obtain ⟨front, rfl, hfront⟩ := h
  exact (of_bare hfront).append hus

/-- Runs that are themselves covered by runs can be replaced by these. -/
theorem bind (hts : Covered P ts) (h : ∀ us, P us → Covered Q us) : Covered Q ts := by
  intro front t rest hsplit hliteral
  obtain ⟨before, after, hbefore, hafter, hrun⟩ := hts front t rest hsplit hliteral
  obtain ⟨before', after', hbefore', hafter', hrun'⟩ := h _ hrun before t after rfl hliteral
  exact ⟨before', after', hbefore'.trans hbefore, hafter'.trans hafter, hrun'⟩

theorem mono (hts : Covered P ts) (h : ∀ us, P us → Q us) : Covered Q ts :=
  hts.bind fun us hus => .self (h us hus)

/-- A covered literal stands between two indices of the tokens. -/
theorem extract (h : Covered P ts) {i : Nat} (hi : ts[i]? = some t) (hliteral : t.isLiteral) :
    ∃ a b, a ≤ i ∧ i < b ∧ b ≤ ts.length ∧ P (ts.extract a b) := by
  obtain ⟨hlt, ht⟩ := List.getElem?_eq_some_iff.1 hi
  have hsplit : ts = ts.take i ++ t :: ts.drop (i + 1) := by
    rw [← ht, ← List.drop_eq_getElem_cons hlt, List.take_append_drop]
  obtain ⟨before, after, ⟨front, hfront⟩, ⟨rest, hrest⟩, hrun⟩ := h _ t _ hsplit hliteral
  have hlength := congrArg List.length hfront
  have hlength' := congrArg List.length hrest
  simp only [List.length_append, List.length_take, List.length_drop] at hlength hlength'
  refine ⟨front.length, i + 1 + after.length, by omega, by omega, by omega, ?_⟩
  have hwhole : ts = front ++ ((before ++ t :: after) ++ rest) := by
    rw [hsplit, ← hfront, ← hrest]
    simp
  have hcount : i + 1 + after.length - front.length = (before ++ t :: after).length := by
    simp only [List.length_append, List.length_cons]
    omega
  rwa [List.extract_eq_take_drop, hcount, hwhole, List.drop_left, List.take_left]

end Covered

/-! ### Cuts -/

variable {P : List Token → Prop}

/-- A cut before a reserved word or a mark covers what its two sides cover. -/
theorem Covered.of_spanFrom (h : spanFrom stop n previous ts = (front, t :: rest))
    (hstop : ∀ p q, stop p q → q.isLiteral = false) (hfront : Covered P front)
    (hrest : Covered P rest) : Covered P ts := by
  obtain ⟨p, ht⟩ := stop_of_spanFrom h
  rw [eq_of_spanFrom h]
  exact hfront.append (.cons (hstop p _ ht) hrest)

theorem Covered.of_spanFrom_nil (h : spanFrom stop n previous ts = (front, []))
    (hfront : Covered P front) : Covered P ts := by
  rwa [eq_of_spanFrom h, append_nil]

theorem isLiteral_of_clause {words : List String} {p : Option Piece} {q : Piece}
    (h : (p.all (·.isPunct ';') && words.any q.isKeyword)) : q.isLiteral = false := by
  rw [Bool.and_eq_true, any_eq_true] at h
  obtain ⟨word, _, hword⟩ := h.2
  exact Piece.isLiteral_of_isKeyword hword

theorem splitCommas_covered (ts : List Token) : Covered (· ∈ splitCommas ts) ts := by
  fun_induction splitCommas ts with
  | case1 ts hrest =>
    exact .of_spanFrom_nil (Prod.ext rfl hrest) (.self (mem_singleton_self _))
  | case2 ts comma rest hrest _ ih =>
    exact .of_spanFrom (Prod.ext rfl hrest) (fun _ _ => Piece.isLiteral_of_isPunct)
      (.self mem_cons_self) (ih.mono fun us hus => mem_cons_of_mem _ hus)

theorem bracketGroup_covered {inner : List Token} (h : bracketGroup ts = some (inner, []))
    (hinner : Covered P inner) : Covered P ts := by
  obtain ⟨opening, closing, hopening, hclosing, rfl⟩ := bracketGroup_eq h
  refine .cons (Piece.isLiteral_of_isPunct hopening) (hinner.append (.of_bare ?_))
  exact .cons (Piece.isLiteral_of_isPunct hclosing) .nil

namespace Sections

theorem AfterWord.covered (h : AfterWord ts after) (hafter : Covered P (after.getD [])) :
    Covered P ts := by
  cases after with
  | none =>
    rw [show ts = [] from h]
    exact hafter
  | some after =>
    obtain ⟨word, hword, rfl⟩ := h
    exact .cons (Piece.isLiteral_of_kind hword (.inl rfl)) hafter

theorem takeLabel_bareTo (ts : List Token) : BareTo (takeLabel ts).2 ts := by
  fun_cases takeLabel ts with
  | case1 => exact .refl _
  | case2 t rest ht => exact .cons (Piece.isLiteral_of_isIdentifier ht) (.refl _)
  | case3 => exact .refl _

theorem dropOne_bareTo {p : Token → Bool} (hp : ∀ t, p t → t.isLiteral = false)
    (ts : List Token) : BareTo (dropOne p ts) ts := by
  fun_cases dropOne p ts with
  | case1 => exact .refl _
  | case2 t rest ht => exact .cons (hp t ht) (.refl _)
  | case3 => exact .refl _

/-- Where nothing is left after a block, its final `END` is followed by a name and marks only. -/
theorem assemble_bare {before statements : List Token} {handlers : Option (List Token)}
    (h : assemble ts before statements handlers after = .ok sections)
    (htrailing : sections.trailing = []) : Bare (after.getD []) := by
  unfold assemble at h
  split at h
  rename_i label rest hlabel
  simp only at h
  split at h
  · cases h
  · cases h
    have hsemicolon := dropOne_bareTo (p := (·.isPunct ';'))
      (fun _ => Piece.isLiteral_of_isPunct) rest
    have hslash := dropOne_bareTo (p := (·.isOp "/")) (fun _ => Piece.isLiteral_of_isOp)
      (dropOne (·.isPunct ';') rest)
    have hname := takeLabel_bareTo (after.getD [])
    rw [hlabel] at hname
    simp only at htrailing
    rw [htrailing] at hslash
    exact ((hname.trans hsemicolon).trans hslash).bare .nil

/-- A block without declarations and with nothing after it is covered by its statements and its
handlers. -/
theorem split_covered (ht : t.isKeyword "BEGIN") (h : split (t :: rest) = .ok sections)
    (htrailing : sections.trailing = []) (hstatements : Covered P sections.statements)
    (hhandlers : ∀ inner, sections.handlers = some inner → Covered P inner) :
    Covered P (t :: rest) := by
  have hbegin : splitBegin none (t :: rest) = .ok (some ([], rest)) := by
    rw [splitBegin, if_pos ht]
  obtain ⟨tail, hrest, htail⟩ := splitBody_eq .outerBlock false rest
  refine .cons (Piece.isLiteral_of_isKeyword ht) ?_
  unfold split at h
  simp only [hbegin] at h
  split at h
  all_goals
    rename_i hsplit
    rw [hsplit] at hrest htail
    obtain ⟨rfl, hsection⟩ := assemble_eq h
    have hafter := assemble_bare h htrailing
    rw [hrest]
    refine hstatements.append (htail.covered ?_)
  · rename_i after
    obtain ⟨tail', hafter', htail'⟩ := splitEnd_eq .outerBlock after
    have hinner := hhandlers _ hsection
    exact hafter' ▸ hinner.append (htail'.covered (.of_bare hafter))
  · exact .of_bare hafter
  · exact .of_bare .nil

end Sections

end TriggerDialect
