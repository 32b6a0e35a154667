import TriggerDialect.Proofs.Nesting.Passage
import TriggerDialect.Proofs.Reading.Inside

/-!
# Where the heads of loops are cut

The head of a loop that was read stands before a token that closes nothing together with its last
one, at whatever depth the loop stands (`statements_cutFrom`). In tokens of one source a fragment
stands in one place only (`cutFrom_unique`), so the place of a head is known from its text.
-/

namespace TriggerDialect

open List

variable {after front head rest ts us : List Token} {t word : Token} {form : Form (List Token)}
  {stop : Option Piece → Piece → Bool} {n : Nesting} {previous : Option Piece} {β : Type}

/-! ### Searches stop apart from what stands before -/

/-- The word of a closing pair is not `END`. -/
theorem Piece.not_end_of_closesWith {p q next : Piece} {frame : Frame}
    (h : p.closesWith q = some frame) : q.closesWith next = none := by
  refine closesWith_eq_none ?_
  rw [← Bool.not_eq_true]
  intro hend
  rw [closesWith_eq_none_of_next (closesAfterEnd_of_end hend)] at h
  cases h

/-- A search never stops at the second word of a closing pair. -/
theorem apart_span (stop : Option Piece → Piece → Bool) (n : Nesting) (previous : Option Piece)
    (ts : List Token) : Apart (spanFrom stop n previous ts).1 (spanFrom stop n previous ts).2 := by
  fun_induction spanFrom stop n previous ts with
  | case1 => exact .nil _
  | case2 => exact fun p hp => by cases hp
  | case3 => exact .nil _
  | case4 => exact fun p hp => by cases hp
  | case5 n previous t u ts _ frame hcloses later ih =>
    show Apart ([t, u] ++ later.1) later.2
    refine ih.append_left fun _ => ?_
    rintro p ⟨⟩ w _
    exact Piece.not_end_of_closesWith hcloses
  | case6 n previous t u ts _ hcloses later ih =>
    show Apart ([t] ++ later.1) later.2
    refine ih.append_left fun hfront => ?_
    rintro p ⟨⟩ w hw
    have hrest : later.2 = u :: ts := by
      have hwhole := spanFrom_append stop (n.enter t.toPiece) (some t.toPiece) (u :: ts)
      rwa [show (spanFrom stop _ _ (u :: ts)).1 = [] from hfront] at hwhole
    rw [show (spanFrom stop _ _ (u :: ts)).2 = u :: ts from hrest] at hw
    cases hw
    exact hcloses

theorem apart_of_spanFrom (h : spanFrom stop n previous ts = (front, rest)) : Apart front rest := by
  have hapart := apart_span stop n previous ts
  rwa [h] at hapart

/-! ### Heads -/

/-- The last expression in the head of a loop. -/
def Form.head? : Form β → Option Fragment
  | .queryLoop _ query _ => some query
  | .rangeLoop _ _ _ upper _ => some upper
  | .whileLoop condition _ => some condition
  | _ => none

@[simp] theorem Form.head?_map {γ : Type} (f : β → γ) (form : Form β) :
    (form.map f).head? = form.head? := by
  cases form <;> rfl

/-- A text that was cut from tokens, before one that closes nothing together with its end. -/
def CutFrom (ts : List Token) (text : Fragment) : Prop :=
  ∃ before span t after, ts = before ++ (span ++ t :: after) ∧ Apart span [t] ∧
    text = Fragment.ofTokens span

theorem CutFrom.mono {text : Fragment} (h : CutFrom us text) (hpart : us <:+: ts) :
    CutFrom ts text := by
  obtain ⟨before, span, t, after, rfl, hapart, htext⟩ := h
  obtain ⟨front, rest, rfl⟩ := hpart
  exact ⟨front ++ before, span, t, after ++ rest, by simp, hapart, htext⟩

/-- Only the last tokens of a span matter for what it closes. -/
theorem Apart.of_append_right {front : List Token} (h : Apart (front ++ ts) us) : Apart ts us := by
  intro p hp u hu
  refine h p ?_ u hu
  rw [lastPiece_append, lastPiece_eq]
  rw [lastPiece_eq, Option.or_none] at hp
  rw [hp]
  rfl

namespace Grammar

variable {body : List Token}

/-- The head of a loop stands before a token that closes nothing together with its end. -/
theorem loopParts_eq {what : String} (h : loopParts what ts = .ok (head, body)) :
    ∃ word after, ts = head ++ word :: (body ++ after) ∧ Apart head [word] := by
  obtain ⟨inner, word, hend, hspan⟩ := loopParts_cut h
  obtain ⟨first, tail, hts, _⟩ := stripEnd_eq hend
  refine ⟨word, first :: tail, ?_, fun p hp u hu => apart_of_spanFrom hspan p hp u hu⟩
  rw [hts, eq_of_spanFrom hspan]
  simp

theorem loopQuery_cutFrom (hapart : Apart head [word]) :
    CutFrom (head ++ word :: after) (loopQuery head) := by
  unfold loopQuery
  split
  · rename_i inner hgroup
    obtain ⟨opening, closing, _, hclosing, rfl⟩ := bracketGroup_eq hgroup
    have hkind : closing.kind ≠ .keyword := by simp [Piece.kind_of_isPunct hclosing]
    refine ⟨[opening], inner, closing, word :: after, by simp, ?_, rfl⟩
    exact .of_head (Piece.closesAfterEnd_of_kind hkind) _ _
  · exact ⟨[], head, word, after, rfl, hapart, rfl⟩

theorem loopOver_cutFrom {name : String} (h : loopOver name head body = .ok form)
    (hapart : Apart head [word]) : ∀ text ∈ form.head?, CutFrom (head ++ word :: after) text := by
  obtain ⟨front, dots, upper, hspan, rfl⟩ | rfl := loopOver_cut h
  · rintro text ⟨⟩
    have hsplit : head = (front ++ [dots]) ++ upper := by simpa using eq_of_spanFrom hspan
    rw [hsplit] at hapart ⊢
    exact ⟨front ++ [dots], upper, word, after, by simp, hapart.of_append_right, rfl⟩
  · rintro text ⟨⟩
    exact loopQuery_cutFrom hapart

/-- The head of a recognised loop is cut where it closes nothing. -/
theorem recognise_cutFrom {path : String} {r : Recognised} (h : recognise path ts = .ok r) :
    ∀ text ∈ r.form.head?, CutFrom ts text := by
  cases Recognition.of_recognise h with
  | simple => rintro text ⟨⟩
  | @compound t rest form _ hread =>
    intro text htext
    rw [quiet, Form.head?_map] at htext
    refine CutFrom.mono ?_ (suffix_cons t rest).isInfix
    cases hread with
    | conditional hread =>
      obtain ⟨_, _, _, _, _, _, _, rfl⟩ := conditional_cut hread
      cases htext
    | selection hread =>
      obtain ⟨_, _, _, _, _, _, _, _, rfl⟩ := selection_cut hread
      cases htext
    | counted hread =>
      obtain ⟨counter, word, rest, head, body, rfl, _, _, hparts, hover⟩ := counted_cut hread
      obtain ⟨loop, after, rfl, hapart⟩ := loopParts_eq hparts
      have hcut : CutFrom (head ++ loop :: (body ++ after)) text :=
        loopOver_cutFrom hover hapart text htext
      exact hcut.mono ⟨[counter, word], [], by simp⟩
    | whileLoop hread =>
      obtain ⟨head, body, hparts, rfl⟩ := whileLoop_cut hread
      obtain ⟨loop, after, rfl, hapart⟩ := loopParts_eq hparts
      cases htext
      exact ⟨[], head, loop, _, rfl, hapart, rfl⟩
    | endlessLoop hread =>
      obtain ⟨_, _, rfl⟩ := endlessLoop_cut hread
      cases htext
  | block => rintro text ⟨⟩

end Grammar

/-- Every loop inside a list has its head cut from the tokens where it closes nothing. -/
def HeadsCutFrom (ts : List Token) (ss : List Statement) : Prop :=
  ∀ s, Statement.Inside s ss → ∀ text ∈ s.form.head?, CutFrom ts text

/-- Every loop of a list that was read has its head cut from the tokens where it closes nothing. -/
theorem Grammar.statements_cutFrom (path : String) (ts : List Token) :
    HeadsCutFrom ts (statements path ts).value := by
  have hinside := statements_inside (P := fun ts form => ∀ text ∈ form.head?, CutFrom ts text)
    (by rintro ts simple text ⟨⟩)
    (fun us ts form hpart hcut text htext => (hcut text htext).mono hpart)
    (fun path ts r hread => by rw [Form.outline, Form.head?_map]; exact recognise_cutFrom hread)
    path ts
  intro s hs
  have hhead := hinside s hs
  rwa [Form.outline, Form.head?_map] at hhead

/-! ### A fragment stands in one place -/

namespace Piece

theorem length_renderAfter_append (before : Option Piece) (previous : Piece) (ps qs : List Piece) :
    (renderAfter before previous ps).length + total (fun q => q.text.length) qs ≤
      (renderAfter before previous (ps ++ qs)).length := by
  induction ps generalizing before previous with
  | nil =>
    induction qs generalizing before previous with
    | nil => exact Nat.le_refl _
    | cons q qs ih =>
      have hlater := ih (some previous) q
      simp only [nil_append, renderAfter, length_append, total_cons, length_nil,
        String.length_toList] at hlater ⊢
      omega
  | cons p ps ih =>
    have hlater := ih (some previous) p
    simp only [cons_append, renderAfter, length_append] at hlater ⊢
    omega

theorem length_renderChars_append (ps qs : List Piece) :
    (renderChars ps).length + total (fun q => q.text.length) qs ≤
      (renderChars (ps ++ qs)).length := by
  cases ps with
  | cons p ps =>
    have hlater := length_renderAfter_append none p ps qs
    simp only [cons_append, renderChars, length_append]
    omega
  | nil =>
    cases qs with
    | nil => exact Nat.le_refl _
    | cons q qs =>
      have hlater := length_renderAfter_append none q [] qs
      simp only [nil_append, renderChars, renderAfter, length_append, total_cons, length_nil,
        String.length_toList] at hlater ⊢
      omega

end Piece

/-- Tokens as they stand in a source: in order, and none empty. -/
structure InSource (ts : List Token) : Prop where
  ordered : ts.Pairwise fun t u => t.offset < u.offset
  filled : ∀ t ∈ ts, t.text ≠ ""

/-- A longer span has a longer text. -/
theorem eq_nil_of_render_eq (ts : List Token) (hfilled : ∀ u ∈ us, u.text ≠ "")
    (h : render (ts ++ us) = render ts) : us = [] := by
  have hlength := Piece.length_renderChars_append (pieces ts) (pieces us)
  have hchars : Piece.renderChars (pieces ts ++ pieces us) = Piece.renderChars (pieces ts) := by
    have htexts := congrArg String.toList h
    simpa [render, Piece.render, pieces] using htexts
  rw [hchars] at hlength
  cases us with
  | nil => rfl
  | cons u us =>
    have hu := hfilled u mem_cons_self
    have hpositive : 0 < u.text.length := by
      rw [Nat.pos_iff_ne_zero]
      exact fun hzero => hu (String.length_eq_zero_iff.1 hzero)
    simp only [pieces, map_cons, total_cons] at hlength
    omega

/-- Two places of tokens with the same offset are the same place. -/
theorem eq_of_offset_eq {before before' after' : List Token} {t' : Token}
    (hordered : (before ++ t :: after).Pairwise fun t u => t.offset < u.offset)
    (heq : before ++ t :: after = before' ++ t' :: after') (hoffset : t.offset = t'.offset) :
    before = before' ∧ t :: after = t' :: after' := by
  induction before generalizing before' with
  | nil =>
    cases before' with
    | nil => exact ⟨rfl, heq⟩
    | cons u before' =>
      cases heq
      have hlt := (pairwise_cons.1 hordered).1 t' (by simp)
      omega
  | cons u before ih =>
    cases before' with
    | nil =>
      cases heq
      have hlt := (pairwise_cons.1 hordered).1 t (by simp)
      omega
    | cons u' before' =>
      rw [cons_append, cons_append, cons.injEq] at heq
      obtain ⟨rfl, heq⟩ := heq
      obtain ⟨rfl, hafter⟩ := ih (pairwise_cons.1 hordered).2 heq
      exact ⟨rfl, hafter⟩

/-- In the tokens of a source a fragment that is not empty stands in one place. -/
theorem cutFrom_unique {span : List Token} (hsource : InSource ts) (before rest : List Token)
    (hts : ts = before ++ (span ++ t :: rest)) (hspan : span ≠ [])
    (hcut : CutFrom ts (Fragment.ofTokens span)) : Apart span [t] := by
  obtain ⟨before', span', t', rest', hts', hapart, htext⟩ := hcut
  simp only [Fragment.ofTokens, Fragment.mk.injEq] at htext
  obtain ⟨hrender, hoffset⟩ := htext
  have hfilled : ∀ u ∈ span, u.text ≠ "" := fun u hu => hsource.filled u (by simp [hts, hu])
  have hfilled' : ∀ u ∈ span', u.text ≠ "" := fun u hu => hsource.filled u (by simp [hts', hu])
  obtain ⟨first, later, rfl⟩ := exists_cons_of_ne_nil hspan
  cases span' with
  | nil => exact absurd (eq_nil_of_render_eq [] hfilled hrender) (by simp)
  | cons first' later' =>
    have hordered := hsource.ordered
    have hwhole : before ++ first :: (later ++ t :: rest) =
        before' ++ first' :: (later' ++ t' :: rest') := hts.symm.trans hts'
    rw [hts] at hordered
    have hsame : (first :: later) ++ t :: rest = (first' :: later') ++ t' :: rest' :=
      (eq_of_offset_eq hordered hwhole hoffset).2
    -- one of the two spans starts the other, and their texts are equally long
    rcases append_eq_append_iff.1 hsame with ⟨more, hmore, hrest⟩ | ⟨more, hmore, hrest⟩
    · rw [hmore] at hrender hfilled'
      have hnil := eq_nil_of_render_eq _ (fun u hu => hfilled' u (by simp [hu])) hrender.symm
      rw [hnil, append_nil] at hmore
      rw [hnil, nil_append] at hrest
      cases hrest
      rwa [hmore] at hapart
    · rw [hmore] at hrender hfilled
      have hnil := eq_nil_of_render_eq _ (fun u hu => hfilled u (by simp [hu])) hrender
      rw [hnil, append_nil] at hmore
      rw [hnil, nil_append] at hrest
      cases hrest
      rwa [hmore]

end TriggerDialect
