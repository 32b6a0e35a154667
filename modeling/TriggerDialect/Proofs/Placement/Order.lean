import TriggerDialect.Proofs.Header.Grammar
import TriggerDialect.Proofs.Placement.Trigger
import TriggerDialect.Proofs.Placement.Writing

/-!
# Order of tokens and declarations

Where a relocation keeps the order of the tokens, it keeps that of the declarations in every block
(`triggerOfTokens_keepsOrder`). Tokens that are in order have the numbers of their places behind
them: what is written for them is what is written for their pieces with numbers for offsets
(`written_numbered`). What is read from tokens depends on their pieces alone
(`triggerOfTokens_alike`).
-/

namespace TriggerDialect

variable {ts : List Token} {r : Relocation}

/-- Moving offsets keeps the order of the tokens. -/
def Relocation.KeepsOrder (r : Relocation) (ts : List Token) : Prop :=
  ∀ t ∈ ts, ∀ u ∈ ts, t.offset ≤ u.offset ↔ r.target t.offset ≤ r.target u.offset

theorem Declarations.StartsIn.keepsOrder {d : Declarations} (h : d.StartsIn ts)
    (hr : r.KeepsOrder ts) : d.KeepsOrder r := by
  intro a ha b hb
  obtain ⟨t, ht, hat⟩ := h a ha
  obtain ⟨u, hu, hbu⟩ := h b hb
  rw [hat, hbu]
  exact hr t ht u hu

/-- Where the order of the tokens is kept, so is that of the declarations in every block. -/
theorem Grammar.triggerOfTokens_keepsOrder {outcome : Outcome Trigger}
    (h : triggerOfTokens ts = .ok outcome) (hr : r.KeepsOrder ts) :
    Generate.TriggerKeepsOrder r outcome.value := by
  have hheader := (readHeader_isSuffix ts).subset
  unfold triggerOfTokens at h
  cases hsplit : Sections.split (readHeader ts).body with
  | error fault => simp only [hsplit] at h; cases h
  | ok sections =>
    simp only [hsplit] at h
    cases h
    obtain ⟨hstatements, hhandlers⟩ := Sections.split_behind hsplit
    have hinside : ∀ {us : List Token} {ss : List Statement}, us ⊆ (readHeader ts).body →
        Statement.AllInside (fun outline => ∀ d ∈ outline.declarations?, d.StartsIn us) ss →
        Generate.KeepsOrder r ss := fun hsubset hss s hs d hd =>
      ((hss s hs d hd).mono (List.Subset.trans hsubset hheader)).keepsOrder hr
    refine ⟨?_, hinside hstatements.isInfix.subset (statements_startsIn "" sections.statements), ?_⟩
    · cases hdeclared : sections.declarations with
      | none => simp only [triggerOf, hdeclared]; exact fun a ha => by cases ha
      | some inner =>
        have hsubset := List.Subset.trans (Sections.split_declarations hsplit hdeclared) hheader
        simp only [triggerOf, hdeclared]
        exact ((readDeclarations_startsIn inner).mono hsubset).keepsOrder hr
    · intro handler hhandler
      cases hsection : sections.handlers with
      | none => simp [triggerOf, hsection, handlerSection, handlerOutcomes, blockHandlers,
          HandlerSection.none, labelHandlers] at hhandler
      | some inner =>
        simp only [triggerOf, hsection] at hhandler
        exact hinside (hhandlers inner hsection).isInfix.subset (handlerSection_startsIn hhandler)

/-! ### Numbering -/

/-- Pieces as tokens that are numbered from one on. -/
def numbered (ps : List Piece) : List Token := ps.mapIdx fun i p => ⟨p, i + 1⟩

/-- Sends each number to the offset of that token. -/
def Relocation.onto (ts : List Token) : Relocation where
  target
    | 0 => 0
    | i + 1 => (ts[i]?.map Token.offset).getD 0
  target_zero := rfl

theorem moved_onto_numbered (ts : List Token) : moved (.onto ts) (numbered (pieces ts)) = ts := by
  apply List.ext_getElem
  · simp [numbered, pieces]
  · intro i hleft hright
    simp [numbered, pieces, moved, Relocation.onto, hright]

/-- Numbering tokens keeps their order. -/
theorem onto_keepsOrder (h : ts.Pairwise fun t u => t.offset < u.offset) :
    (Relocation.onto ts).KeepsOrder (numbered (pieces ts)) := by
  intro t ht u hu
  obtain ⟨i, hi, rfl⟩ := List.mem_iff_getElem.1 ht
  obtain ⟨j, hj, rfl⟩ := List.mem_iff_getElem.1 hu
  have hi' : i < ts.length := by simpa [numbered, pieces] using hi
  have hj' : j < ts.length := by simpa [numbered, pieces] using hj
  have hlt := List.pairwise_iff_getElem.1 h
  simp only [numbered, pieces, List.getElem_mapIdx, Relocation.onto, hi', hj',
    List.getElem?_eq_getElem, Option.map_some, Option.getD_some, Nat.add_le_add_iff_right]
  rcases Nat.lt_trichotomy i j with hij | rfl | hji
  · have := hlt i j hi' hj' hij
    omega
  · simp
  · have := hlt j i hj' hi' hji
    omega

/-- What is written for tokens in order is what is written for their pieces with numbers. -/
theorem Grammar.written_numbered {outcome numbering : Outcome Trigger}
    (hordered : ts.Pairwise fun t u => t.offset < u.offset) (h : triggerOfTokens ts = .ok outcome)
    (hnumbering : triggerOfTokens (numbered (pieces ts)) = .ok numbering) (mapping : Mapping)
    (options : Options) :
    (Generate.trigger mapping options outcome.value).sql =
        (Generate.trigger mapping options numbering.value).sql ∧
      Alike (Generate.trigger mapping options outcome.value).diagnostics
        (Generate.trigger mapping options numbering.value).diagnostics := by
  obtain ⟨placed, hplaced, hvalue, -, -⟩ := triggerOfTokens_moved (.onto ts) hnumbering
  rw [moved_onto_numbered, h] at hplaced
  cases hplaced
  rw [hvalue]
  exact Generate.trigger_moved
    (triggerOfTokens_keepsOrder hnumbering (onto_keepsOrder hordered)) mapping options

/-! ### Tokens with the same pieces -/

theorem alike_of_pieces_eq {us : List Token} (h : pieces ts = pieces us) : Alike ts us := by
  have herase : ∀ vs : List Token, moved .erase vs = (pieces vs).map (⟨·, 0⟩) := fun vs => by
    simp only [pieces, List.map_map]
    rfl
  rw [Alike, herase, herase, h]

namespace Grammar

/-- Where tokens cannot be read, others with the same pieces cannot either. -/
theorem triggerOfTokens_alike_error {ts us : List Token} {fault : StructureFault}
    (halike : Alike ts us) (h : triggerOfTokens ts = .error fault) :
    ∃ fault', triggerOfTokens us = .error fault' ∧ fault'.cause = fault.cause := by
  have herased := triggerOfTokens_moved_error .erase h
  rw [halike] at herased
  cases hus : triggerOfTokens us with
  | error fault' =>
    rw [triggerOfTokens_moved_error .erase hus] at herased
    have hcause := congrArg StructureFault.cause (Except.error.inj herased)
    exact ⟨fault', rfl, hcause⟩
  | ok outcome =>
    obtain ⟨_, hok, -⟩ := triggerOfTokens_moved .erase hus
    rw [herased] at hok
    cases hok

/-- From tokens with the same pieces the same is read, up to offsets. -/
theorem triggerOfTokens_alike {ts us : List Token} {outcome outcome' : Outcome Trigger}
    (halike : Alike ts us) (h : triggerOfTokens ts = .ok outcome)
    (h' : triggerOfTokens us = .ok outcome') :
    Alike outcome.value outcome'.value ∧ Alike outcome.notes outcome'.notes ∧
      outcome.found = outcome'.found := by
  obtain ⟨erased, herased, hvalue, hnotes, hfound⟩ := triggerOfTokens_moved .erase h
  obtain ⟨erased', herased', hvalue', hnotes', hfound'⟩ := triggerOfTokens_moved .erase h'
  rw [halike, herased'] at herased
  cases herased
  exact ⟨hvalue.symm.trans hvalue', hnotes.symm.trans hnotes', hfound.symm.trans hfound'⟩

end Grammar

end TriggerDialect
