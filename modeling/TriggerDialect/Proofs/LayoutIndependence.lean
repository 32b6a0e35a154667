import TriggerDialect.Conversion
import TriggerDialect.Proofs.Lexing.Tiling
import TriggerDialect.Proofs.Placement.Order

/-!
# Layout independence

Blanks, line breaks and comments decide where tokens stand and nothing else. Two sources with the
same pieces convert to the same text, with the same tree and the same reports up to offsets, or
both fail for the same cause. Offsets are compared in one place, where declarations are sorted, and
there the order of the tokens in the source decides.
-/

namespace TriggerDialect

open Grammar

/-- Two conversions with the same text, and trees and reports that differ in offsets only. -/
structure Conversion.SameUpToOffsets (a b : Conversion) : Prop where
  trigger : Alike a.trigger b.trigger
  sql : a.sql = b.sql
  diagnostics : Alike a.diagnostics b.diagnostics
  found : a.found = b.found

/-- Both sources fail with a broken block for the same cause, or both are converted to the same up
to offsets. -/
inductive SameResult : Except SourceFault Conversion → Except SourceFault Conversion → Prop where
  | failed {fault fault' : StructureFault} {position position' : Text.Position}
    (cause : fault.cause = fault'.cause) :
    SameResult (.error (.structural fault position)) (.error (.structural fault' position'))
  | converted {a b : Conversion} (same : a.SameUpToOffsets b) : SameResult (.ok a) (.ok b)

variable {mapping : Mapping} {options : Options} {source : String} {ts us : List Token}
  {outcome outcome' : Grammar.Outcome Trigger}

/-- The conversion of a source from which this was read. -/
def Conversion.ofOutcome (mapping : Mapping) (options : Options)
    (outcome : Grammar.Outcome Trigger) : Conversion :=
  let generated := Generate.trigger mapping options outcome.value
  ⟨outcome.value, generated.sql, outcome.notes ++ generated.diagnostics, outcome.found⟩

theorem convert_eq (h : Token.ofSource source = .ok ts) :
    convert mapping options source =
      ((triggerOfTokens ts).mapError fun fault =>
        .structural fault (Text.position source fault.offset)).map
          (.ofOutcome mapping options) := by
  unfold convert trigger
  rw [h]
  rfl

/-- What is read from tokens in order with the same pieces is converted to the same. -/
theorem Conversion.ofOutcome_sameUpToOffsets (hpieces : pieces ts = pieces us) (hts : InSource ts)
    (hus : InSource us) (h : triggerOfTokens ts = .ok outcome)
    (h' : triggerOfTokens us = .ok outcome') :
    (ofOutcome mapping options outcome).SameUpToOffsets (ofOutcome mapping options outcome') := by
  have halike := alike_of_pieces_eq hpieces
  obtain ⟨htree, hnotes, hfound⟩ := triggerOfTokens_alike halike h h'
  cases hnumbered : triggerOfTokens (numbered (pieces ts)) with
  | error fault =>
    -- the numbered pieces can be read, since the tokens can
    rw [← moved_onto_numbered ts, triggerOfTokens_moved_error _ hnumbered] at h
    cases h
  | ok numbering =>
    obtain ⟨hsql, hreports⟩ :=
      written_numbered hts.ordered h hnumbered mapping options
    rw [hpieces] at hnumbered
    obtain ⟨hsql', hreports'⟩ :=
      written_numbered hus.ordered h' hnumbered mapping options
    exact ⟨htree, hsql.trans hsql'.symm, hnotes.append (hreports.trans hreports'.symm), hfound⟩

/-- Two sources with the same pieces give the same result. -/
theorem convert_sameResult {source' : String} (h : Token.ofSource source = .ok ts)
    (h' : Token.ofSource source' = .ok us) (hpieces : pieces ts = pieces us) :
    SameResult (convert mapping options source) (convert mapping options source') := by
  have halike := alike_of_pieces_eq hpieces
  rw [convert_eq h, convert_eq h']
  cases hread : triggerOfTokens ts with
  | error fault =>
    obtain ⟨fault', hfault', hcause⟩ := triggerOfTokens_alike_error halike hread
    rw [hfault']
    exact .failed hcause.symm
  | ok outcome =>
    cases hread' : triggerOfTokens us with
    | error fault =>
      obtain ⟨_, hfault, -⟩ := triggerOfTokens_alike_error halike.symm hread'
      rw [hread] at hfault
      cases hfault
    | ok outcome' =>
      exact .converted (Conversion.ofOutcome_sameUpToOffsets hpieces (ofSource_inSource h)
        (ofSource_inSource h') hread hread')

/-- Sources that differ in blanks, line breaks and comments only give the same result: both fail
for the same cause, or both are converted to the same text, with trees and reports that are the
same up to offsets. In particular, comments can be blanked out first. -/
theorem convert_layoutIndependent (mapping : Mapping) (options : Options) :
    (∀ source source' ts us, Token.ofSource source = .ok ts → Token.ofSource source' = .ok us →
      pieces ts = pieces us →
        SameResult (convert mapping options source) (convert mapping options source')) ∧
    ∀ source blanked, blankComments source = .ok blanked →
      SameResult (convert mapping options blanked) (convert mapping options source) := by
  refine ⟨fun source source' ts us h h' hpieces => convert_sameResult h h' hpieces, ?_⟩
  intro source blanked hblanked
  obtain ⟨ps, hreads, hreads'⟩ := reads_blankComments hblanked
  obtain ⟨ts, hts, rfl⟩ := reads_iff_ofSource.1 hreads
  obtain ⟨us, hus, hpieces⟩ := reads_iff_ofSource.1 hreads'
  exact convert_sameResult hus hts hpieces

/-- A block on one line, with declarations of two kinds. -/
def oneLine : String := "DECLARE CURSOR c IS q;v t;BEGIN a:=v;END;"

/-- The same block over several lines, with a comment. -/
def severalLines : String := "DECLARE\n CURSOR c IS q;\n v t; -- both\nBEGIN\n a := v;\nEND;"

theorem convert_severalLines :
    ∃ ts us blanked, Token.ofSource oneLine = .ok ts ∧ Token.ofSource severalLines = .ok us ∧
      pieces ts = pieces us ∧ ts ≠ us ∧
      blankComments severalLines = .ok blanked ∧ blanked ≠ severalLines ∧
      SameResult (convert .empty .standard oneLine) (convert .empty .standard severalLines) ∧
      SameResult (convert .empty .standard blanked) (convert .empty .standard severalLines) ∧
      (convert .empty .standard oneLine).toOption.isSome = true := by
  have hpieces : (lex oneLine.toList).unfinished = none ∧
      (lex severalLines.toList).unfinished = none ∧
      pieces (lex oneLine.toList).tokens = pieces (lex severalLines.toList).tokens := by
    decide +kernel
  have hone := ofSource_eq_ok hpieces.1
  have hseveral := ofSource_eq_ok hpieces.2.1
  have hblanked := blankComments_eq_ok hpieces.2.1
  have hlayout := convert_layoutIndependent .empty .standard
  exact ⟨_, _, _, hone, hseveral, hpieces.2.2, by decide +kernel, hblanked, by decide +kernel,
    hlayout.1 _ _ _ _ hone hseveral hpieces.2.2, hlayout.2 _ _ hblanked, by decide +kernel⟩

end TriggerDialect
