import TriggerDialect.Proofs.Paths.Findings

/-!
# Reports on what was found

Of the findings whose keys have the same text only the first is reported. The others are as serious,
since the first letter of the text tells errors from warnings: no two kinds of keys start alike,
whatever names they hold. So a trigger is reported to have errors exactly if one is found at one of
its sites (`diagnostics_first_of_each`).
-/

namespace TriggerDialect

open List

/-! ### Texts of keys -/

/-- How serious a problem is, by the first letter of the text of its key. -/
def Severity.ofLetter (letter : Option Char) : Severity :=
  if letter ∈ [some 'b', some 'o', some 's', some 'r'] then .error else .warning

theorem FindingKey.severity_eq_ofLetter (key : FindingKey) :
    key.severity = Severity.ofLetter key.text.toList.head? := by
  cases key with
  | noHeader | outerJoin | rowCount | rowNumber => decide
  | type | function | arity | bind | exception | handler =>
    rw [text, String.toList_append]
    rfl

namespace Finding

variable {f g : Finding} {seen : List String} {findings : List Finding}

/-- Findings whose keys have the same text are equally serious. -/
theorem severity_eq_of_text_eq (h : f.key.text = g.key.text) :
    f.cause.severity = g.cause.severity := by
  have hletter : ∀ f : Finding,
      f.cause.severity = Severity.ofLetter f.key.text.toList.head? := fun f => by
    rw [← Cause.severity_key, ← FindingKey.severity_eq_ofLetter, key]
  rw [hletter f, hletter g, h]

/-! ### The first of each key -/

/-- The findings whose keys differ from those of all before them, in order. -/
def firsts (findings : List Finding) : List Finding :=
  (findings.zipIdx.filter fun entry =>
    (findings.take entry.2).all fun g => g.key.text != entry.1.key.text).map Prod.fst

theorem firstOfEach_eq_filter (seen : List String) (findings : List Finding) :
    firstOfEach seen findings =
      (findings.zipIdx.filter fun entry =>
        !seen.contains entry.1.key.text &&
          (findings.take entry.2).all fun g => g.key.text != entry.1.key.text).map Prod.fst := by
  induction findings generalizing seen with
  | nil => rfl
  | cons f rest ih =>
    -- What is before a later finding is `f` and what is before it in the rest.
    have hlater : ∀ seen', (∀ g : Finding, (!seen'.contains g.key.text) =
          (!seen.contains g.key.text && f.key.text != g.key.text)) →
        firstOfEach seen' rest = ((rest.zipIdx 1).filter fun entry =>
          !seen.contains entry.1.key.text && ((f :: rest).take entry.2).all fun g =>
            g.key.text != entry.1.key.text).map Prod.fst := by
      intro seen' hseen'
      rw [ih, zipIdx_succ, filter_map, map_map]
      simp only [Function.comp_def, take_succ_cons, all_cons, hseen', Bool.and_assoc]
    rw [firstOfEach, zipIdx_cons, filter_cons]
    cases hseen : seen.contains f.key.text with
    | true =>
      simp only [Bool.not_true, Bool.false_and, Bool.false_eq_true, if_true, if_false]
      refine hlater seen fun g => ?_
      by_cases heq : f.key.text = g.key.text
      · rw [← heq, hseen]
        rfl
      · simp [heq]
    | false =>
      simp only [take_zero, all_nil, Bool.not_false, Bool.and_true, Bool.false_eq_true,
        if_true, if_false, map_cons]
      refine congrArg (f :: ·) (hlater _ fun g => ?_)
      rw [contains_cons, Bool.not_or, Bool.and_comm, bne, BEq.comm]

theorem firstOfEach_nil (findings : List Finding) : firstOfEach [] findings = firsts findings := by
  simp only [firstOfEach_eq_filter, contains_nil, Bool.not_false, Bool.true_and, firsts]

/-- The key of every finding is that of one which is kept, or was seen before. -/
theorem exists_mem_firstOfEach (h : f ∈ findings) :
    f.key.text ∈ seen ∨ ∃ g ∈ firstOfEach seen findings, g.key.text = f.key.text := by
  fun_induction firstOfEach seen findings with
  | case1 => cases h
  | case2 seen first rest hseen ih =>
    rcases mem_cons.1 h with rfl | h
    · exact .inl (contains_iff_mem.1 hseen)
    · exact ih h
  | case3 seen first rest hseen ih =>
    rcases mem_cons.1 h with rfl | h
    · exact .inr ⟨f, mem_cons_self, rfl⟩
    · rcases ih h with hmem | ⟨g, hg, htext⟩
      · rcases mem_cons.1 hmem with heq | hmem
        · exact .inr ⟨first, mem_cons_self, heq.symm⟩
        · exact .inl hmem
      · exact .inr ⟨g, mem_cons_of_mem first hg, htext⟩

/-- Leaving out later findings of a key hides no error. -/
theorem hasErrors_report_iff :
    hasErrors (report findings) ↔ ∃ f ∈ findings, f.cause.severity = .error := by
  rw [hasErrors, any_eq_true]
  constructor
  · rintro ⟨d, hd, herror⟩
    obtain ⟨f, hf, rfl⟩ := exists_of_mem_report hd
    exact ⟨f, hf, beq_iff_eq.1 herror⟩
  · rintro ⟨f, hf, herror⟩
    obtain ⟨g, hg, htext⟩ := (exists_mem_firstOfEach hf).resolve_left not_mem_nil
    refine ⟨g.diagnostic, mem_map_of_mem hg, beq_iff_eq.2 ?_⟩
    exact (severity_eq_of_text_eq htext).trans herror

end Finding

namespace Generate

/-- The reports on a trigger are those on the findings at its sites whose keys differ from all
earlier ones, in order. Findings with the same key are equally serious, so that there is an error
among the reports exactly if there is one among the findings. -/
theorem diagnostics_first_of_each (mapping : Mapping) (options : Options) (t : Trigger) :
    (output mapping options t).findings =
        findingsAt (contextOf mapping t) (triggerSites options.wrap t) ∧
      (trigger mapping options t).diagnostics =
        (Finding.firsts (findingsAt (contextOf mapping t) (triggerSites options.wrap t))).map
          (fun f => ⟨f.cause.severity, .mapping, f.cause.message, some f.offset, f.path⟩) ∧
      (∀ f g : Finding, f.key.text = g.key.text → f.cause.severity = g.cause.severity) ∧
      (hasErrors (trigger mapping options t).diagnostics = true ↔
        ∃ f ∈ findingsAt (contextOf mapping t) (triggerSites options.wrap t),
          f.cause.severity = .error) := by
  have hfindings := findings_output mapping options t
  refine ⟨hfindings, ?_, fun f g => Finding.severity_eq_of_text_eq, ?_⟩
  · rw [← hfindings, ← Finding.firstOfEach_nil]
    rfl
  · rw [← hfindings]
    exact Finding.hasErrors_report_iff

-- The second `ROWNUM` is not reported, and there are errors all the same.
example : (convert .empty .standard "BEGIN v := ROWNUM; v := f(rownum); END;").toOption.map
      (fun c => (c.diagnostics.map fun d => (d.severity, d.path), hasErrors c.diagnostics)) =
    some ([(.error, some "1"), (.warning, some "2")], true) := by
  decide +kernel

end Generate

end TriggerDialect
