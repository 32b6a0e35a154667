import TriggerDialect.Recast.Step

/-!
# Recasting expressions

Expressions and embedded SQL are recast from left to right: `recast` follows the decisions of
`step`, each of which leaves fewer tokens (`step_pending`). It is used through `recast_nil`,
`recast_write` and `recast_call`.
-/

namespace TriggerDialect.Recast

open List

variable {rest bracket : List Token} {ctx : Context} {into afterInto : Bool} {t : Token}
  {offset : Nat} {remarks : List Remark} {names : List String}

/-! ### Every step leaves fewer tokens -/

/-- The token lists that a step leaves to be recast. -/
def Step.pending : Step → List (List Token)
  | .write _ _ _ rest => [rest]
  | .call arguments _ rest _ _ bracket => rest :: bracket :: arguments

/-- The value before `AS` is shorter. -/
theorem splitLastAs_length {ts value target : List Token}
    (h : splitLastAs ts = some (value, target)) : value.length < ts.length := by
  fun_induction splitLastAs ts generalizing value with
  | case1 => cases h
  | case2 ts front word rest hspan hlt hnone ih =>
    cases h
    rw [eq_of_spanFrom hspan, length_append, length_cons]
    omega
  | case3 ts front word rest hspan hlt more last hsome ih =>
    cases h
    have := ih hsome
    rw [eq_of_spanFrom hspan]
    simp only [length_append, length_cons]
    omega

/-- No argument is longer than the list. -/
theorem argumentsOf_length {inner part : List Token} (h : part ∈ argumentsOf inner) :
    part.length ≤ inner.length := by
  unfold argumentsOf at h
  split at h
  · simp at h
  · exact (isInfix_of_mem_splitCommas h).length_le

/-- A call leaves no more than its brackets. -/
theorem callStep_pending {name : String} {written : Piece} {inner : List Token}
    (hlength : inner.length + rest.length < bracket.length) :
    ∀ ts ∈ (callStep ctx name offset written into bracket inner rest).pending,
      ts.length ≤ bracket.length := by
  have hcall : ∀ finish, ∀ ts ∈ (Step.call (argumentsOf inner) finish rest written into
      bracket).pending, ts.length ≤ bracket.length := by
    intro finish ts hts
    simp only [Step.pending, mem_cons] at hts
    rcases hts with rfl | rfl | hts
    · omega
    · exact Nat.le_refl _
    · have := argumentsOf_length hts
      omega
  have hkept : ∀ remarks, ∀ ts ∈ (Step.write [written] remarks into bracket).pending,
      ts.length ≤ bracket.length := by simp [Step.pending]
  unfold callStep
  simp only
  split
  · exact hcall _
  · split
    · split
      · exact hkept _
      · rename_i value target hcast
        split
        · exact hkept _
        · have := splitLastAs_length hcast
          intro ts hts
          simp only [Step.pending, mem_cons, not_mem_nil, or_false] at hts
          rcases hts with rfl | rfl | rfl
          all_goals omega
    · split
      · exact hcall _
      · split
        · split
          · simp only [Step.pending, mem_singleton, forall_eq]
            omega
          · exact hkept _
        · split
          · exact hkept _
          · exact hkept _

/-- A bracket leaves no more than follows. -/
theorem bracketStep_pending :
    ∀ ts ∈ (bracketStep ctx names offset afterInto into rest).pending,
      ts.length ≤ rest.length := by
  unfold bracketStep
  simp only
  split
  · simp [Step.pending]
  · split
    · simp [Step.pending]
    · rename_i inner after hgroup
      exact callStep_pending (bracketGroup_length hgroup)

/-- A name leaves no more than follows. -/
theorem nameStep_pending :
    ∀ ts ∈ (nameStep ctx names offset into remarks rest).pending, ts.length ≤ rest.length := by
  unfold nameStep
  simp only
  split
  · split <;> simp [Step.pending]
  · simp [Step.pending]

/-- An identifier leaves no more than follows. -/
theorem identifierStep_pending {more : List Token} :
    ∀ ts ∈ (identifierStep ctx afterInto t more rest).pending, ts.length ≤ rest.length := by
  have hvalue : ∀ {text after}, sqlValue? rest = some (text, after) →
      after.length ≤ rest.length := by
    intro text after h
    unfold sqlValue? at h
    split at h
    · split at h
      · obtain ⟨found, _, hpair⟩ := Option.map_eq_some_iff.1 h
        cases hpair
        simp only [length_cons]
        omega
      · cases h
    · cases h
  unfold identifierStep
  split
  · simp [Step.pending]
  · simp only
    split
    · rename_i text after hsql
      split at hsql
      · simpa [Step.pending] using hvalue hsql
      · cases hsql
    · unfold plainStep
      simp only
      split
      · simp [Step.pending]
      · split
        · exact bracketStep_pending
        · exact nameStep_pending

/-- A reserved word leaves no more than follows. -/
theorem keywordStep_pending : ∀ ts ∈ (keywordStep t rest).pending, ts.length ≤ rest.length := by
  have hdual : ∀ {after}, afterDual? rest = some after → after.length ≤ rest.length := by
    intro after h
    unfold afterDual? at h
    repeat' split at h
    all_goals cases h
    all_goals simp
  unfold keywordStep
  split
  · rename_i after hfrom
    split at hfrom
    · simpa [Step.pending] using hdual hfrom
    · cases hfrom
  · split
    · simp [Step.pending]
    · simp [keepStep, Step.pending]

/-- What a step leaves is shorter than the list it starts with. -/
theorem step_pending (ctx : Context) (afterInto : Bool) (t : Token) (rest : List Token) :
    ∀ ts ∈ (step ctx afterInto t rest).pending, ts.length < (t :: rest).length := by
  intro ts hts
  have hle : ts.length ≤ rest.length := by
    unfold step at hts
    split at hts
    · simp_all [Step.pending]
    · simp_all [Step.pending]
    · simp_all [Step.pending]
    · exact keywordStep_pending ts hts
    · exact Nat.le_trans (identifierStep_pending ts hts) (chain_length rest)
    · simp_all [keepStep, Step.pending]
    · simp_all [keepStep, Step.pending]
  simp only [length_cons]
  omega

/-! ### Whole lists -/

/-- Puts pieces and remarks before a result. -/
def Result.after (pieces : List Piece) (remarks : List Remark) (r : Result) : Result :=
  ⟨pieces ++ r.pieces, remarks ++ r.remarks⟩

/-- Recasts a token list. -/
def recast (ctx : Context) (afterInto : Bool) (ts : List Token) : Result :=
  match ts with
  | [] => ⟨[], []⟩
  | t :: rest =>
    match h : step ctx afterInto t rest with
    | .write pieces remarks into after =>
      have : after.length < (t :: rest).length :=
        step_pending ctx afterInto t rest after (by rw [h]; simp [Step.pending])
      (recast ctx into after).after pieces remarks
    | .call arguments finish after name into bracket =>
      have hpending : ∀ ts ∈ after :: bracket :: arguments, ts.length < (t :: rest).length :=
        fun ts hts => step_pending ctx afterInto t rest ts (by rw [h]; exact hts)
      have : after.length < (t :: rest).length := hpending after (by simp)
      have : bracket.length < (t :: rest).length := hpending bracket (by simp)
      let results := arguments.attach.map fun ⟨argument, hargument⟩ =>
        have : argument.length < (t :: rest).length := hpending argument (by simp [hargument])
        recast ctx false argument
      let ending := finish (results.map fun r => Piece.render r.pieces)
      let remarks := results.flatMap Result.remarks ++ ending.remarks
      match ending.text with
      | some text => (recast ctx false after).after [replaced text] remarks
      | none => (recast ctx into bracket).after [name] remarks
termination_by ts.length
decreasing_by
  all_goals
    simp only [length_cons] at *
    omega

/-- Recasts the arguments of a call and finishes it: the text, if it is replaced, and the remarks.
-/
def finishCall (ctx : Context) (arguments : List (List Token)) (finish : List String → Ending) :
    Ending :=
  let results := arguments.map (recast ctx false)
  let ending := finish (results.map fun r => Piece.render r.pieces)
  ⟨ending.text, results.flatMap Result.remarks ++ ending.remarks⟩

/-- Nothing is recast to nothing. -/
@[simp] theorem recast_nil (ctx : Context) (afterInto : Bool) :
    recast ctx afterInto [] = ⟨[], []⟩ := by
  rw [recast]

/-- A step that writes comes before the rest. -/
theorem recast_write {pieces : List Piece} {after : List Token}
    (h : step ctx afterInto t rest = .write pieces remarks into after) :
    recast ctx afterInto (t :: rest) = (recast ctx into after).after pieces remarks := by
  rw [recast]
  split
  · rename_i heq
    rw [h] at heq
    cases heq
    rfl
  · rename_i heq
    rw [h] at heq
    cases heq

/-- A call is finished with its arguments recast. -/
theorem recast_call {arguments : List (List Token)} {finish : List String → Ending}
    {after : List Token} {name : Piece}
    (h : step ctx afterInto t rest = .call arguments finish after name into bracket) :
    recast ctx afterInto (t :: rest) =
      let ending := finishCall ctx arguments finish
      match ending.text with
      | some text => (recast ctx false after).after [replaced text] ending.remarks
      | none => (recast ctx into bracket).after [name] ending.remarks := by
  rw [recast]
  split
  · rename_i heq
    rw [h] at heq
    cases heq
  · rename_i heq
    rw [h] at heq
    cases heq
    simp only [finishCall, map_attach_eq_pmap, pmap_eq_map]

/-- Recasts a token list to text. -/
def tokens (ctx : Context) (ts : List Token) : String × List Remark :=
  let result := recast ctx false ts
  (Piece.render result.pieces, result.remarks)

/-- Recasts a fragment to text. -/
def fragment (ctx : Context) (f : Fragment) : String × List Remark := tokens ctx f.tokens

end TriggerDialect.Recast
