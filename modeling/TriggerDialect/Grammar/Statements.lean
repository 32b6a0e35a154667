import TriggerDialect.Grammar.Recognition
import TriggerDialect.Tree.Statement

/-!
# Reading statement lists

A list is first cut into statements, then each one is recognised, and its inner lists are read in
the same way. A statement that is not recognised becomes raw text with one warning, and nothing is
read inside it. `Outcome` carries, beside the tree, what is to be reported and how many statements
were found.
-/

namespace TriggerDialect.Grammar

variable {α β : Type} {ts rest : List Token} {name : String} {span : Span} {t : Token}

/-- What is read, what is to be reported, and how many statements were found. -/
structure Outcome (α : Type) where
  value : α
  notes : List Diagnostic
  found : Nat
deriving Repr

namespace Outcome

/-- Outcomes of a list in order. -/
def all (outcomes : List (Outcome α)) : Outcome (List α) where
  value := outcomes.map value
  notes := outcomes.flatMap notes
  found := total found outcomes

/-- The outcome with reports before its own. -/
def after (before : List Diagnostic) (o : Outcome α) : Outcome α :=
  { o with notes := before ++ o.notes }

end Outcome

/-- One piece of a statement list. -/
inductive Piecewise where
  | label (name : String)
  | statement (span : Span)
deriving Repr, DecidableEq

/-- Cuts before the semicolon that ends the first statement. The declarations of a block end in
semicolons too, so that there the search starts at `BEGIN`. -/
def spanStatement (ts : List Token) : List Token × List Token :=
  match ts with
  | [] => ([], [])
  | t :: rest =>
    if t.isKeyword "DECLARE" then
      match spanAtDepth (·.isKeyword "BEGIN") (t :: rest) with
      | (_, []) => spanAtDepth (·.isPunct ';') (t :: rest)
      | (front, word :: body) =>
        let cut := spanAtDepth (·.isPunct ';') (word :: body)
        (front ++ cut.1, cut.2)
    else spanAtDepth (·.isPunct ';') (t :: rest)

/-- The name of a leading label `<<name>>`, and what follows it. -/
def leadingLabel? : List Token → Option (String × List Token)
  | opening :: name :: closing :: rest =>
    if opening.isOp "<<" && name.isIdentifier && closing.isOp ">>" then some (name.text, rest)
    else none
  | _ => none

/-- The cut of a statement loses nothing. -/
theorem spanStatement_append (ts : List Token) :
    (spanStatement ts).1 ++ (spanStatement ts).2 = ts := by
  unfold spanStatement
  split
  · rfl
  · split
    · split
      · exact spanAtDepth_append _ _
      · rename_i t rest _ _ front word body hspan
        have hwhole := spanAtDepth_append (·.isKeyword "BEGIN") (t :: rest)
        rw [hspan] at hwhole
        simp only [List.append_assoc, spanAtDepth_append]
        exact hwhole
    · exact spanAtDepth_append _ _

/-- What follows a label is behind the first token. -/
theorem leadingLabel?_behind (h : leadingLabel? ts = some (name, rest)) : Behind rest ts := by
  unfold leadingLabel? at h
  split at h
  · rename_i opening name' closing rest'
    split at h
    · cases h
      exact ⟨[opening, name'], closing, rest, rfl, List.infix_rfl⟩
    · cases h
  · cases h

/-- Less is left after a label. -/
theorem leadingLabel?_length (h : leadingLabel? ts = some (name, rest)) : rest.length < ts.length :=
  (leadingLabel?_behind h).length

/-- What follows a semicolon is behind the first token. -/
theorem afterStatement_behind {span : List Token} (h : spanStatement ts = (span, t :: rest)) :
    Behind rest ts := by
  have hwhole := spanStatement_append ts
  rw [h] at hwhole
  exact ⟨span, t, rest, hwhole.symm, List.infix_rfl⟩

/-- Less is left after a semicolon. -/
theorem afterStatement_length {span : List Token} (h : spanStatement ts = (span, t :: rest)) :
    rest.length < ts.length :=
  (afterStatement_behind h).length

/-- The labels and statements of a list. Empty statements are passed over. -/
def piecewise (ts : List Token) : List Piecewise :=
  match hlabel : leadingLabel? ts with
  | some (name, rest) =>
    have : rest.length < ts.length := leadingLabel?_length hlabel
    .label name :: piecewise rest
  | none =>
    match hspan : spanStatement ts with
    | (span, []) => if span.isEmpty then [] else [.statement ⟨span, false⟩]
    | (span, _ :: rest) =>
      have : rest.length < ts.length := afterStatement_length hspan
      if span.isEmpty then piecewise rest else .statement ⟨span, true⟩ :: piecewise rest
termination_by ts.length

/-- Every statement of a list is a run of its tokens. -/
theorem piecewise_isInfix (h : .statement span ∈ piecewise ts) : span.tokens <:+: ts := by
  fun_induction piecewise ts with
  | case1 ts name rest hlabel hlt ih =>
    rcases List.mem_cons.1 h with h | h
    · cases h
    · exact (ih h).trans (leadingLabel?_behind hlabel).isInfix
  | case2 => simp at h
  | case3 ts _ span' hspan _ =>
    have hwhole := spanStatement_append ts
    rw [hspan] at hwhole
    cases List.mem_singleton.1 h
    exact ⟨[], [], hwhole⟩
  | case4 ts _ span' word rest hspan hlt _ ih =>
    exact (ih h).trans (afterStatement_behind hspan).isInfix
  | case5 ts _ span' word rest hspan hlt _ ih =>
    rcases List.mem_cons.1 h with h | h
    · have hwhole := spanStatement_append ts
      rw [hspan] at hwhole
      cases h
      exact ⟨[], word :: rest, hwhole⟩
    · exact (ih h).trans (afterStatement_behind hspan).isInfix

/-- No statement is longer than the list. -/
theorem piecewise_length (h : .statement span ∈ piecewise ts) : span.tokens.length ≤ ts.length :=
  (piecewise_isInfix h).length_le

/-- The report on a statement without its semicolon. -/
def unclosedNotes (path : String) (span : Span) : List Diagnostic :=
  if span.closed then []
  else [.warningAt .statement (some (Fragment.startOf span.tokens)) path
    "statement is missing its terminating ';'"]

/-- A statement that is kept as it stands, for a reason. -/
def keptVerbatim (path reason : String) (ts : List Token) : Outcome Statement :=
  let text := Fragment.ofTokens ts
  ⟨.simple (.raw text),
    [.warningAt .statement (some text.offset) path s!"{reason}; kept verbatim"], 1⟩

/-- A statement from the outcomes of its inner lists. Text among the handlers that is none counts
as found. -/
def assembled (after : List Diagnostic) (form : Form (Outcome (List Statement))) :
    Outcome Statement where
  value := .node (form.map Outcome.value)
  notes := form.bodies.flatMap Outcome.notes ++ after
  found := 1 + total Outcome.found form.bodies + form.unparsedCount

/-- Reads the statement list at `path`. -/
def statements (path : String) (ts : List Token) : Outcome (List Statement) :=
  .all <| (piecewise ts).attach.mapIdx fun i piece =>
    match hpiece : piece.1 with
    | .label name => ⟨.simple (.label name), [], 1⟩
    | .statement span =>
      .after (unclosedNotes (Path.child path i) span) <|
        match hform : recognise (Path.child path i) span.tokens with
        | .error reason => keptVerbatim (Path.child path i) reason span.tokens
        | .ok r =>
          assembled r.after <| (r.form.label (Path.child path i)).attach.map fun ⟨entry, hentry⟩ =>
            have : entry.2.tokens.length < ts.length :=
              Nat.lt_of_lt_of_le (recognise_length hform _ (Form.snd_mem_bodies hentry))
                (piecewise_length (hpiece ▸ piece.2))
            .after entry.2.before (statements entry.1 entry.2.tokens)
termination_by ts.length

/-- Reads one statement at `path`, with `inner` for its inner lists. -/
def statementWith (inner : String → List Token → Outcome (List Statement)) (path : String)
    (span : Span) : Outcome Statement :=
  .after (unclosedNotes path span) <|
    match recognise path span.tokens with
    | .error reason => keptVerbatim path reason span.tokens
    | .ok r =>
      assembled r.after <| (r.form.label path).map fun entry =>
        .after entry.2.before (inner entry.1 entry.2.tokens)

/-- Reads one piece of a list at `path`, with `inner` for inner lists. -/
def pieceWith (inner : String → List Token → Outcome (List Statement)) (path : String) :
    Piecewise → Outcome Statement
  | .label name => ⟨.simple (.label name), [], 1⟩
  | .statement span => statementWith inner path span

/-- A list is read piece by piece, and inner lists are read like it. -/
theorem statements_eq (path : String) (ts : List Token) :
    statements path ts =
      .all ((piecewise ts).mapIdx fun i => pieceWith statements (Path.child path i)) := by
  rw [statements.eq_def]
  congr 1
  apply List.ext_getElem
  · simp
  · intro i hleft hright
    simp only [List.getElem_mapIdx]
    split
    · rename_i name hpiece
      simp only [List.getElem_attach] at hpiece
      rw [hpiece]
      rfl
    · rename_i span hpiece
      simp only [List.getElem_attach] at hpiece
      rw [hpiece]
      simp only [pieceWith, statementWith]
      congr 1
      split
      · rename_i reason hform
        rw [hform]
      · rename_i r hform
        rw [hform]
        simp only
        congr 1
        exact Form.attach_map_val
          (fun entry : String × Slice =>
            Outcome.after entry.2.before (statements entry.1 entry.2.tokens)) _

end TriggerDialect.Grammar
