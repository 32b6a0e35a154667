import TriggerDialect.Proofs.Positions.Forms

/-!
# Names and simple statements, by position

A name is read from a position on and leaves the position after it. Main statements: the readings of
names and of the statements without inner lists never give up, and each gives what the reading of
lists gives (`At.qualifiedName`, `plainStatement?_eq`, `insertTarget?_eq`).
-/

namespace TriggerDialect.Positions

open Grammar Option

variable {α : Type} {ts front rest later inner : List Token} {t : Token} {i j : Nat}

/-! ### Names -/

/-- What is read and the position after it, or the reason and the position where it stopped. -/
abbrev Placed (α : Type) := Except (String × Nat) (α × Nat)

/-- A reading by position and one of lists come to the same. -/
def Agrees (ts : List Token) (found : Option (Placed α)) (read : Reading α) : Prop :=
  (∃ reason j later, found = some (.error (reason, j)) ∧ read = .error ⟨reason, later⟩ ∧
    At ts j later) ∨
  ∃ a j later, found = some (.ok (a, j)) ∧ read = .ok (a, later) ∧ At ts j later

/-- A plain or quoted name. -/
def name? (ts : List Token) (i : Nat) : Option (Placed String) :=
  match ts[i]? with
  | none => some (.error ("expected a name, found end of input", i))
  | some t =>
    if t.isIdentifier then some (.ok (t.text, i + 1))
    else some (.error (s!"expected a name, found '{t.text}'", i))

/-- The segments after a name, each behind a dot. -/
def segments? (ts : List Token) (i : Nat) : Option (List Token × Nat) :=
  if holdsAt (·.isPunct '.') ts i && holdsAt (·.isSegment) ts (i + 1) then do
    let segment ← ts[i + 1]?
    if _h : i + 2 ≤ ts.length then
      (segments? ts (i + 2)).map fun later => (segment :: later.1, later.2)
    else none
  else some ([], i)
termination_by ts.length - i
decreasing_by omega

/-- A qualified name. -/
def qualifiedName? (ts : List Token) (i : Nat) : Option (Placed String) := do
  match ← name? ts i with
  | .error stuck => some (.error stuck)
  | .ok (first, j) => do
    let (segments, k) ← segments? ts j
    some (.ok (Text.join "." (first :: segments.map fun t => t.text), k))

section

variable (h : At ts i rest)

include h

/-- A reader that takes one token if a test holds of it, and fails otherwise. -/
theorem At.eat (test : Piece → Bool) {eat? : List Token → Option (List Token)}
    (hnil : eat? [] = none)
    (hcons : ∀ t later, eat? (t :: later) = if test t.toPiece then some later else none) :
    (Positions.holdsAt test ts i = false ∧ eat? rest = none) ∨
    ∃ later, Positions.holdsAt test ts i ∧ eat? rest = some later ∧ At ts (i + 1) later := by
  cases rest with
  | nil => exact .inl ⟨h.holdsAt_end _, hnil⟩
  | cons t rest =>
    by_cases ht : test t.toPiece
    · exact .inr ⟨rest, by rw [h.holdsAt, ht], by rw [hcons, if_pos ht], h.cons⟩
    · exact .inl ⟨by simp [h.holdsAt, ht], by rw [hcons, if_neg ht]⟩

theorem At.eatWord (word : String) :
    (Positions.holdsAt (·.isWord word) ts i = false ∧ eatWord? word rest = none) ∨
    ∃ later, Positions.holdsAt (·.isWord word) ts i ∧ eatWord? word rest = some later ∧
      At ts (i + 1) later :=
  h.eat (·.isWord word) rfl fun _ _ => rfl

theorem At.name : Agrees ts (name? ts i) (Grammar.name rest) := by
  cases rest with
  | nil => exact .inl ⟨_, i, [], by rw [name?, h.none_at_end], rfl, h⟩
  | cons t rest =>
    by_cases ht : t.isIdentifier
    · exact .inr ⟨t.text, i + 1, rest, by simp [name?, h.head, ht], by simp [Grammar.name, ht],
        h.cons⟩
    · exact .inl ⟨s!"expected a name, found '{t.text}'", i, t :: rest, by simp [name?, h.head, ht],
        by simp [Grammar.name, ht], h⟩

theorem At.segments : ∃ j, segments? ts i = some ((chain rest).1, j) ∧ At ts j (chain rest).2 := by
  fun_induction chain rest generalizing i with
  | case1 dot segment rest hsegment =>
    rename_i ih
    obtain ⟨j, hread, hj⟩ := ih h.cons.cons
    have hle := h.cons.cons.le
    refine ⟨j, ?_, hj⟩
    rw [segments?, h.holdsAt, h.cons.holdsAt, if_pos hsegment, h.cons.head]
    simp [hle, hread]
    rfl
  | case2 dot segment rest hsegment =>
    exact ⟨i, by rw [segments?, h.holdsAt, h.cons.holdsAt, if_neg hsegment], h⟩
  | case3 rest hshort =>
    refine ⟨i, ?_, h⟩
    rw [segments?, if_neg]
    rcases rest with _ | ⟨dot, _ | ⟨segment, rest⟩⟩
    · simp [h.holdsAt_end]
    · simp [h.cons.holdsAt_end]
    · exact absurd rfl (hshort dot segment rest)

/-- Dotted names agree. -/
theorem At.qualifiedName : Agrees ts (qualifiedName? ts i) (Grammar.qualifiedName rest) := by
  obtain ⟨reason, j, later, hread, hlist, hj⟩ | ⟨first, j, later, hread, hlist, hj⟩ := h.name
  · refine .inl ⟨reason, j, later, ?_, ?_, hj⟩
    · simp [qualifiedName?, hread]
    · simp [Grammar.qualifiedName, hlist]
  · obtain ⟨k, hsegments, hk⟩ := hj.segments
    refine .inr ⟨Text.join "." (first :: (chain later).1.map fun t => t.text), k, _, ?_, ?_, hk⟩
    · simp [qualifiedName?, hread, hsegments]
    · simp [Grammar.qualifiedName, hlist]

end

/-! ### Statements -/

/-- What stands between the bracket at `i` and its partner, and the position of the partner. -/
def group? (ts : List Token) (i : Nat) : Option (Option (List Token × Nat)) :=
  if holdsAt (·.isPunct '(') ts i then
    match matching ts i with
    | none => some none
    | some last => (slice? ts (i + 1) last).map fun inner => some (inner, last)
  else some none

/-- The parts of `INSERT INTO table [alias] (columns) VALUES (values)`. -/
def insertTarget? (span : List Token) : Option (Option InsertTarget) := do
  if !holdsAt (·.isWord "INSERT") span 0 || !holdsAt (·.isWord "INTO") span 1 then some none
  else match ← qualifiedName? span 2 with
    | .error _ => some none
    | .ok (table, i) => do
      match ← group? span (skip (·.isIdentifier) span i) with
      | none => some none
      | some (columns, i) => do
        match columnNames (← splitCommas? columns 0) with
        | none => some none
        | some columns =>
          if !holdsAt (·.isWord "VALUES") span (i + 1) then some none
          else match ← group? span (i + 2) with
            | none => some none
            | some (values, i) => do
              let last ← minus? span.length 1
              let values := (← splitCommas? values 0).map Fragment.ofTokens
              some <| if i == last && values.length == columns.length &&
                !values.any Fragment.isEmpty then some ⟨table, columns, values⟩ else none

/-- A statement that starts with `RAISE`. -/
def raised? (span : List Token) : Option (Except String Simple) := do
  let first ← span[0]?
  if span.length = 1 then some (.ok (.raise none first.offset))
  else do
    let rest ← suffix? span 1
    match ← qualifiedName? rest 0 with
    | .error (reason, _) => some (.error reason)
    | .ok (name, i) =>
      some <| if i < rest.length then .error "RAISE takes a single exception name"
        else .ok (.raise (some name) first.offset)

/-- The label after `EXIT` or `CONTINUE`, if there is one. -/
def loopLabel? (rest : List Token) : Option (Option String × List Token) :=
  match rest[0]? with
  | none => some (none, rest)
  | some t =>
    if t.isIdentifier then (suffix? rest 1).map (some t.text, ·) else some (none, rest)

/-- A statement that starts with `EXIT` or `CONTINUE`. -/
def exitStatement? (make : Option String → Option Fragment → Simple) (span : List Token) :
    Option (Except String Simple) := do
  let first ← span[0]?
  let (label, rest) ← loopLabel? (← suffix? span 1)
  match rest with
  | [] => some (.ok (make label none))
  | t :: condition =>
    some <| if t.isKeyword "WHEN" && !condition.isEmpty then
      .ok (make label (some (Fragment.ofTokens condition))) else .error s!"malformed {first.upper}"

/-- A call. -/
def procedureCall? (span : List Token) : Option (Except String Simple) := do
  let first ← span[0]?
  match ← qualifiedName? span 0 with
  | .error (reason, _) => some (.error reason)
  | .ok (name, i) => do
    let rest ← suffix? span i
    if rest.isEmpty then some (.ok (.call name [] first.offset))
    else match ← bracketed? rest with
      | some inner => do
        let arguments ← if inner.isEmpty then some [] else splitCommas? inner 0
        some (.ok (.call name (arguments.map Fragment.ofTokens) first.offset))
      | none => do
        let shown ← slice? rest 0 (min rest.length 3)
        some (.error s!"unsupported statement '{name} {render shown}'")

/-- An assignment or a call. -/
def plainStatement? (span : List Token) : Option (Except String Simple) := do
  let first ← span[0]?
  match ← find? (·.isOp ":=") span 0 with
  | some sign => do
    let target ← slice? span 0 sign
    let value ← suffix? span (sign + 1)
    some <| if target.isEmpty || value.isEmpty then .error "incomplete assignment"
      else .ok (.assignment (Fragment.ofTokens target) (Fragment.ofTokens value))
  | none =>
    if first.isIdentifier then procedureCall? span
    else some (.error s!"unsupported statement starting with '{first.text}'")

theorem At.group (h : At ts i rest) :
    (group? ts i = some none ∧ bracketGroup rest = none) ∨
    ∃ inner j later, group? ts i = some (some (inner, j)) ∧
      bracketGroup rest = some (inner, later) ∧ At ts (j + 1) later := by
  cases rest with
  | nil => exact .inl ⟨by simp [group?, h.holdsAt_end], rfl⟩
  | cons t rest =>
    by_cases ht : t.isPunct '(' = true
    · obtain ⟨hmatching, hcut⟩ := h.matching ht
      cases hgroup : bracketGroup (t :: rest) with
      | none => exact .inl ⟨by simp [group?, h.holdsAt, ht, hmatching, hgroup], rfl⟩
      | some cut =>
        obtain ⟨hslice, hlater⟩ := hcut cut.1 cut.2 hgroup
        refine .inr ⟨cut.1, i + 1 + cut.1.length, cut.2, ?_, rfl, hlater⟩
        simp [group?, h.holdsAt, ht, hmatching, hgroup, hslice]
    · exact .inl ⟨by simp [group?, h.holdsAt, ht], by simp [bracketGroup, ht]⟩

theorem raised?_eq (t : Token) : raised? (t :: rest) = some (raised t.offset rest) := by
  cases rest with
  | nil => rfl
  | cons u rest =>
    obtain ⟨reason, j, later, hread, hlist, hj⟩ | ⟨name, j, later, hread, hlist, hj⟩ :=
      (at_zero (u :: rest)).qualifiedName
    · simp [raised?, raised, hread, hlist, suffix?_tail]
    · have hlength := hj.length
      cases later with
      | nil =>
        have hend : ¬j < (u :: rest).length := Nat.not_lt.2 (Nat.le_of_eq hlength.symm)
        simp only [raised?, raised, hread, hlist, suffix?_tail, bind_eq_bind,
          bind_some, if_neg hend]
        simp
      | cons w later =>
        have hend : j < (u :: rest).length := hj.lt
        simp only [raised?, raised, hread, hlist, suffix?_tail, bind_eq_bind,
          bind_some, if_pos hend]
        simp

theorem loopLabel?_eq : loopLabel? rest = some (loopLabel rest) := by
  cases rest with
  | nil => rfl
  | cons t rest =>
    by_cases ht : t.isIdentifier = true <;> simp [loopLabel?, loopLabel, ht, suffix?_tail]

theorem exitStatement?_eq (make : Option String → Option Fragment → Simple) (t : Token) :
    exitStatement? make (t :: rest) = some (exitStatement make t.upper rest) := by
  rw [exitStatement?, suffix?_tail, exitStatement, exitClause]
  simp only [bind_eq_bind, (at_zero (t :: rest)).head, bind_some, loopLabel?_eq]
  rcases loopLabel rest with ⟨label, _ | ⟨word, condition⟩⟩
  · rfl
  · by_cases hwhen : (word.isKeyword "WHEN" && !condition.isEmpty)
    · simp only [hwhen, if_true, Except.map]
    · simp only [hwhen, Except.map]
      rfl

theorem procedureCall?_eq (t : Token) :
    procedureCall? (t :: rest) = some (procedureCall t.offset (t :: rest)) := by
  obtain ⟨reason, j, later, hread, hlist, hj⟩ | ⟨name, j, later, hread, hlist, hj⟩ :=
    (at_zero (t :: rest)).qualifiedName
  · simp [procedureCall?, procedureCall, hread, hlist]
  · rcases later with _ | ⟨u, later⟩
    · simp [procedureCall?, procedureCall, hread, hlist, hj.suffix]
    · have hshown : slice? (u :: later) 0 (min (u :: later).length 3) =
          some ((u :: later).take 3) := by
        rw [slice?, if_pos ⟨Nat.zero_le _, Nat.min_le_left _ _⟩, List.drop_zero, Nat.min_comm,
          ← List.take_eq_take_min]
      simp only [procedureCall?, procedureCall, hread, hlist, bind_eq_bind,
        (at_zero (t :: rest)).head, bind_some, hj.suffix, bracketed?_eq, hshown]
      rcases bracketGroup (u :: later) with _ | ⟨inner, _ | ⟨w, tail⟩⟩
      · rfl
      · by_cases hinner : inner = []
        · simp [callArguments, hinner]
        · simp [callArguments, hinner, (at_zero inner).splitCommas]
      · rfl

/-- Assignments and calls agree. -/
theorem plainStatement?_eq (t : Token) :
    plainStatement? (t :: rest) = some (plainStatement (t :: rest)) := by
  obtain ⟨hfind, hspan⟩ | ⟨front, sign, later, hfind, hspan, hslice, hat⟩ :=
    (at_zero (t :: rest)).find (·.isOp ":=")
  · by_cases ht : t.isIdentifier
    · simp [plainStatement?, plainStatement, hfind, hspan, ht, procedureCall?_eq]
    · simp [plainStatement?, plainStatement, hfind, hspan, ht]
  · have hvalue := hat.cons.suffix
    simp_all [plainStatement?, plainStatement]

theorem skipIdentifier_eq (ts : List Token) :
    skipIdentifier ts = Sections.dropOne (fun t => t.isIdentifier) ts := by
  cases ts <;> rfl

/-- The target of an `INSERT` agrees. -/
theorem insertTarget?_eq (ht : t.isWord "INSERT") :
    insertTarget? (t :: rest) = some (insertTarget rest) := by
  have hstart := at_zero (t :: rest)
  simp only [insertTarget?, insertTarget, hstart.holdsAt, ht, skipIdentifier_eq]
  obtain ⟨hinto, hlist⟩ | ⟨rest', hinto, hlist, htable⟩ := hstart.cons.eatWord "INTO"
  · simp [hinto, hlist]
  obtain ⟨reason, i, later, hname, hlist', _⟩ | ⟨table, i, later, hname, hlist', hi⟩ :=
    htable.qualifiedName
  · simp [hinto, hlist, hname, hlist', Except.toOption]
  obtain ⟨hgroup, hbracket⟩ | ⟨columns, j, later', hgroup, hbracket, hj⟩ :=
    (hi.skip (·.isIdentifier)).group
  · simp [hinto, hlist, hname, hlist', Except.toOption, hgroup, hbracket]
  simp only [hinto, hlist, hname, hlist', Except.toOption, hgroup, hbracket, bind_eq_bind,
    bind_some, (at_zero columns).splitCommas, Bool.not_true, Bool.or_self]
  cases columnNames (splitCommas columns) with
  | none => rfl
  | some names =>
    obtain ⟨hvalues, hlist⟩ | ⟨rest', hvalues, hlist, hk⟩ := hj.eatWord "VALUES"
    · simp [hvalues, hlist]
    obtain ⟨hgroup, hbracket⟩ | ⟨values, k, after, hgroup, hbracket, hk⟩ := hk.group
    · simp [hvalues, hlist, hgroup, hbracket]
    have hlength := hk.length
    have hlast : k = rest.length ↔ after = [] := by
      rw [← List.length_eq_zero_iff]
      simp only [List.length_cons] at hlength
      omega
    simp [hvalues, hlist, hgroup, hbracket, (at_zero values).splitCommas, minus?_add, hlast]

end TriggerDialect.Positions
