import TriggerDialect.Proofs.Positions.Search
import TriggerDialect.Proofs.Reading.Coverage
import TriggerDialect.Proofs.Reading.Equations

/-!
# Statements with inner lists, by position

The branches, arms and loops of a statement are cut out by position here. An inner list has to be
shorter than the statement it stands in (`inside?`). Main statements: whatever the tokens are, no
reading gives up, and each gives what the reading of lists gives (`conditional?_eq`,
`selection?_eq`, `counted?_eq`, `whileLoop?_eq`, `endlessLoop?_eq`).
-/

namespace TriggerDialect.Positions

open Grammar List Grammar Fragment

/-- The tokens from `i` up to `j` as an inner list of `whole`; none unless they are fewer. -/
def inside? (whole ts : List Token) (i j : Nat) : Option (List Token) := do
  let part ← slice? ts i j
  if part.length < whole.length then some part else none

variable {ts whole inner front rest later part : List Token} {t : Token} {i j : Nat}
  {word what : String}

theorem inside?_eq (hslice : slice? ts i j = some part) (h : part.length < whole.length) :
    inside? whole ts i j = some part := by
  simp [inside?, hslice, h]

/-! ### Final words -/

/-- The position of the `END` in a final `END word [label]`. The differences are taken where they
are not negative. -/
def closingEnd (word : String) (ts : List Token) : Option Nat :=
  if 2 ≤ ts.length ∧ holdsAt (·.isKeyword "END") ts (ts.length - 2) ∧
      holdsAt (·.isKeyword word) ts (ts.length - 1) then some (ts.length - 2)
  else if 3 ≤ ts.length ∧ holdsAt (·.isKeyword "END") ts (ts.length - 3) ∧
      holdsAt (·.isKeyword word) ts (ts.length - 2) ∧
      holdsAt (·.isIdentifier) ts (ts.length - 1) then some (ts.length - 3)
  else none

theorem holdsAt_append_left {p : Piece → Bool} (h : ∀ t ∈ front, p t.toPiece = false)
    (hi : i < front.length) : holdsAt p (front ++ rest) i = false := by
  rw [holdsAt, getElem?_append_left hi, getElem?_eq_getElem hi, Option.any_some]
  exact h _ (getElem_mem hi)

theorem holdsAt_append_right (p : Piece → Bool) (front : List Token) (k : Nat) :
    holdsAt p (front ++ rest) (front.length + k) = holdsAt p rest k := by
  rw [holdsAt, getElem?_append_right (by omega), Nat.add_sub_cancel_left, holdsAt]

/-- The final `END` is found where the list ends without it, if there is none in front. -/
theorem closingEnd_append (hfront : ∀ t ∈ front, t.isKeyword "END" = false) (word : String) :
    closingEnd word (front ++ rest) =
      (stripEnd word rest).map fun inner => front.length + inner.length := by
  have hnone : ∀ i < front.length, ∀ rest,
      ¬holdsAt (·.isKeyword "END") (front ++ rest) i := by
    intro i hi rest
    rw [holdsAt_append_left hfront hi]
    exact Bool.false_ne_true
  obtain ⟨back, rfl⟩ : ∃ back, rest = back.reverse := ⟨rest.reverse, (reverse_reverse _).symm⟩
  rw [closingEnd]
  -- At most three tokens at the end matter, and those in front are never `END`.
  rcases back with _ | ⟨c, _ | ⟨b, _ | ⟨a, back⟩⟩⟩
  · rw [if_neg fun h => hnone _ (by simp at h ⊢; omega) _ h.2.1,
      if_neg fun h => hnone _ (by simp at h ⊢; omega) _ h.2.1]
    rfl
  · rw [if_neg fun h => hnone _ (by simp at h ⊢; omega) _ h.2.1,
      if_neg fun h => hnone _ (by simp at h ⊢; omega) _ h.2.1]
    rfl
  · rw [if_neg (c := 3 ≤ _ ∧ _) fun h => hnone _ (by simp at h ⊢; omega) _ h.2.1]
    have hlength : (front ++ [c, b].reverse).length = front.length + 2 := by simp
    simp only [hlength, Nat.add_sub_cancel, show front.length + 2 - 1 = front.length + 1 by omega,
      holdsAt_append_right _ front 1]
    simp [stripEnd, holdsAt]
  · have hsplit :
        front ++ (c :: b :: a :: back).reverse = (front ++ back.reverse) ++ [a, b, c] := by simp
    have hbefore : (front ++ back.reverse).length = front.length + back.length := by simp
    rw [hsplit, length_append, length_cons, length_cons, length_singleton]
    simp only [show ∀ n, n + 3 - 1 = n + 2 by omega, show ∀ n, n + 3 - 2 = n + 1 by omega,
      Nat.add_sub_cancel, holdsAt_append_right]
    have hfirst : holdsAt (·.isKeyword "END") (front ++ back.reverse ++ [a, b, c])
        (front ++ back.reverse).length = a.isKeyword "END" := holdsAt_append_right _ _ 0
    rw [hfirst, hbefore]
    simp only [stripEnd, reverse_reverse, Bool.and_eq_true, and_assoc]
    by_cases hshort : b.isKeyword "END" ∧ c.isKeyword word
    · simp [holdsAt, hshort, Nat.add_assoc, show 2 ≤ front.length + (back.length + 3) by omega]
    · by_cases hlong : a.isKeyword "END" ∧ b.isKeyword word ∧ c.isIdentifier
      · simp [holdsAt, hshort, hlong]
      · simp [holdsAt, hshort, hlong]

/-! ### `IF` -/

/-- A condition from `start` up to `THEN`, and the position after it. -/
def conditionThen? (what : String) (ts : List Token) (start : Nat) :
    Option (Except String (Fragment × Nat)) := do
  match ← find? (·.isKeyword "THEN") ts start with
  | none => some (.error s!"{what} without THEN")
  | some stop =>
    if stop = start then some (.error s!"{what} without a condition")
    else do
      let condition ← slice? ts start stop
      some (.ok (ofTokens condition, stop + 1))

theorem At.conditionThen (h : At ts i rest) (what : String) :
    (∃ reason, conditionThen? what ts i = some (.error reason) ∧
      conditionThen what rest = .error reason) ∨
    ∃ condition later j, conditionThen? what ts i = some (.ok (condition, j)) ∧
      conditionThen what rest = .ok (condition, later) ∧ At ts j later ∧ i < j := by
  obtain ⟨hfind, hspan⟩ | ⟨front, t, later, hfind, hspan, hslice, hat⟩ :=
    h.find (·.isKeyword "THEN")
  · exact .inl ⟨_, by rw [conditionThen?, hfind]; rfl, by rw [Grammar.conditionThen, hspan]⟩
  · by_cases hempty : front = []
    · subst hempty
      refine .inl ⟨s!"{what} without a condition", ?_, ?_⟩
      · rw [conditionThen?, hfind]
        simp
      · rw [Grammar.conditionThen, hspan]
        rfl
    · refine .inr ⟨ofTokens front, later, i + front.length + 1, ?_, ?_, hat.cons, by omega⟩
      · rw [conditionThen?, hfind]
        simp [hempty, hslice]
      · rw [Grammar.conditionThen, hspan]
        simp [hempty]

/-- The final branch of `IF`, from `start` on. -/
def lastBranch? (whole inner first : List Token) (start : Nat) :
    Option (Except String Branches) := do
  let found ← findClause? ["ELSIF", "ELSE"] inner start
  let body ← inside? whole inner start (found.getD inner.length)
  match found with
  | none => some (.ok ⟨first, [], some body⟩)
  | some _ => some (.error "ELSE must be the last IF branch")

/-- The branches of `IF`, from `start` on. -/
def branches? (whole inner : List Token) (start : Nat) : Option (Except String Branches) := do
  let found ← findClause? ["ELSIF", "ELSE"] inner start
  let body ← inside? whole inner start (found.getD inner.length)
  match found with
  | none => some (.ok ⟨body, [], none⟩)
  | some stop => do
    let word ← inner[stop]?
    if word.isKeyword "ELSIF" then
      match ← conditionThen? "ELSIF" inner (stop + 1) with
      | .error reason => some (.error reason)
      | .ok (condition, next) =>
        if _h : start < next ∧ next ≤ inner.length then
          (branches? whole inner next).map fun later => later.map fun b =>
            ⟨body, ⟨condition, b.first⟩ :: b.others, b.otherwise⟩
        else none
    else lastBranch? whole inner body (stop + 1)
termination_by inner.length - start
decreasing_by omega

/-- The rest of a search that finds nothing is a slice up to the end. -/
theorem At.inside_rest (h : At ts i rest) (hwhole : ts.length < whole.length) :
    inside? whole ts i ts.length = some rest :=
  inside?_eq h.slice_rest (by have := h.length; omega)

theorem At.inside (hslice : slice? ts i (i + front.length) = some front)
    (h : At ts (i + front.length) rest) (hwhole : ts.length < whole.length) :
    inside? whole ts i (i + front.length) = some front :=
  inside?_eq hslice (by have := h.le; omega)

theorem At.lastBranch (h : At inner i rest) (hwhole : inner.length < whole.length)
    (first : List Token) : lastBranch? whole inner first i = some (lastBranch first rest) := by
  obtain ⟨hfind, hspan⟩ | ⟨front, t, later, hfind, hspan, hslice, hat⟩ :=
    h.findClause ["ELSIF", "ELSE"]
  · rw [lastBranch?, hfind, Grammar.lastBranch, hspan]
    simp [h.inside_rest hwhole]
  · rw [lastBranch?, hfind, Grammar.lastBranch, hspan]
    simp [At.inside hslice hat hwhole]

theorem At.branches (h : At inner i rest) (hwhole : inner.length < whole.length) :
    branches? whole inner i = some (branches rest) := by
  induction rest using shorterInduction generalizing i with
  | shorter rest ih =>
    rw [branches?, branches_eq]
    obtain ⟨hfind, hspan⟩ | ⟨front, t, later, hfind, hspan, hslice, hat⟩ :=
      h.findClause ["ELSIF", "ELSE"]
    · simp [hfind, hspan, h.inside_rest hwhole]
    · simp only [hfind, hspan, Option.bind_eq_bind, Option.bind_some, Option.getD_some,
        At.inside hslice hat hwhole, hat.head]
      by_cases hword : t.isKeyword "ELSIF"
      · obtain ⟨reason, hread, hlist⟩ | ⟨condition, next, j, hread, hlist, hnext, hlt⟩ :=
          hat.cons.conditionThen "ELSIF"
        · simp [hword, hread, hlist]
        · have hrest := h.length
          have hlater := hnext.length
          simp [hword, hread, hlist, ih next (by omega) hnext, hnext.le, show i < j by omega]
      · simp [hword, hat.cons.lastBranch hwhole]

/-- A statement that starts with `IF`. -/
def conditional? (span : List Token) : Option (Except String (Form (List Token))) := do
  match closingEnd "IF" span with
  | none => some (.error "IF without END IF")
  | some last => do
    let inner ← slice? span 0 last
    match ← conditionThen? "IF" inner 1 with
    | .error reason => some (.error reason)
    | .ok (condition, start) =>
      (branches? span inner start).map fun found => found.map fun b =>
        .conditional ⟨condition, b.first⟩ b.others b.otherwise

/-- What stands before the final `END` of a statement whose first tokens are `front`. -/
theorem closingEnd_cases (hfront : ∀ t ∈ front, t.isKeyword "END" = false) (word : String)
    (rest : List Token) :
    (closingEnd word (front ++ rest) = none ∧ stripEnd word rest = none) ∨
    ∃ inner back, closingEnd word (front ++ rest) = some (front.length + inner.length) ∧
      stripEnd word rest = some inner ∧ rest = inner ++ back ∧ inner.length < rest.length ∧
      slice? (front ++ rest) 0 (front.length + inner.length) = some (front ++ inner) ∧
      At (front ++ inner) front.length inner := by
  cases hstrip : stripEnd word rest with
  | none => exact .inl ⟨by rw [closingEnd_append hfront, hstrip]; rfl, rfl⟩
  | some inner =>
    obtain ⟨first, tail, hrest, _⟩ := stripEnd_eq hstrip
    refine .inr ⟨inner, first :: tail, ?_, rfl, hrest, ?_, ?_, ?_⟩
    · rw [closingEnd_append hfront, hstrip]
      rfl
    · rw [hrest, length_append, length_cons]
      omega
    · rw [hrest, ← append_assoc]
      simpa using (at_zero ((front ++ inner) ++ first :: tail)).slice
    · simpa using (at_zero (front ++ inner)).append

/-- `IF` statements agree. -/
theorem conditional?_eq (ht : t.isKeyword "END" = false) :
    conditional? (t :: rest) = some (conditional rest) := by
  obtain ⟨hend, hstrip⟩ | ⟨inner, back, hend, hstrip, hrest, hlt, hslice, hat⟩ :=
    closingEnd_cases (by simpa using ht : ∀ u ∈ [t], u.isKeyword "END" = false) "IF" rest
  · simp only [singleton_append] at hend
    simp [conditional?, conditional, hend, hstrip]
  · simp only [singleton_append] at hend hslice hat
    obtain ⟨reason, hread, hlist⟩ | ⟨condition, later, j, hread, hlist, hlater, _⟩ :=
      hat.conditionThen "IF"
    · simp_all [conditional?, conditional]
    · have hwhole : (t :: inner).length < (t :: rest).length := by simpa using hlt
      have hbranches := hlater.branches hwhole
      simp_all [conditional?, conditional]

/-! ### `CASE` -/

/-- The final arm of `CASE`, from `start` on. -/
def lastArm? (whole inner : List Token) (start : Nat) :
    Option (Except String (Option (List Token))) := do
  match ← findClause? ["WHEN", "ELSE"] inner start with
  | none => (inside? whole inner start inner.length).map fun body => .ok (some body)
  | some _ => some (.error "ELSE must be the last CASE branch")

/-- The arms of `CASE` from the `WHEN` or `ELSE` at `start` on. -/
def arms? (whole inner : List Token) (start : Nat) : Option (Except String Arms) := do
  let word ← inner[start]?
  if word.isKeyword "ELSE" then
    (lastArm? whole inner (start + 1)).map fun found => found.map fun otherwise => ⟨[], otherwise⟩
  else match ← conditionThen? "WHEN" inner (start + 1) with
    | .error reason => some (.error reason)
    | .ok (condition, next) => do
      let found ← findClause? ["WHEN", "ELSE"] inner next
      let body ← inside? whole inner next (found.getD inner.length)
      match found with
      | none => some (.ok ⟨[⟨condition, body⟩], none⟩)
      | some stop =>
        if _h : start < stop ∧ stop < inner.length then
          (arms? whole inner stop).map fun later => later.map fun a =>
            ⟨⟨condition, body⟩ :: a.arms, a.otherwise⟩
        else none
termination_by inner.length - start
decreasing_by omega

/-- A statement that starts with `CASE`. -/
def selection? (span : List Token) : Option (Except String (Form (List Token))) := do
  match closingEnd "CASE" span with
  | none => some (.error "CASE without END CASE")
  | some last => do
    let inner ← slice? span 0 last
    match ← find? (·.isKeyword "WHEN") inner 1 with
    | none => some (.error "CASE without WHEN")
    | some start => do
      let selector ← if 1 < start then (slice? inner 1 start).map (some <| ofTokens ·)
        else some none
      (arms? span inner start).map fun found => found.map fun a =>
        .selection selector a.arms a.otherwise

theorem At.lastArm (h : At inner i rest) (hwhole : inner.length < whole.length) :
    lastArm? whole inner i = some (Grammar.lastArm rest) := by
  obtain ⟨hfind, hspan⟩ | ⟨front, t, later, hfind, hspan, hslice, hat⟩ :=
    h.findClause ["WHEN", "ELSE"]
  · simp [lastArm?, Grammar.lastArm, hfind, hspan, h.inside_rest hwhole]
  · simp [lastArm?, Grammar.lastArm, hfind, hspan]

theorem At.arms (h : At inner i (t :: rest)) (hwhole : inner.length < whole.length) :
    arms? whole inner i = some (
      if t.isKeyword "ELSE" then (Grammar.lastArm rest).map fun otherwise => ⟨[], otherwise⟩
      else Grammar.arms rest) := by
  induction rest using shorterInduction generalizing i t with
  | shorter rest ih =>
    rw [arms?, Grammar.arms_eq]
    simp only [h.head, Option.bind_eq_bind, Option.bind_some, h.cons.lastArm hwhole]
    by_cases hword : t.isKeyword "ELSE"
    · simp [hword]
    · obtain ⟨reason, hread, hlist⟩ | ⟨condition, next, j, hread, hlist, hnext, hlt⟩ :=
        h.cons.conditionThen "WHEN"
      · simp [hword, hread, hlist]
      · obtain ⟨hfind, hspan⟩ | ⟨front, u, later, hfind, hspan, hslice, hat⟩ :=
          hnext.findClause ["WHEN", "ELSE"]
        · simp [hword, hread, hlist, hfind, hspan, hnext.inside_rest hwhole]
        · have hrest := h.length
          have hlater := hat.length
          simp only [length_cons] at hrest hlater
          have hmoves : i < j + front.length ∧ j + front.length < inner.length := by omega
          simp only [hword, hread, hlist, hfind, hspan, At.inside hslice hat hwhole, hmoves,
            ih later (by omega) hat, Option.bind_some, Option.getD_some]
          by_cases helse : u.isKeyword "ELSE"
          · cases Grammar.lastArm later <;> simp [helse, Except.map]
          · simp [helse]

/-- `CASE` statements agree. -/
theorem selection?_eq (ht : t.isKeyword "END" = false) :
    selection? (t :: rest) = some (Grammar.selection rest) := by
  obtain ⟨hend, hstrip⟩ | ⟨inner, back, hend, hstrip, hrest, hlt, hslice, hat⟩ :=
    closingEnd_cases (by simpa using ht : ∀ u ∈ [t], u.isKeyword "END" = false) "CASE" rest
  · simp only [singleton_append] at hend
    simp [selection?, Grammar.selection, hend, hstrip]
  · simp only [singleton_append] at hend hslice hat
    obtain ⟨hfind, hspan⟩ | ⟨front, u, later, hfind, hspan, hcut, hwhen⟩ :=
      hat.find (·.isKeyword "WHEN")
    · simp_all [selection?, Grammar.selection]
    · obtain ⟨_, hstop⟩ := stop_of_spanFrom hspan
      have helse : u.isKeyword "ELSE" = false := Piece.isKeyword_eq_false hstop (by decide)
      have hwhole : (t :: inner).length < (t :: rest).length := by simpa using hlt
      have harms := hwhen.arms hwhole
      cases front <;> simp_all [selection?, Grammar.selection]

/-! ### Loops -/

/-- The position of the `LOOP` from `start` on, and the body from there up to `END LOOP`. -/
def loopParts? (what : String) (span : List Token) (start : Nat) :
    Option (Except String (Nat × List Token)) := do
  match closingEnd "LOOP" span with
  | none => some (.error s!"{what} without END LOOP")
  | some last => do
    let inner ← slice? span 0 last
    match ← find? (·.isKeyword "LOOP") inner start with
    | none => some (.error s!"{what} without LOOP")
    | some opening => (inside? span span (opening + 1) last).map fun body => .ok (opening, body)

/-- What stands in the brackets around all of a list, if they do. -/
def bracketed? (ts : List Token) : Option (Option (List Token)) := do
  let first ← ts[0]?
  let last ← minus? ts.length 1
  if first.isPunct '(' && matching ts 0 == some last then (slice? ts 1 last).map some
  else some none

/-- A loop over a range or a query, whose head and body are cut out. -/
def loopOver? (name : String) (head body : List Token) :
    Option (Except String (Form (List Token))) := do
  if head.isEmpty then some (.error "FOR without an iteration source")
  else match ← find? (·.isOp "..") head 0 with
    | some range => do
      let first ← head[0]?
      let reverse := first.isKeyword "REVERSE"
      let lower ← slice? head (if reverse then 1 else 0) range
      let upper ← suffix? head (range + 1)
      some <| if lower.isEmpty || upper.isEmpty then .error "FOR range needs both bounds"
        else .ok (.rangeLoop name reverse (ofTokens lower) (ofTokens upper) body)
    | none => do
      let query ← bracketed? head
      some (.ok (.queryLoop name (ofTokens (query.getD head)) body))

/-- A statement that starts with `FOR`. -/
def counted? (span : List Token) : Option (Except String (Form (List Token))) := do
  match span[1]? with
  | none => some (.error "FOR without a loop variable")
  | some name =>
    if !name.isIdentifier then some (.error "FOR without a loop variable")
    else if !holdsAt (·.isKeyword "IN") span 2 then some (.error "FOR without IN")
    else match ← loopParts? "FOR" span 3 with
      | .error reason => some (.error reason)
      | .ok (opening, body) => do
        let head ← slice? span 3 opening
        loopOver? name.text head body

/-- A statement that starts with `WHILE`. -/
def whileLoop? (span : List Token) : Option (Except String (Form (List Token))) := do
  match ← loopParts? "WHILE" span 1 with
  | .error reason => some (.error reason)
  | .ok (opening, body) =>
    if opening = 1 then some (.error "WHILE without a condition")
    else (slice? span 1 opening).map fun head => .ok (.whileLoop (ofTokens head) body)

/-- A statement that starts with `LOOP`. -/
def endlessLoop? (span : List Token) : Option (Except String (Form (List Token))) :=
  (loopParts? "LOOP" span 0).map fun found => found.map fun parts => .endlessLoop parts.2

theorem loopParts?_cases (hfront : ∀ t ∈ front, t.isKeyword "END" = false) (what : String)
    (rest : List Token) :
    (∃ reason, loopParts? what (front ++ rest) front.length = some (.error reason) ∧
      loopParts what rest = .error reason) ∨
    ∃ head body, loopParts? what (front ++ rest) front.length =
        some (.ok (front.length + head.length, body)) ∧
      loopParts what rest = .ok (head, body) ∧
      slice? (front ++ rest) front.length (front.length + head.length) = some head := by
  obtain ⟨hend, hstrip⟩ | ⟨inner, back, hend, hstrip, hrest, hlt, hslice, hat⟩ :=
    closingEnd_cases hfront "LOOP" rest
  · refine .inl ⟨s!"{what} without END LOOP", ?_, ?_⟩
    · simp [loopParts?, hend]
    · simp [loopParts, hstrip]
  · obtain ⟨hfind, hspan⟩ | ⟨head, t, body, hfind, hspan, _⟩ := hat.find (·.isKeyword "LOOP")
    · refine .inl ⟨s!"{what} without LOOP", ?_, ?_⟩
      · simp [loopParts?, hend, hslice, hfind]
      · simp [loopParts, hstrip, hspan]
    · have hinner := eq_of_spanFrom hspan
      have hwhole : At (front ++ rest) front.length (head ++ t :: (body ++ back)) := by
        have hstart := (at_zero (front ++ rest)).append
        simpa [hrest, hinner] using hstart
      have hbody : inside? (front ++ rest) (front ++ rest) (front.length + head.length + 1)
          (front.length + inner.length) = some body := by
        have hlast :
            front.length + inner.length = front.length + head.length + 1 + body.length := by
          simp only [hinner, length_append, length_cons]
          omega
        rw [hlast]
        exact inside?_eq hwhole.append.cons.slice (by simp only [length_append]; omega)
      refine .inr ⟨head, body, ?_, by simp [loopParts, hstrip, hspan], hwhole.slice⟩
      simp [loopParts?, hend, hslice, hfind, hbody]

theorem bracketed?_eq (t : Token) :
    bracketed? (t :: rest) = some (match bracketGroup (t :: rest) with
      | some (inner, []) => some inner
      | _ => none) := by
  by_cases ht : t.isPunct '(' = true
  · obtain ⟨hmatching, hcut⟩ := (at_zero (t :: rest)).matching ht
    cases hgroup : bracketGroup (t :: rest) with
    | none => simp [bracketed?, minus?_add, hmatching, hgroup]
    | some cut =>
      obtain ⟨inner, later⟩ := cut
      obtain ⟨hslice, hlater⟩ := hcut inner later hgroup
      have hlength := hlater.length
      simp only [length_cons, Nat.zero_add] at hlength hslice
      cases later with
      | nil =>
        have hinner : 1 + inner.length = rest.length := by
          simp only [length_nil] at hlength
          omega
        rw [hinner] at hslice
        simp [bracketed?, minus?_add, hmatching, hgroup, hinner, hslice, ht]
      | cons u later =>
        have hinner : 1 + inner.length ≠ rest.length := by
          simp only [length_cons] at hlength
          omega
        simp [bracketed?, minus?_add, hmatching, hgroup, hinner]
  · simp [bracketed?, minus?_add, bracketGroup, ht]

theorem loopOver?_eq (name : String) (head body : List Token) :
    loopOver? name head body = some (loopOver name head body) := by
  cases head with
  | nil => rfl
  | cons t rest =>
    rw [loopOver?, loopOver]
    obtain ⟨hfind, hspan⟩ | ⟨front, range, upper, hfind, hspan, hslice, hat⟩ :=
      (at_zero (t :: rest)).find (·.isOp "..")
    · rw [hfind, hspan]
      simp only [bracketed?_eq, loopQuery]
      rcases bracketGroup (t :: rest) with _ | ⟨inner, _ | ⟨u, later⟩⟩ <;> rfl
    · have hinner := eq_of_spanFrom hspan
      have hupper := hat.cons.suffix
      simp only [Nat.zero_add] at hfind hslice hupper
      -- The dots are no `REVERSE`, so a range that starts with them has no bound to skip.
      have hreverse : t.isKeyword "REVERSE" = isReverse front := by
        cases front with
        | nil =>
          obtain ⟨_, hstop⟩ := stop_of_spanFrom hspan
          obtain rfl : t = range := (cons.inj hinner).1
          have hkind : t.kind = .operator := beq_iff_eq.1 (Bool.and_eq_true_iff.1 hstop).1
          exact Piece.isKeyword_eq_false_of_kind (by rw [hkind]; decide) _
        | cons u front => rw [(cons.inj hinner).1, isReverse]
      have hlower : slice? (t :: rest) (if isReverse front then 1 else 0) front.length =
          some (lowerBound front) := by
        by_cases h : isReverse front
        · cases front with
          | nil => cases h
          | cons u front =>
            have hcons : At (t :: rest) 1 (front ++ range :: upper) :=
              (cons.inj hinner).2 ▸ (at_zero (t :: rest)).cons
            simpa [h, lowerBound, Nat.add_comm] using hcons.slice
        · simpa [h, lowerBound] using hslice
      rw [hfind, hspan]
      simp [hreverse, hlower, hupper]

/-- `FOR` loops agree. -/
theorem counted?_eq (ht : t.isKeyword "END" = false) :
    counted? (t :: rest) = some (counted rest) := by
  cases rest with
  | nil => rfl
  | cons name rest =>
    by_cases hname : name.isIdentifier
    · cases rest with
      | nil => simp [counted?, counted, countedIn, hname, holdsAt]
      | cons word rest =>
        by_cases hword : word.isKeyword "IN"
        · have hfront : ∀ u ∈ [t, name, word], u.isKeyword "END" = false := by
            have hname : name.isKeyword "END" = false := by
              refine Piece.isKeyword_eq_false_of_kind ?_ _
              rw [beq_iff_eq.1 hname]
              decide
            simpa [ht, hname] using Piece.isKeyword_eq_false hword (by decide)
          obtain ⟨reason, hread, hlist⟩ | ⟨head, body, hread, hlist, hhead⟩ :=
            loopParts?_cases hfront "FOR" rest
          · simp_all [counted?, counted, countedIn, countedLoop, holdsAt]
          · simp_all [counted?, counted, countedIn, countedLoop, holdsAt, loopOver?_eq]
        · simp [counted?, counted, countedIn, hname, hword, holdsAt]
    · simp [counted?, counted, hname]

theorem whileLoop?_eq (ht : t.isKeyword "END" = false) :
    whileLoop? (t :: rest) = some (whileLoop rest) := by
  obtain ⟨reason, hread, hlist⟩ | ⟨head, body, hread, hlist, hhead⟩ :=
    loopParts?_cases (by simpa using ht : ∀ u ∈ [t], u.isKeyword "END" = false) "WHILE" rest
  · simp_all [whileLoop?, whileLoop]
  · cases head <;> simp_all [whileLoop?, whileLoop]

theorem endlessLoop?_eq (ht : t.isKeyword "LOOP") :
    endlessLoop? (t :: rest) = some (endlessLoop rest) := by
  have hfirst : t.isKeyword "END" = false := Piece.isKeyword_eq_false ht (by decide)
  obtain ⟨hend, hstrip⟩ | ⟨inner, back, hend, hstrip, hrest, hlt, hslice, hat⟩ :=
    closingEnd_cases (by simpa using hfirst : ∀ u ∈ [t], u.isKeyword "END" = false) "LOOP" rest
  · simp only [singleton_append] at hend
    rw [endlessLoop?, loopParts?, endlessLoop, hend, hstrip]
    rfl
  · simp only [singleton_append] at hend hslice
    have hfind : find? (·.isKeyword "LOOP") (t :: inner) 0 = some (some 0) := by
      rw [find?, (at_zero (t :: inner)).search rfl]
      simp [ht, Nesting.isOutside]
    have hbody : inside? (t :: rest) (t :: rest) 1 (1 + inner.length) = some inner := by
      have hcons := (at_zero (t :: rest)).cons
      rw [hrest] at hcons ⊢
      exact inside?_eq hcons.slice (by grind)
    simp_all [endlessLoop?, loopParts?, endlessLoop, Except.map]

end TriggerDialect.Positions
