import TriggerDialect.Proofs.Nesting.Passage

/-!
# Brackets

`bracketsAfter` counts the brackets that tokens leave open. A group is what stands between a bracket
and its partner: the tokens inside close all brackets that they open (`bracketGroup_iff`).
-/

namespace TriggerDialect

/-- The number of brackets that are open after the tokens, unless one closes that was not opened. -/
def bracketsAfter (depth : Nat) : List Token → Option Nat
  | [] => some depth
  | t :: rest =>
    if t.isPunct '(' then bracketsAfter (depth + 1) rest
    else if t.isPunct ')' then
      if depth = 0 then none else bracketsAfter (depth - 1) rest
    else bracketsAfter depth rest

/-- The number of brackets that are open after one token. -/
def bracketsBehind (depth : Nat) (t : Token) : Option Nat :=
  if t.isPunct '(' then some (depth + 1)
  else if t.isPunct ')' then
    if depth = 0 then none else some (depth - 1)
  else some depth

variable {depth depth' : Nat} {t : Token} {ts inner rest : List Token}

theorem not_opening_of_closing (h : t.isPunct ')' = true) : ¬t.isPunct '(' = true := by
  rw [Piece.isPunct_eq_false h (by decide)]
  decide

theorem bracketsBehind_eq_none_iff :
    bracketsBehind depth t = none ↔ depth = 0 ∧ t.isPunct ')' := by
  by_cases hclosing : t.isPunct ')' = true
  · simp [bracketsBehind, not_opening_of_closing hclosing, hclosing]
  · grind [bracketsBehind]

/-- A token does the same below further brackets. -/
theorem bracketsBehind_add (h : bracketsBehind depth t = some depth') (outer : Nat) :
    bracketsBehind (outer + depth + 1) t = some (outer + depth' + 1) := by
  grind [bracketsBehind]

theorem bracketsAfter_cons (depth : Nat) (t : Token) :
    bracketsAfter depth (t :: rest) = (bracketsBehind depth t).bind (bracketsAfter · rest) := by
  rw [bracketsAfter, bracketsBehind]
  split
  · rfl
  · split
    · split <;> rfl
    · rfl

theorem bracketsAfter_opening (h : t.isPunct '(' = true) (depth : Nat) (rest : List Token) :
    bracketsAfter depth (t :: rest) = bracketsAfter (depth + 1) rest := by
  rw [bracketsAfter, if_pos h]

theorem bracketsAfter_closing (h : t.isPunct ')' = true) (depth : Nat) (rest : List Token) :
    bracketsAfter (depth + 1) (t :: rest) = bracketsAfter depth rest := by
  rw [bracketsAfter, if_neg (not_opening_of_closing h), if_pos h,
    if_neg (Nat.succ_ne_zero depth), Nat.add_sub_cancel]

theorem bracketsAfter_other (hopening : t.isPunct '(' = false) (hclosing : t.isPunct ')' = false)
    (depth : Nat) : bracketsAfter depth (t :: rest) = bracketsAfter depth rest := by
  rw [bracketsAfter, if_neg (by simp [hopening]), if_neg (by simp [hclosing])]

theorem bracketsAfter_of_kind (h : t.kind ≠ .punctuation) (depth : Nat) :
    bracketsAfter depth (t :: rest) = bracketsAfter depth rest :=
  bracketsAfter_other (Piece.isPunct_eq_false_of_kind h _) (Piece.isPunct_eq_false_of_kind h _) _

theorem bracketsAfter_append (depth : Nat) (ts us : List Token) :
    bracketsAfter depth (ts ++ us) = (bracketsAfter depth ts).bind (bracketsAfter · us) := by
  induction ts generalizing depth with
  | nil => rfl
  | cons t ts ih => simp only [List.cons_append, bracketsAfter_cons, ih, Option.bind_assoc]

/-- What is left of tokens that close all brackets does so too. -/
theorem exists_bracketsAfter_tail (h : bracketsAfter depth (t :: ts) = some 0) :
    ∃ depth', bracketsAfter depth' ts = some 0 := by
  rw [bracketsAfter_cons] at h
  obtain ⟨depth', -, htail⟩ := Option.bind_eq_some_iff.1 h
  exact ⟨depth', htail⟩

/-! ### Groups -/

theorem throughClosing_cons (depth : Nat) (t : Token) :
    throughClosing (depth + 1) (t :: rest) =
      match bracketsBehind depth t with
      | none => some ([], rest)
      | some depth' => (throughClosing (depth' + 1) rest).map fun cut => (t :: cut.1, cut.2) := by
  rw [throughClosing.eq_def, bracketsBehind]
  by_cases hopening : t.isPunct '(' = true
  · simp only [if_pos hopening]
  · by_cases hclosing : t.isPunct ')'
    · cases depth <;> simp [hopening, hclosing]
    · simp only [if_neg hopening, if_neg hclosing]

/-- What stands before a closing bracket closes all other brackets. -/
theorem throughClosing_iff :
    throughClosing (depth + 1) ts = some (inner, rest) ↔
      ∃ closing, closing.isPunct ')' ∧ ts = inner ++ closing :: rest ∧
        bracketsAfter depth inner = some 0 := by
  induction ts generalizing depth inner with
  | nil => simp [throughClosing]
  | cons t ts ih =>
    rw [throughClosing_cons]
    constructor
    · intro h
      cases hstep : bracketsBehind depth t with
      | none =>
        obtain ⟨rfl, hclosing⟩ := bracketsBehind_eq_none_iff.1 hstep
        rw [hstep] at h
        cases h
        exact ⟨t, hclosing, rfl, rfl⟩
      | some depth' =>
        rw [hstep] at h
        obtain ⟨cut, hcut, hpair⟩ := Option.map_eq_some_iff.1 h
        cases hpair
        obtain ⟨closing, hclosing, rfl, hinner⟩ := ih.1 hcut
        exact ⟨closing, hclosing, rfl, by rw [bracketsAfter_cons, hstep]; exact hinner⟩
    · rintro ⟨closing, hclosing, hts, hinner⟩
      cases inner with
      | nil =>
        cases hts
        cases hinner
        rw [bracketsBehind_eq_none_iff.2 ⟨rfl, hclosing⟩]
      | cons u inner =>
        cases hts
        rw [bracketsAfter_cons] at hinner
        obtain ⟨depth', hstep, hinner⟩ := Option.bind_eq_some_iff.1 hinner
        simp only [hstep, ih.2 ⟨closing, hclosing, rfl, hinner⟩, Option.map_some]

/-- A group is a bracket, what closes all brackets in it, and its partner. -/
theorem bracketGroup_iff :
    bracketGroup ts = some (inner, rest) ↔
      ∃ opening closing, opening.isPunct '(' = true ∧ closing.isPunct ')' ∧
        ts = opening :: (inner ++ closing :: rest) ∧ bracketsAfter 0 inner = some 0 := by
  constructor
  · intro h
    obtain ⟨opening, closing, hopening, hclosing, rfl⟩ := bracketGroup_eq h
    rw [List.cons_append, bracketGroup, if_pos hopening] at h
    obtain ⟨_, -, -, hinner⟩ := throughClosing_iff.1 h
    exact ⟨opening, closing, hopening, hclosing, rfl, hinner⟩
  · rintro ⟨opening, closing, hopening, hclosing, rfl, hinner⟩
    rw [bracketGroup, if_pos hopening]
    exact throughClosing_iff.2 ⟨closing, hclosing, rfl, hinner⟩

/-- Where all brackets are closed, those that were opened last are closed too. -/
theorem exists_throughClosing (outer depth : Nat)
    (h : bracketsAfter (outer + depth + 1) ts = some 0) :
    ∃ inner rest, throughClosing (depth + 1) ts = some (inner, rest) := by
  induction ts generalizing depth with
  | nil => cases h
  | cons t ts ih =>
    rw [throughClosing_cons]
    cases hstep : bracketsBehind depth t with
    | none => exact ⟨[], ts, rfl⟩
    | some depth' =>
      rw [bracketsAfter_cons, bracketsBehind_add hstep, Option.bind_some] at h
      obtain ⟨inner, rest, hcut⟩ := ih depth' h
      exact ⟨t :: inner, rest, by simp [hcut]⟩

end TriggerDialect
