import TriggerDialect.Grammar.Statements
import TriggerDialect.Proofs.Nesting.Passage

/-!
# Searches by position

A second way of reading works on token lists by position. It takes tokens and slices out of a list
by their indices, and gives up wherever an index is out of range, a difference is negative or a loop
does not move on: its results are optional, and `none` stands for a reading that broke off. `At`
ties a position to the tokens from there on. Main statements: the searches by position never give up
and stop where the lists are cut (`At.find`, `At.findClause`, `At.matching`).
-/

namespace TriggerDialect.Positions

open List Option

variable {stop : Nat → Option Bool}

/-! ### Positions -/

/-- The tokens from `i` up to `j`; none unless `i ≤ j` and `j` is in range. -/
def slice? (ts : List Token) (i j : Nat) : Option (List Token) :=
  if i ≤ j ∧ j ≤ ts.length then some ((ts.take j).drop i) else none

/-- The tokens from `i` on; none if `i` is out of range. -/
def suffix? (ts : List Token) (i : Nat) : Option (List Token) :=
  if i ≤ ts.length then some (ts.drop i) else none

/-- A difference; none if it is negative. -/
def minus? (m n : Nat) : Option Nat := if n ≤ m then some (m - n) else none

/-- Whether the token at a position is there and satisfies `p`. -/
def holdsAt (p : Piece → Bool) (ts : List Token) (i : Nat) : Bool :=
  ts[i]?.any fun t => p t.toPiece

/-- The position after the token at `i`, if that satisfies `p`; else `i` itself. -/
def skip (p : Piece → Bool) (ts : List Token) (i : Nat) : Nat :=
  if holdsAt p ts i then i + 1 else i

/-- The position `i` is in range or right at the end, and `rest` are the tokens from there on. -/
structure At (ts : List Token) (i : Nat) (rest : List Token) : Prop where
  le : i ≤ ts.length
  eq : ts.drop i = rest

variable {ts front rest later inner : List Token} {t : Token} {i j : Nat}

theorem at_zero (ts : List Token) : At ts 0 ts := ⟨Nat.zero_le _, rfl⟩

namespace At

theorem length (h : At ts i rest) : i + rest.length = ts.length := by
  have := h.le
  rw [← h.eq, length_drop]
  omega

theorem getElem? (h : At ts i rest) (k : Nat) : ts[i + k]? = rest[k]? := by
  rw [← h.eq, getElem?_drop]

theorem head (h : At ts i (t :: rest)) : ts[i]? = some t := h.getElem? 0

theorem holdsAt (h : At ts i (t :: rest)) (p : Piece → Bool) :
    Positions.holdsAt p ts i = p t.toPiece := by
  rw [Positions.holdsAt, h.head, any_some]

theorem none_at_end (h : At ts i []) : ts[i]? = none := h.getElem? 0

theorem holdsAt_end (h : At ts i []) (p : Piece → Bool) : Positions.holdsAt p ts i = false := by
  rw [Positions.holdsAt, h.none_at_end, any_none]

theorem lt (h : At ts i (t :: rest)) : i < ts.length := by
  have := h.length
  simp only [length_cons] at this
  omega

theorem append (h : At ts i (front ++ rest)) : At ts (i + front.length) rest := by
  constructor
  · have := h.length
    simp only [length_append] at this
    omega
  · rw [← drop_drop, h.eq, drop_left]

theorem cons (h : At ts i (t :: rest)) : At ts (i + 1) rest := by
  have hcons : At ts i ([t] ++ rest) := h
  exact hcons.append

theorem skip (h : At ts i rest) (p : Piece → Bool) :
    At ts (Positions.skip p ts i) (Sections.dropOne (fun t => p t.toPiece) rest) := by
  cases rest with
  | nil => rwa [Positions.skip, h.holdsAt_end, if_neg Bool.false_ne_true]
  | cons t rest =>
    rw [Positions.skip, h.holdsAt, Sections.dropOne]
    by_cases ht : p t.toPiece
    · rw [if_pos ht, if_pos ht]
      exact h.cons
    · rwa [if_neg ht, if_neg ht]

theorem slice (h : At ts i (front ++ rest)) : slice? ts i (i + front.length) = some front := by
  have hend := h.append.le
  rw [slice?, if_pos ⟨by omega, hend⟩, drop_take, h.eq, Nat.add_sub_cancel_left, take_left]

theorem suffix (h : At ts i rest) : suffix? ts i = some rest := by
  rw [suffix?, if_pos h.le, h.eq]

theorem slice_rest (h : At ts i rest) : slice? ts i ts.length = some rest := by
  have hwhole : At ts i (rest ++ []) := by rwa [append_nil]
  rw [← h.length]
  exact hwhole.slice

end At

theorem suffix?_tail (t : Token) (rest : List Token) : suffix? (t :: rest) 1 = some rest :=
  (at_zero (t :: rest)).cons.suffix

theorem minus?_add (m n : Nat) : minus? (m + n) n = some m := by
  rw [minus?, if_pos (by omega), Nat.add_sub_cancel]

/-! ### Searches outside all nesting -/

/-- The nesting after the token at `i`, and how many tokens that takes. -/
def advance? (n : Nesting) (ts : List Token) (i : Nat) : Option (Nesting × Nat) := do
  let t ← ts[i]?
  match ts[i + 1]?.bind fun u => t.closesWith u.toPiece with
  | some frame => some (n.close frame, 2)
  | none => some (n.enter t.toPiece, 1)

/-- The first position from `i` on at which nothing is open and `stop` holds. -/
def search? (stop : Nat → Option Bool) (ts : List Token) (n : Nesting) (i : Nat) :
    Option (Option Nat) :=
  if _h : i < ts.length then do
    let found ← if n.isOutside then stop i else some false
    if found then some (some i)
    else do
      let (n', step) ← advance? n ts i
      if _hstep : 0 < step then search? stop ts n' (i + step) else none
  else some none
termination_by ts.length - i
decreasing_by omega

/-- The first position from `start` on outside all nesting at which `p` holds. -/
def find? (p : Piece → Bool) (ts : List Token) (start : Nat) : Option (Option Nat) :=
  search? (fun i => ts[i]?.map fun t => p t.toPiece) ts .outside start

/-- Whether a clause of a search from `start` on begins at `i`, with one of the words at `start`
itself or right after a semicolon. -/
def opensClause? (words : List String) (ts : List Token) (start i : Nat) : Option Bool := do
  let opens ← if i = start then some true else do
    let before ← minus? i 1
    ts[before]?.map fun t => t.isPunct ';'
  if opens then ts[i]?.map fun t => words.any t.isKeyword else some false

/-- The first position from `start` on outside all nesting at which a clause begins. -/
def findClause? (words : List String) (ts : List Token) (start : Nat) : Option (Option Nat) :=
  search? (opensClause? words ts start) ts .outside start

/-- The position at which a list was cut; none if it was not. -/
def foundAt (i : Nat) (cut : List Token × List Token) : Option Nat :=
  if cut.2.isEmpty then none else some (i + cut.1.length)

theorem At.advance (h : At ts i (t :: rest)) (n : Nesting) :
    advance? n ts i = match rest.head?.bind fun u => t.closesWith u.toPiece with
      | some frame => some (n.close frame, 2)
      | none => some (n.enter t.toPiece, 1) := by
  have hnext : ts[i + 1]? = rest.head? := by
    rw [h.getElem? 1, getElem?_cons_succ, head?_eq_getElem?]
  simp [advance?, h.head, hnext]

theorem At.search {found : Bool} (h : At ts i (t :: rest)) (hstop : stop i = some found)
    (n : Nesting) :
    search? stop ts n i =
      if n.isOutside && found then some (some i)
      else match rest.head?.bind fun u => t.closesWith u.toPiece with
        | some frame => search? stop ts (n.close frame) (i + 2)
        | none => search? stop ts (n.enter t.toPiece) (i + 1) := by
  rw [search?, dif_pos h.lt, h.advance, hstop]
  cases n.isOutside <;> cases found <;>
    cases rest.head?.bind fun u => t.closesWith u.toPiece <;> rfl

theorem At.search_end (h : At ts i []) (stop : Nat → Option Bool) (n : Nesting) :
    search? stop ts n i = some none := by
  have hlength := h.length
  rw [search?, dif_neg (by simp only [length_nil] at hlength; omega)]

/-- From `i` on, `stop` looks at the token of each position and at the one before. -/
def Sees (stop : Nat → Option Bool) (stop' : Option Piece → Piece → Bool) :
    Nat → Option Piece → List Token → Prop
  | _, _, [] => True
  | i, previous, t :: rest =>
    stop i = some (stop' previous t.toPiece) ∧ Sees stop stop' (i + 1) (some t.toPiece) rest

theorem foundAt_cons (i : Nat) (t : Token) (cut : List Token × List Token) :
    foundAt i (t :: cut.1, cut.2) = foundAt (i + 1) cut := by
  simp [foundAt, Nat.add_assoc, Nat.add_comm cut.1.length]

/-- A search by position stops where the list is cut. -/
theorem search?_eq {stop' : Option Piece → Piece → Bool} {n : Nesting} {previous : Option Piece}
    (hat : At ts i rest) (hsees : Sees stop stop' i previous rest) :
    search? stop ts n i = some (foundAt i (spanFrom stop' n previous rest)) := by
  fun_induction spanFrom stop' n previous rest generalizing i with
  | case1 n previous => exact hat.search_end stop n
  | case2 n previous t hfound =>
    rw [hat.search hsees.1, if_pos hfound]
    rfl
  | case3 n previous t hfound =>
    rw [hat.search hsees.1, if_neg hfound]
    exact hat.cons.search_end stop _
  | case4 n previous t u rest hfound =>
    rw [hat.search hsees.1, if_pos hfound]
    rfl
  | case5 n previous t u rest hfound frame hcloses =>
    rename_i ih
    rw [hat.search hsees.1, if_neg hfound]
    simp only [head?_cons, bind_some, hcloses]
    rw [foundAt_cons i t (u :: _, _), foundAt_cons]
    exact ih hat.cons.cons hsees.2.2
  | case6 n previous t u rest hfound hcloses =>
    rename_i ih
    rw [hat.search hsees.1, if_neg hfound]
    simp only [head?_cons, bind_some, hcloses]
    rw [foundAt_cons]
    exact ih hat.cons hsees.2

/-- What a search from `i` on finds, and how the rest is cut there: nothing is found and nothing is
left, or the position found cuts the rest in two. -/
def Cuts (ts : List Token) (i : Nat) (rest : List Token) (found : Option (Option Nat))
    (cut : List Token × List Token) : Prop :=
  found = some none ∧ cut = (rest, []) ∨
    ∃ front t later, found = some (some (i + front.length)) ∧ cut = (front, t :: later) ∧
      slice? ts i (i + front.length) = some front ∧ At ts (i + front.length) (t :: later)

theorem At.cuts (h : At ts i rest) (stop : Option Piece → Piece → Bool) (n : Nesting)
    (previous : Option Piece) :
    Cuts ts i rest (some (foundAt i (spanFrom stop n previous rest)))
      (spanFrom stop n previous rest) := by
  have happend := spanFrom_append stop n previous rest
  cases hcut : spanFrom stop n previous rest with
  | mk front tail =>
    rw [hcut] at happend
    cases tail with
    | nil => exact .inl ⟨rfl, by rw [← happend, append_nil]⟩
    | cons t later =>
      rw [← happend] at h
      exact .inr ⟨front, t, later, rfl, rfl, h.slice, h.append⟩

/-- A search by position cuts where the span ends. -/
theorem At.find (h : At ts i rest) (p : Piece → Bool) :
    Cuts ts i rest (find? p ts i) (spanAtDepth p rest) := by
  have hsees : Sees (fun i => ts[i]?.map fun t => p t.toPiece) (fun _ q => p q) i none rest := by
    generalize (none : Option Piece) = previous
    induction rest generalizing i previous with
    | nil => trivial
    | cons t rest ih => exact ⟨congrArg (Option.map fun t => p t.toPiece) h.head, ih h.cons _⟩
  rw [find?, search?_eq h hsees]
  exact h.cuts _ _ _

theorem sees_opensClause? {words : List String} {start : Nat} {before : Token}
    (h : At ts (i + 1) rest) (hstart : start ≤ i) (hbefore : ts[i]? = some before) :
    Sees (opensClause? words ts start)
      (fun previous p => previous.all (·.isPunct ';') && words.any p.isKeyword)
      (i + 1) (some before.toPiece) rest := by
  induction rest generalizing i before with
  | nil => trivial
  | cons t rest ih =>
    refine ⟨?_, ih h.cons (by omega) h.head⟩
    rw [opensClause?, if_neg (by omega), minus?_add, h.head]
    simp only [bind_eq_bind, bind_some, hbefore, map_some, all_some]
    cases before.isPunct ';' <;> rfl

/-- So does a search for the word of a clause. -/
theorem At.findClause (h : At ts i rest) (words : List String) :
    Cuts ts i rest (findClause? words ts i) (spanClause words rest) := by
  have hsees : Sees (opensClause? words ts i)
      (fun previous p => previous.all (·.isPunct ';') && words.any p.isKeyword) i none rest := by
    cases rest with
    | nil => trivial
    | cons t rest =>
      refine ⟨?_, sees_opensClause? h.cons (Nat.le_refl i) h.head⟩
      rw [opensClause?, if_pos rfl, h.head]
      rfl
  rw [findClause?, search?_eq h hsees]
  exact h.cuts _ _ _

/-! ### Brackets and commas -/

/-- The position of the bracket that closes the last of `depth` open ones, where the tokens start at
`i`. -/
def closing (depth i : Nat) : List Token → Option Nat
  | [] => none
  | t :: rest =>
    if t.isPunct '(' then closing (depth + 1) (i + 1) rest
    else if t.isPunct ')' then
      match depth with
      | 0 => none
      | 1 => some i
      | depth + 2 => closing (depth + 1) (i + 1) rest
    else closing depth (i + 1) rest

/-- The position of the partner of the bracket at `opening`. -/
def matching (ts : List Token) (opening : Nat) : Option Nat :=
  closing 0 opening (ts.drop opening)

theorem closing_eq (depth i : Nat) (ts : List Token) :
    closing depth i ts = (throughClosing depth ts).map fun cut => i + cut.1.length := by
  fun_induction throughClosing depth ts generalizing i with
  | case1 => rfl
  | case2 depth t rest hopening ih =>
    simp [closing, hopening, ih, Function.comp_def, Nat.add_assoc, Nat.add_comm 1]
  | case3 t rest hopening hclosing => simp [closing, hopening, hclosing]
  | case4 t rest hopening hclosing => simp [closing, hopening, hclosing]
  | case5 t rest hopening hclosing depth ih =>
    simp [closing, hopening, hclosing, ih, Function.comp_def, Nat.add_assoc, Nat.add_comm 1]
  | case6 depth t rest hopening hclosing ih =>
    simp [closing, hopening, hclosing, ih, Function.comp_def, Nat.add_assoc, Nat.add_comm 1]

/-- The partner of an opening bracket is found where the list is cut. -/
theorem At.matching (h : At ts i (t :: rest)) (hopening : t.isPunct '(' = true) :
    matching ts i = (bracketGroup (t :: rest)).map (fun cut => i + 1 + cut.1.length) ∧
      ∀ inner later, bracketGroup (t :: rest) = some (inner, later) →
        slice? ts (i + 1) (i + 1 + inner.length) = some inner ∧
          At ts (i + 1 + inner.length + 1) later := by
  have hgroup : bracketGroup (t :: rest) = throughClosing 1 rest := by
    rw [bracketGroup, if_pos hopening]
  constructor
  · rw [Positions.matching, h.eq, closing, if_pos hopening, closing_eq, hgroup]
  · intro inner later hcut
    obtain ⟨closing, _, hrest⟩ := throughClosing_eq (hgroup ▸ hcut)
    have hinner : At ts (i + 1) (inner ++ closing :: later) := hrest ▸ h.cons
    exact ⟨hinner.slice, hinner.append.cons⟩

/-- The parts between the commas outside all nesting, from `start` on. -/
def splitCommas? (ts : List Token) (start : Nat) : Option (List (List Token)) := do
  match ← find? (·.isPunct ',') ts start with
  | none => (suffix? ts start).map ([·])
  | some comma => do
    let part ← slice? ts start comma
    if _h : start < comma + 1 ∧ comma < ts.length then
      (splitCommas? ts (comma + 1)).map (part :: ·)
    else none
termination_by ts.length - start
decreasing_by omega

theorem At.splitCommas (h : At ts i rest) :
    splitCommas? ts i = some (TriggerDialect.splitCommas rest) := by
  fun_induction TriggerDialect.splitCommas rest generalizing i with
  | case1 rest hcut =>
    obtain ⟨hfind, hspan⟩ | ⟨_, _, _, _, hspan, _⟩ := h.find (·.isPunct ',')
    · rw [splitCommas?, hfind, hspan]
      simp [h.suffix]
    · rw [hspan] at hcut
      cases hcut
  | case2 rest comma later hcut hlt ih =>
    obtain ⟨_, hspan⟩ | ⟨front, t, later', hfind, hspan, hslice, hat⟩ := h.find (·.isPunct ',')
    · rw [hspan] at hcut
      cases hcut
    · rw [hspan] at hcut ⊢
      cases hcut
      have hmoves : i < i + front.length + 1 ∧ i + front.length < ts.length := ⟨by omega, hat.lt⟩
      rw [splitCommas?, hfind]
      simp [hslice, hmoves, ih hat.cons]

end TriggerDialect.Positions
