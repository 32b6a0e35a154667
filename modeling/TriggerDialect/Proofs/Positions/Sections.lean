import TriggerDialect.Proofs.Phrase.Leaf
import TriggerDialect.Proofs.Positions.Search

/-!
# Sections of a block, by position

The block is walked through once. The walk keeps the positions of the `EXCEPTION` and of the final
`END`, and the sections are cut out between them. Main statement: the walk never gives up, whatever
the tokens are, and the cuts are those of the lists (`split?_eq`).
-/

namespace TriggerDialect.Positions

open Sections Option

variable {ts front rest later : List Token} {t : Token} {i : Nat} {n : Nesting} {declaring : Bool}
  {exception : Option Nat} {before : List Token} {word : Token}

/-- Whether a name stands right before `i`. -/
def namedBefore? (ts : List Token) (i : Nat) : Option Bool :=
  if 0 < i then do
    let before ← ts[← minus? i 1]?
    some before.isIdentifier
  else some false

/-- The position of the first `BEGIN`, where `rest` are the tokens from `i` on. -/
def findBegin? (ts : List Token) : List Token → Nat → Option (Except StructureFault (Option Nat))
  | [], _ => some (.ok none)
  | t :: rest, i => do
    let named ← namedBefore? ts i
    if t.isKeyword "BEGIN" then some (.ok (some i))
    else if t.isKeyword "EXCEPTION" && !named then
      some (.error ⟨.exceptionBeforeBegin, t.offset⟩)
    else findBegin? ts rest (i + 1)

/-- The positions of `EXCEPTION` and of the final `END`, from `i` on. -/
def ends? (ts : List Token) (n : Nesting) (declaring : Bool) (exception : Option Nat) (i : Nat) :
    Option (Option Nat × Option Nat) :=
  if _h : i < ts.length then do
    let t ← ts[i]?
    let exception := exception.or (if startsHandlers n declaring t then some i else none)
    let (n', step) ← advance? n ts i
    if n'.isOutside && t.isKeyword "END" then some (exception, some i)
    else if _hstep : 0 < step then ends? ts n' (declaringAfter n declaring t) exception (i + step)
    else none
  else some (exception, none)
termination_by ts.length - i
decreasing_by omega

/-- The name after the final `END` at `last`, and what follows `[;] [/]`. -/
def afterEnd (ts : List Token) (last : Nat) : Option String × List Token :=
  let named := skip (·.isIdentifier) ts (last + 1)
  (ts[last + 1]?.bind fun t => if t.isIdentifier then some t.text else none,
    ts.drop (skip (·.isOp "/") ts (skip (·.isPunct ';') ts named)))

/-- The declarations before the `BEGIN` at `start`. -/
def declared? (ts : List Token) (start : Nat) : Option (Option (List Token)) :=
  if start = 0 then some none else do
    let first ← ts[0]?
    (slice? ts (if first.isKeyword "DECLARE" then 1 else 0) start).map some

/-- The handlers between the `EXCEPTION` that was found, if it was, and `last`. -/
def handled? (ts : List Token) (exception : Option Nat) (last : Nat) :
    Option (Option (List Token)) :=
  match exception with
  | none => some none
  | some i => (slice? ts (i + 1) last).map some

/-- The sections between the `BEGIN` at `start` and the positions found. -/
def sections? (ts : List Token) (start : Nat) (exception found : Option Nat) :
    Option (Except StructureFault Sections) := do
  let last := found.getD ts.length
  let declarations ← declared? ts start
  let (label, trailing) := afterEnd ts last
  match trailing.find? (·.isKeyword "DECLARE") with
  | some t => some (.error ⟨.declareAfterBegin, t.offset⟩)
  | none => do
    let statements ← slice? ts (start + 1) (exception.getD last)
    let handlers ← handled? ts exception last
    some (.ok {
      declarations, statements, handlers, label, trailing
      warnings := if found.isSome then [] else [⟨.missingTerminalEnd, lastOffset ts⟩] })

/-- The sections of a block. -/
def split? (ts : List Token) : Option (Except StructureFault Sections) := do
  match ← findBegin? ts ts 0 with
  | .error fault => some (.error fault)
  | .ok none => some (.error ⟨.missingBegin, firstOffset ts⟩)
  | .ok (some start) => do
    let (exception, found) ← ends? ts .outside false none start
    sections? ts start exception found

theorem findBegin?_eq {before : Option Piece} (h : At ts i rest)
    (hbefore : namedBefore? ts i = some (before.any Piece.isIdentifier)) :
    findBegin? ts rest i =
      some ((splitBegin before rest).map fun found => found.map fun cut => i + cut.1.length) := by
  induction rest generalizing i before with
  | nil => rfl
  | cons t rest ih =>
    have hnext : namedBefore? ts (i + 1) = some ((some t.toPiece).any Piece.isIdentifier) := by
      simp [namedBefore?, minus?_add, h.head]
    rw [findBegin?, hbefore, splitBegin]
    by_cases hbegin : t.isKeyword "BEGIN"
    · simp [hbegin, Except.map]
    · by_cases hexception : (t.isKeyword "EXCEPTION" && !before.any Piece.isIdentifier)
      · simp only [bind_eq_bind, bind_some, hbegin, hexception]
        rfl
      · simp only [bind_eq_bind, bind_some, hbegin, hexception, ih h.cons hnext]
        rcases splitBegin (some t.toPiece) rest with fault | _ | ⟨front, after⟩
        · rfl
        · rfl
        · simp [Except.map]
          omega

theorem At.ends (h : At ts i (t :: rest)) :
    ends? ts n declaring exception i =
      match rest.head?.bind fun u => t.closesWith u.toPiece with
      | some frame =>
        if (n.close frame).isOutside then
          some (exception.or (if startsHandlers n declaring t then some i else none), some i)
        else ends? ts (n.close frame) (declaringAfter n declaring t)
          (exception.or (if startsHandlers n declaring t then some i else none)) (i + 2)
      | none =>
        if (n.enter t.toPiece).isOutside && t.isKeyword "END" then
          some (exception.or (if startsHandlers n declaring t then some i else none), some i)
        else ends? ts (n.enter t.toPiece) (declaringAfter n declaring t)
          (exception.or (if startsHandlers n declaring t then some i else none)) (i + 1) := by
  rw [ends?, dif_pos h.lt, h.advance, h.head]
  cases hcloses : rest.head?.bind fun u => t.closesWith u.toPiece with
  | none => simp
  | some frame =>
    obtain ⟨u, _, hu⟩ := bind_eq_some_iff.1 hcloses
    simp [Piece.end_of_closesWith hu]

/-- The position of the final `END`, if a list is cut there. -/
def endOf (i : Nat) (cut : List Token × Option (List Token)) : Option Nat :=
  cut.2.map fun _ => i + cut.1.length

theorem endOf_cons (i : Nat) (t : Token) (cut : List Token × Option (List Token)) :
    endOf i (t :: cut.1, cut.2) = endOf (i + 1) cut := by
  simp [endOf, Nat.add_assoc, Nat.add_comm 1]

theorem At.ends_end (h : At ts i []) :
    ends? ts n declaring exception i = some (exception, none) := by
  rw [ends?, dif_neg (by simpa using Nat.le_of_eq h.length.symm)]

theorem At.ends_handlers (h : At ts i rest) (k : Nat) :
    ends? ts n declaring (some k) i = some (some k, endOf i (splitEnd n rest)) := by
  fun_induction splitEnd n rest generalizing i declaring with
  | case1 n => exact h.ends_end
  | case2 n t hend => simp [h.ends, hend, endOf]
  | case3 n t hend => simp [h.ends, hend, endOf, h.cons.ends_end]
  | case4 n t u rest frame hcloses hend => simp [h.ends, hcloses, hend, endOf]
  | case5 n t u rest frame hcloses hend =>
    rename_i later ih
    rw [endOf_cons i t (u :: _, _), endOf_cons]
    simp [h.ends, hcloses, hend, ih h.cons.cons, later]
  | case6 n t u rest hcloses hend => simp [h.ends, hcloses, hend, endOf]
  | case7 n t u rest hcloses hend =>
    rename_i later ih
    rw [endOf_cons]
    simp [h.ends, hcloses, hend, ih h.cons, later]

/-- The positions at which the statements of a block and the block end, if its body is cut so. -/
def endsOf (i : Nat) : List Token × BodyEnd → Option Nat × Option Nat
  | (body, .handlers after) =>
    (some (i + body.length), endOf (i + body.length + 1) (splitEnd .outerBlock after))
  | (body, .closed _) => (none, some (i + body.length))
  | (_, .unclosed) => (none, none)

theorem endsOf_cons (i : Nat) (t : Token) (cut : List Token × BodyEnd) :
    endsOf i (t :: cut.1, cut.2) = endsOf (i + 1) cut := by
  rcases cut with ⟨body, _ | _ | _⟩ <;>
    simp [endsOf, Nat.add_assoc, Nat.add_comm 1]

/-- The walk goes on behind the `EXCEPTION` of the outer block. -/
theorem At.ends_startsHandlers (h : At ts i (t :: rest)) (hstarts : startsHandlers n declaring t) :
    ends? ts n declaring none i = some (endsOf i ([], .handlers rest)) := by
  obtain ⟨⟨hn, _⟩, hword⟩ : (n.inOuterBlock ∧ _) ∧ t.isKeyword "EXCEPTION" := by
    simpa only [startsHandlers, Bool.and_eq_true] using hstarts
  have hinline : t.IsInline := .of_isKeyword hword (by decide)
  have hcloses : (rest.head?.bind fun u => t.closesWith u.toPiece) = none := by
    cases rest <;> simp [Piece.closesWith_eq_none hinline.ends]
  simp only [h.ends, hcloses, hinline.ends, Nesting.enter_of_inline hinline, hstarts,
    Bool.and_false]
  rw [beq_iff_eq.1 hn]
  exact h.cons.ends_handlers i

theorem At.ends_body (h : At ts i rest) :
    ends? ts n declaring none i = some (endsOf i (splitBody n declaring rest)) := by
  fun_induction splitBody n declaring rest generalizing i with
  | case1 n declaring => exact h.ends_end
  | case2 n declaring t hstarts => exact h.ends_startsHandlers hstarts
  | case3 n declaring t hstarts hend => simp [h.ends, hstarts, hend, endsOf]
  | case4 n declaring t hstarts hend => simp [h.ends, hstarts, hend, h.cons.ends_end, endsOf]
  | case5 n declaring t u rest hstarts => exact h.ends_startsHandlers hstarts
  | case6 n declaring t u rest hstarts frame hcloses hend =>
    simp [h.ends, hstarts, hcloses, hend, endsOf]
  | case7 n declaring t u rest hstarts frame hcloses hend =>
    rename_i later ih
    rw [endsOf_cons i t (u :: _, _), endsOf_cons]
    simp [h.ends, hstarts, hcloses, hend, ih h.cons.cons, later]
  | case8 n declaring t u rest hstarts hcloses hend =>
    simp [h.ends, hstarts, hcloses, hend, endsOf]
  | case9 n declaring t u rest hstarts hcloses hend =>
    rename_i later ih
    rw [endsOf_cons]
    simp [h.ends, hstarts, hcloses, hend, ih h.cons, later]

theorem At.afterEnd (h : At ts (i + 1) rest) :
    Positions.afterEnd ts i = ((takeLabel rest).1,
      dropOne (·.isOp "/") (dropOne (·.isPunct ';') (takeLabel rest).2)) := by
  have hlabel : takeLabel rest =
      (ts[i + 1]?.bind fun t => if t.isIdentifier then some t.text else none,
      dropOne (fun t => t.isIdentifier) rest) := by
    cases rest with
    | nil => simp [takeLabel, h.none_at_end, dropOne]
    | cons t rest => by_cases ht : t.isIdentifier = true <;> simp [takeLabel, h.head, dropOne, ht]
  rw [Positions.afterEnd, (((h.skip (·.isIdentifier)).skip (·.isPunct ';')).skip (·.isOp "/")).eq,
    hlabel]

/-- Nothing is left after a block without its final `END`. -/
theorem afterEnd_length (ts : List Token) : afterEnd ts ts.length = (none, []) := by
  simp [afterEnd, skip, holdsAt]

/-- What the search for the final `END` found, and what follows it. -/
def EndsAt (ts : List Token) : Option Nat → Option (List Token) → Prop
  | some i, some after => At ts (i + 1) after
  | none, none => True
  | _, _ => False

theorem declared?_eq (hts : ts = before ++ word :: rest) :
    declared? ts before.length = some (declarationsOf before) := by
  subst hts
  cases before with
  | nil => rfl
  | cons t before =>
    have hwhole := (at_zero ((t :: before) ++ word :: rest)).slice
    have htail := (at_zero (t :: (before ++ word :: rest))).cons.slice
    rw [Nat.zero_add, Nat.add_comm] at htail
    rw [declared?, declarationsOf]
    by_cases ht : t.isKeyword "DECLARE"
    · simp [ht, htail]
    · simpa [ht] using hwhole

theorem sections?_eq {body : List Token} {found : Option Nat} {handlers after : Option (List Token)}
    (hts : ts = before ++ word :: rest) (hafter : EndsAt ts found after)
    (hbody : slice? ts (before.length + 1) (exception.getD (found.getD ts.length)) = some body)
    (hhandlers : handled? ts exception (found.getD ts.length) = some handlers) :
    sections? ts before.length exception found = some (assemble ts before body handlers after) := by
  have hend : Positions.afterEnd ts (found.getD ts.length) = ((takeLabel (after.getD [])).1,
      dropOne (·.isOp "/") (dropOne (·.isPunct ';') (takeLabel (after.getD [])).2)) ∧
      found.isSome = after.isSome := by
    rcases found with _ | i <;> rcases after with _ | after
    · exact ⟨afterEnd_length ts, rfl⟩
    · exact hafter.elim
    · exact hafter.elim
    · exact ⟨At.afterEnd hafter, rfl⟩
  simp only [sections?, declared?_eq hts, hbody, hhandlers, hend.1, hend.2, assemble]
  simp only [bind_eq_bind, bind_some]
  cases (dropOne (·.isOp "/") (dropOne (·.isPunct ';') (takeLabel (after.getD [])).2)).find?
    (·.isKeyword "DECLARE") <;> rfl

/-- The sections of a source are found alike. -/
theorem split?_eq (ts : List Token) : split? ts = some (Sections.split ts) := by
  have hfirst : namedBefore? ts 0 = some (Option.any Piece.isIdentifier none) := rfl
  rw [split?, findBegin?_eq (at_zero ts) hfirst, Sections.split]
  rcases hbegin : splitBegin none ts with fault | _ | ⟨before, rest⟩
  · rfl
  · rfl
  · obtain ⟨word, hword, hts⟩ := splitBegin_eq hbegin
    have hstart : At ts before.length (word :: rest) := by
      have happend := (at_zero (before ++ word :: rest)).append
      rwa [← hts, Nat.zero_add] at happend
    -- `BEGIN` opens the outer block, and the walk goes on inside it.
    have hends : ends? ts .outside false none before.length =
        some (endsOf (before.length + 1) (splitBody .outerBlock false rest)) := by
      have hend := Piece.isKeyword_eq_false hword (show _ ≠ Text.upper "END" by decide)
      have hcloses : (rest.head?.bind fun u => word.closesWith u.toPiece) = none := by
        cases rest <;> simp [Piece.closesWith_eq_none hend]
      have henter : Nesting.outside.enter word.toPiece = .outerBlock :=
        Nesting.enter_of_opens (Piece.opens_of_isKeyword .block hword)
      have houtside : Nesting.outside.inOuterBlock = false := by decide
      simp only [hstart.ends, hcloses, henter, hend, startsHandlers, declaringAfter, houtside]
      simpa using hstart.cons.ends_body
    simp only [Except.map, map_some, bind_eq_bind, bind_some, Nat.zero_add, hends]
    obtain ⟨tail, hrest, htail⟩ := splitBody_eq .outerBlock false rest
    rcases hsplit : splitBody .outerBlock false rest with ⟨body, after | after | _⟩
    all_goals
      rw [hsplit] at hrest htail
      have hbody : At ts (before.length + 1) (body ++ tail) := hrest ▸ hstart.cons
    · obtain ⟨exception, _, rfl⟩ := htail
      obtain ⟨tail, hafter, htail⟩ := splitEnd_eq .outerBlock after
      have hhandlers := hbody.append.cons
      rw [hafter] at hhandlers
      rcases hend : splitEnd .outerBlock after with ⟨inner, _ | after'⟩
      all_goals
        rw [hend] at htail hhandlers
        simp [endsOf, hend, endOf]
      · obtain rfl := htail
        rw [List.append_nil] at hhandlers
        exact sections?_eq hts trivial hbody.slice (congrArg (Option.map some) hhandlers.slice_rest)
      · obtain ⟨closing, _, rfl⟩ := htail
        exact sections?_eq hts hhandlers.append.cons hbody.slice
          (congrArg (Option.map some) hhandlers.slice)
    · obtain ⟨closing, _, rfl⟩ := htail
      exact sections?_eq hts hbody.append.cons hbody.slice rfl
    · obtain rfl := htail
      rw [List.append_nil] at hbody
      exact sections?_eq hts trivial hbody.slice_rest rfl

end TriggerDialect.Positions
