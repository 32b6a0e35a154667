import TriggerDialect.Token.Basic

/-!
# Nesting

Statements, branches, sections and list items end at a token that stands outside every bracket
and every `BEGIN`, `IF`, `CASE` and `LOOP` opened since they started. The open constructs form a
stack, so that a bare `END` closes the innermost one, while `END IF`, `END LOOP` and `END CASE`
close the innermost of their own kind with all that is left open inside it.

All searches here cut a token list in two and lose nothing (`spanFrom_append`).
-/

namespace TriggerDialect

/-- The constructs that an `END` closes. -/
inductive Frame where
  | block
  | conditional
  | selection
  | iteration
deriving Repr, DecidableEq

/-- The open brackets and constructs, innermost first. -/
structure Nesting where
  brackets : Nat
  frames : List Frame
deriving Repr, DecidableEq

namespace Piece

/-- The construct that a reserved word opens. -/
def opens (p : Piece) : Option Frame :=
  if p.isKeyword "BEGIN" then some .block
  else if p.isKeyword "IF" then some .conditional
  else if p.isKeyword "CASE" then some .selection
  else if p.isKeyword "LOOP" then some .iteration
  else none

/-- The construct that a word closes when it directly follows `END`. -/
def closesAfterEnd (p : Piece) : Option Frame :=
  if p.isKeyword "IF" then some .conditional
  else if p.isKeyword "LOOP" then some .iteration
  else if p.isKeyword "CASE" then some .selection
  else none

/-- The construct that two neighbouring pieces close together. -/
def closesWith (p next : Piece) : Option Frame :=
  if p.isKeyword "END" then next.closesAfterEnd else none

variable {p next : Piece}

/-- Only `END` closes a frame. -/
theorem closesWith_eq_none (h : p.isKeyword "END" = false) : p.closesWith next = none := by
  simp [closesWith, h]

/-- `END` closes a frame only with a closing word. -/
theorem closesWith_eq_none_of_next (h : next.closesAfterEnd = none) : p.closesWith next = none := by
  simp [closesWith, h]

/-- What closes a frame is an `END`. -/
theorem end_of_closesWith {frame : Frame} (h : p.closesWith next = some frame) :
    p.isKeyword "END" := by
  cases hend : p.isKeyword "END" with
  | true => rfl
  | false => simp [closesWith_eq_none hend] at h

end Piece

namespace Nesting

/-- Nothing is open. -/
def outside : Nesting := ⟨0, []⟩

/-- Nothing but one block is open. -/
def outerBlock : Nesting := ⟨0, [.block]⟩

/-- Whether nothing is open. -/
def isOutside (n : Nesting) : Bool := n == outside

/-- Whether nothing but one block is open. -/
def inOuterBlock (n : Nesting) : Bool := n == outerBlock

/-- The number of open constructs of a kind. -/
def depthOf (n : Nesting) (frame : Frame) : Nat := n.frames.count frame

/-- Closes the innermost construct of a kind and all inside it; nothing if there is none. -/
def close (n : Nesting) (frame : Frame) : Nesting :=
  match n.frames.dropWhile (· != frame) with
  | [] => n
  | _ :: outer => { n with frames := outer }

/-- The nesting after a piece that closes nothing together with its right neighbour. -/
def enter (n : Nesting) (p : Piece) : Nesting :=
  if p.isPunct '(' then { n with brackets := n.brackets + 1 }
  else if p.isPunct ')' then { n with brackets := n.brackets - 1 }
  else match p.opens with
    | some frame => { n with frames := frame :: n.frames }
    | none => if p.isKeyword "END" then { n with frames := n.frames.tail } else n

/-- The nesting after each step over a token list, with the number of tokens of that step. -/
def trace (n : Nesting) : List Token → List (Nat × Nesting)
  | [] => []
  | [t] => [(1, n.enter t.toPiece)]
  | t :: u :: rest =>
    match t.closesWith u.toPiece with
    | some frame => (2, n.close frame) :: trace (n.close frame) rest
    | none => (1, n.enter t.toPiece) :: trace (n.enter t.toPiece) (u :: rest)

end Nesting

/-- Cuts before the first token at which nothing is open and `stop` holds. `stop` also sees the
token before, which is `none` at the start. The second part is empty when there is no such
token. -/
def spanFrom (stop : Option Piece → Piece → Bool) (n : Nesting) (previous : Option Piece) :
    List Token → List Token × List Token
  | [] => ([], [])
  | [t] => if n.isOutside && stop previous t.toPiece then ([], [t]) else ([t], [])
  | t :: u :: rest =>
    if n.isOutside && stop previous t.toPiece then ([], t :: u :: rest)
    else match t.closesWith u.toPiece with
      | some frame =>
        let later := spanFrom stop (n.close frame) (some u.toPiece) rest
        (t :: u :: later.1, later.2)
      | none =>
        let later := spanFrom stop (n.enter t.toPiece) (some t.toPiece) (u :: rest)
        (t :: later.1, later.2)

/-- Cuts before the first token outside all nesting at which `stop` holds. -/
def spanAtDepth (stop : Piece → Bool) (ts : List Token) : List Token × List Token :=
  spanFrom (fun _ p => stop p) .outside none ts

/-- Cuts before the first of the reserved words outside all nesting that stands where a statement
can start: at the very beginning or directly after a semicolon. -/
def spanClause (words : List String) (ts : List Token) : List Token × List Token :=
  spanFrom (fun previous p => previous.all (·.isPunct ';') && words.any p.isKeyword)
    .outside none ts

/-- The tokens before the closing bracket that leaves `depth` brackets closed, and those after
it. A closing bracket with none open ends the search in vain. -/
def throughClosing (depth : Nat) : List Token → Option (List Token × List Token)
  | [] => none
  | t :: rest =>
    if t.isPunct '(' then
      (throughClosing (depth + 1) rest).map fun cut => (t :: cut.1, cut.2)
    else if t.isPunct ')' then
      match depth with
      | 0 => none
      | 1 => some ([], rest)
      | depth + 2 => (throughClosing (depth + 1) rest).map fun cut => (t :: cut.1, cut.2)
    else (throughClosing depth rest).map fun cut => (t :: cut.1, cut.2)

/-- What stands between the bracket that opens the list and its partner, and what follows. -/
def bracketGroup : List Token → Option (List Token × List Token)
  | [] => none
  | t :: rest => if t.isPunct '(' then throughClosing 1 rest else none

/-- A cut loses nothing. -/
theorem spanFrom_append (stop : Option Piece → Piece → Bool) (n : Nesting)
    (previous : Option Piece) (ts : List Token) :
    (spanFrom stop n previous ts).1 ++ (spanFrom stop n previous ts).2 = ts := by
  fun_induction spanFrom stop n previous ts with
  | case1 => rfl
  | case2 => rfl
  | case3 => rfl
  | case4 => rfl
  | case5 n previous t u rest _ frame _ later ih => simpa [later] using ih
  | case6 n previous t u rest _ _ later ih => simpa [later] using ih

/-- A cut outside all nesting loses nothing. -/
theorem spanAtDepth_append (stop : Piece → Bool) (ts : List Token) :
    (spanAtDepth stop ts).1 ++ (spanAtDepth stop ts).2 = ts :=
  spanFrom_append _ _ _ ts

section Cuts

variable {stop : Option Piece → Piece → Bool} {n : Nesting} {previous : Option Piece}
  {ts front inner mid rest : List Token} {t : Token}

/-- The parts of a cut are the tokens. -/
theorem eq_of_spanFrom (h : spanFrom stop n previous ts = (front, rest)) : ts = front ++ rest := by
  have hwhole := spanFrom_append stop n previous ts
  rw [h] at hwhole
  exact hwhole.symm

/-- A closing bracket stands after the inner tokens. -/
theorem throughClosing_eq {depth : Nat} (h : throughClosing depth ts = some (inner, rest)) :
    ∃ closing, closing.isPunct ')' ∧ ts = inner ++ closing :: rest := by
  fun_induction throughClosing depth ts generalizing inner rest with
  | case1 => cases h
  | case3 => cases h
  | case4 t ts _ hclosing => cases h; exact ⟨t, hclosing, rfl⟩
  | case2 | case5 | case6 =>
    rename_i ih
    obtain ⟨cut, hcut, hpair⟩ := Option.map_eq_some_iff.1 h
    cases hpair
    obtain ⟨closing, hclosing, hts⟩ := ih hcut
    exact ⟨closing, hclosing, by rw [hts]; rfl⟩

/-- A group stands between its brackets. -/
theorem bracketGroup_eq (h : bracketGroup ts = some (inner, rest)) :
    ∃ opening closing, opening.isPunct '(' = true ∧ closing.isPunct ')' ∧
      ts = opening :: inner ++ closing :: rest := by
  cases ts with
  | nil => cases h
  | cons t ts =>
    simp only [bracketGroup] at h
    split at h
    · rename_i hopening
      obtain ⟨closing, hclosing, hts⟩ := throughClosing_eq h
      exact ⟨t, closing, hopening, hclosing, by rw [hts]; rfl⟩
    · cases h

/-- The brackets count too. -/
theorem bracketGroup_length (h : bracketGroup ts = some (inner, rest)) :
    inner.length + rest.length < ts.length := by
  obtain ⟨_, _, _, _, rfl⟩ := bracketGroup_eq h
  simp only [List.length_append, List.length_cons]
  omega

/-- What holds of a token list if it holds of all shorter ones holds of all. -/
theorem shorterInduction {motive : List Token → Prop}
    (shorter : ∀ ts, (∀ us : List Token, us.length < ts.length → motive us) → motive ts)
    (ts : List Token) : motive ts :=
  shorter ts fun us _ => shorterInduction shorter us
termination_by ts.length
decreasing_by assumption

/-- A run of the tokens behind the first one. -/
def Behind (inner ts : List Token) : Prop :=
  ∃ front t rest, ts = front ++ t :: rest ∧ inner <:+: rest

namespace Behind

/-- A run behind the first token is a run. -/
theorem isInfix (h : Behind inner ts) : inner <:+: ts := by
  obtain ⟨front, t, rest, rfl, hinner⟩ := h
  exact hinner.trans ⟨front ++ [t], [], by simp⟩

/-- A run behind the first token is shorter. -/
theorem length (h : Behind inner ts) : inner.length < ts.length := by
  obtain ⟨front, t, rest, rfl, hinner⟩ := h
  have := hinner.length_le
  simp only [List.length_append, List.length_cons]
  omega

/-- A run of a run behind the first token. -/
theorem of_isInfix (h : inner <:+: mid) (hmid : Behind mid ts) : Behind inner ts := by
  obtain ⟨front, t, rest, hts, hrest⟩ := hmid
  exact ⟨front, t, rest, hts, h.trans hrest⟩

/-- What follows the token of a cut is behind the first one. -/
theorem of_spanFrom (h : spanFrom stop n previous ts = (front, t :: rest)) : Behind rest ts :=
  ⟨front, t, rest, eq_of_spanFrom h, List.infix_rfl⟩

end Behind

/-- The first part of a cut is a run. -/
theorem isInfix_of_spanFrom (h : spanFrom stop n previous ts = (front, rest)) : front <:+: ts :=
  ⟨[], rest, (eq_of_spanFrom h).symm⟩

/-- Less is left after the token of a cut. -/
theorem spanAtDepth_rest_lt {stop : Piece → Bool} (h : spanAtDepth stop ts = (front, t :: rest)) :
    rest.length < ts.length :=
  (Behind.of_spanFrom h).length

/-- Less is left after the word of a clause. -/
theorem spanClause_rest_lt {words : List String} (h : spanClause words ts = (front, t :: rest)) :
    rest.length < ts.length :=
  (Behind.of_spanFrom h).length

end Cuts

/-- Less is left after a comma. -/
theorem afterComma_length {ts rest : List Token} {t : Token}
    (h : (spanAtDepth (·.isPunct ',') ts).2 = t :: rest) : rest.length < ts.length :=
  spanAtDepth_rest_lt (Prod.ext rfl h)

/-- The parts between the commas outside all nesting, where the nesting starts anew after each
comma. -/
def splitCommas (ts : List Token) : List (List Token) :=
  match h : (spanAtDepth (·.isPunct ',') ts).2 with
  | [] => [(spanAtDepth (·.isPunct ',') ts).1]
  | _ :: rest =>
    have : rest.length < ts.length := afterComma_length h
    (spanAtDepth (·.isPunct ',') ts).1 :: splitCommas rest
termination_by ts.length

/-- The parts as a recursion over cuts. -/
theorem splitCommas_eq (ts : List Token) :
    splitCommas ts = match spanAtDepth (·.isPunct ',') ts with
      | (part, []) => [part]
      | (part, _ :: rest) => part :: splitCommas rest := by
  rw [splitCommas]
  split
  · rename_i hrest
    generalize spanAtDepth (·.isPunct ',') ts = cut at hrest ⊢
    cases cut
    cases hrest
    rfl
  · rename_i comma rest hrest
    change (spanAtDepth (·.isPunct ',') ts).1 :: splitCommas rest = _
    generalize spanAtDepth (·.isPunct ',') ts = cut at hrest ⊢
    cases cut
    cases hrest
    rfl

/-- Every part is a run of the tokens. -/
theorem isInfix_of_mem_splitCommas {ts part : List Token} (h : part ∈ splitCommas ts) :
    part <:+: ts := by
  fun_induction splitCommas ts with
  | case1 ts _ =>
    rw [List.mem_singleton.1 h]
    exact ⟨[], _, spanAtDepth_append _ ts⟩
  | case2 ts comma rest hrest hlt ih =>
    have hwhole := spanAtDepth_append (·.isPunct ',') ts
    rw [hrest] at hwhole
    rcases List.mem_cons.1 h with rfl | h
    · exact ⟨[], _, hwhole⟩
    · exact (ih h).trans ⟨_ ++ [comma], [], by simpa using hwhole⟩

end TriggerDialect
