import TriggerDialect.Nesting

/-!
# Sections of a block

A block is `[DECLARE] declarations BEGIN statements [EXCEPTION handlers] END [label] [;] [/]`. The
`END` that closes it and the `EXCEPTION` that starts its handlers stand directly inside the outer
`BEGIN`. A missing final `END` is tolerated.
-/

namespace TriggerDialect

/-- What can be wrong with the structure of a block. -/
inductive StructureCause where
  | missingBegin
  | declareAfterBegin
  | exceptionBeforeBegin
  | missingTerminalEnd
deriving Repr, DecidableEq

/-- A fault in the structure of a block and the byte offset at which it shows. -/
structure StructureFault where
  cause : StructureCause
  offset : Nat
deriving Repr, DecidableEq

namespace StructureFault

/-- The wording of the fault. -/
def message (fault : StructureFault) : String :=
  match fault.cause with
  | .missingBegin => "No BEGIN keyword found; a trigger body needs BEGIN ... END"
  | .declareAfterBegin => "DECLARE found after the block's BEGIN"
  | .exceptionBeforeBegin => "EXCEPTION section found before BEGIN"
  | .missingTerminalEnd => "No terminal END matches the outer BEGIN"

/-- Whether the block cannot be read at all. -/
def isFatal (fault : StructureFault) : Bool := fault.cause != .missingTerminalEnd

end StructureFault

/-- The parts of one block. -/
structure Sections where
  /-- Between `DECLARE` and `BEGIN`; absent when nothing stands before `BEGIN`. -/
  declarations : Option (List Token)
  /-- Between `BEGIN` and `EXCEPTION` or the final `END`. -/
  statements : List Token
  /-- Between `EXCEPTION` and the final `END`. -/
  handlers : Option (List Token)
  /-- The name after the final `END`. -/
  label : Option String
  /-- What is left after the block. -/
  trailing : List Token
  /-- Faults that do not stop the reading. -/
  warnings : List StructureFault
deriving Repr, DecidableEq

namespace Sections

/-- Cuts at the first `BEGIN`. An `EXCEPTION` before it must follow a name, as in a declaration. -/
def splitBegin (previous : Option Piece) :
    List Token → Except StructureFault (Option (List Token × List Token))
  | [] => .ok none
  | t :: rest =>
    if t.isKeyword "BEGIN" then .ok (some ([], rest))
    else if t.isKeyword "EXCEPTION" && !previous.any Piece.isIdentifier then
      .error ⟨.exceptionBeforeBegin, t.offset⟩
    else match splitBegin (some t.toPiece) rest with
      | .ok (some (before, after)) => .ok (some (t :: before, after))
      | other => other

/-- Where the statements of a block end. -/
inductive BodyEnd where
  /-- At `EXCEPTION`, before these tokens. -/
  | handlers (after : List Token)
  /-- At the final `END`, before these tokens. -/
  | closed (after : List Token)
  /-- At the end of the tokens. -/
  | unclosed
deriving Repr, DecidableEq

/-- Cuts before the `END` after which nothing is open. The second part is what follows that
`END`, if there is one. -/
def splitEnd (n : Nesting) : List Token → List Token × Option (List Token)
  | [] => ([], none)
  | [t] =>
    if (n.enter t.toPiece).isOutside && t.isKeyword "END" then ([], some []) else ([t], none)
  | t :: u :: rest =>
    match t.closesWith u.toPiece with
    | some frame =>
      if (n.close frame).isOutside then ([], some (u :: rest))
      else
        let later := splitEnd (n.close frame) rest
        (t :: u :: later.1, later.2)
    | none =>
      if (n.enter t.toPiece).isOutside && t.isKeyword "END" then ([], some (u :: rest))
      else
        let later := splitEnd (n.enter t.toPiece) (u :: rest)
        (t :: later.1, later.2)

/-- Whether a token directly inside the outer block is within the declarations of an inner one:
`DECLARE` starts them and `BEGIN` ends them. -/
def declaringAfter (n : Nesting) (declaring : Bool) (t : Token) : Bool :=
  if n.inOuterBlock then
    if t.isKeyword "DECLARE" then true
    else if t.isKeyword "BEGIN" then false
    else declaring
  else declaring

/-- Whether the handlers of the outer block start at this token. -/
def startsHandlers (n : Nesting) (declaring : Bool) (t : Token) : Bool :=
  n.inOuterBlock && !declaring && t.isKeyword "EXCEPTION"

/-- Cuts the statements of a block from its handlers or its end. -/
def splitBody (n : Nesting) (declaring : Bool) : List Token → List Token × BodyEnd
  | [] => ([], .unclosed)
  | [t] =>
    if startsHandlers n declaring t then ([], .handlers [])
    else if (n.enter t.toPiece).isOutside && t.isKeyword "END" then ([], .closed [])
    else ([t], .unclosed)
  | t :: u :: rest =>
    if startsHandlers n declaring t then ([], .handlers (u :: rest))
    else match t.closesWith u.toPiece with
      | some frame =>
        if (n.close frame).isOutside then ([], .closed (u :: rest))
        else
          let later := splitBody (n.close frame) (declaringAfter n declaring t) rest
          (t :: u :: later.1, later.2)
      | none =>
        if (n.enter t.toPiece).isOutside && t.isKeyword "END" then ([], .closed (u :: rest))
        else
          let later := splitBody (n.enter t.toPiece) (declaringAfter n declaring t) (u :: rest)
          (t :: later.1, later.2)

/-- The name after the final `END`, if there is one. -/
def takeLabel : List Token → Option String × List Token
  | [] => (none, [])
  | t :: rest => if t.isIdentifier then (some t.text, rest) else (none, t :: rest)

/-- Without a leading token that satisfies `p`. -/
def dropOne (p : Token → Bool) : List Token → List Token
  | [] => []
  | t :: rest => if p t then rest else t :: rest

/-- The declarations before `BEGIN`, less a leading `DECLARE`. -/
def declarationsOf : List Token → Option (List Token)
  | [] => none
  | t :: rest => if t.isKeyword "DECLARE" then some rest else some (t :: rest)

/-- The offset of the last token, zero when there is none. -/
def lastOffset (ts : List Token) : Nat := (ts.getLast?.map Token.offset).getD 0

/-- The offset of the first token, zero when there is none. -/
def firstOffset (ts : List Token) : Nat := (ts.head?.map Token.offset).getD 0

/-- Puts the parts together; `after` is what follows the final `END`, if there is one. -/
def assemble (ts before statements : List Token) (handlers after : Option (List Token)) :
    Except StructureFault Sections :=
  let (label, rest) := takeLabel (after.getD [])
  let trailing := dropOne (·.isOp "/") (dropOne (·.isPunct ';') rest)
  match trailing.find? (·.isKeyword "DECLARE") with
  | some t => .error ⟨.declareAfterBegin, t.offset⟩
  | none => .ok {
      declarations := declarationsOf before
      statements
      handlers
      label
      trailing
      warnings := if after.isSome then [] else [⟨.missingTerminalEnd, lastOffset ts⟩] }

/-- The sections of a block. -/
def split (ts : List Token) : Except StructureFault Sections :=
  match splitBegin none ts with
  | .error fault => .error fault
  | .ok none => .error ⟨.missingBegin, firstOffset ts⟩
  | .ok (some (before, rest)) =>
    match splitBody .outerBlock false rest with
    | (statements, .handlers after) =>
      let handlers := splitEnd .outerBlock after
      assemble ts before statements (some handlers.1) handlers.2
    | (statements, .closed after) => assemble ts before statements none (some after)
    | (statements, .unclosed) => assemble ts before statements none none

/-! ### Where the sections stand -/

variable {ts rest : List Token} {t : Token} {previous : Option Piece} {n : Nesting} {frame : Frame}
  {sections : Sections}

/-- The cut is at a `BEGIN`. -/
theorem splitBegin_eq {before after : List Token}
    (h : splitBegin previous ts = .ok (some (before, after))) :
    ∃ word : Token, word.isKeyword "BEGIN" ∧ ts = before ++ word :: after := by
  fun_induction splitBegin previous ts generalizing before with
  | case1 => cases h
  | case2 previous t rest hbegin => cases h; exact ⟨t, hbegin, rfl⟩
  | case3 => cases h
  | case4 previous t rest _ _ before' after' hrest ih =>
    cases h
    obtain ⟨word, hbegin, hword⟩ := ih hrest
    exact ⟨word, hbegin, by rw [hword]; rfl⟩
  | case5 previous t rest _ _ hrest => exact absurd h (hrest before after)

/-- The tokens are a reserved word and what follows it, or there are none. -/
def AfterWord (ts : List Token) : Option (List Token) → Prop
  | some after => ∃ word, word.kind = .keyword ∧ ts = word :: after
  | none => ts = []

/-- What follows the reserved word at which the statements end. -/
def BodyEnd.after? : BodyEnd → Option (List Token)
  | .handlers after => some after
  | .closed after => some after
  | .unclosed => none

/-- Only a reserved word closes a construct. -/
theorem kind_of_closesWith {t u : Piece} (h : t.closesWith u = some frame) : t.kind = .keyword :=
  Piece.kind_of_isKeyword (Piece.end_of_closesWith h)

/-- The `END` of a block is a reserved word. -/
theorem kind_of_final (h : (n.isOutside && t.isKeyword "END")) : t.kind = .keyword :=
  Piece.kind_of_isKeyword (Bool.and_eq_true _ _ ▸ h).2

/-- Handlers start at a reserved word. -/
theorem kind_of_startsHandlers {declaring : Bool} (h : startsHandlers n declaring t) :
    t.kind = .keyword :=
  Piece.kind_of_isKeyword (Bool.and_eq_true _ _ ▸ h).2

/-- The cut at `END` loses only that word. -/
theorem splitEnd_eq (n : Nesting) (ts : List Token) :
    ∃ tail, ts = (splitEnd n ts).1 ++ tail ∧ AfterWord tail (splitEnd n ts).2 := by
  fun_induction splitEnd n ts with
  | case1 => exact ⟨[], rfl, rfl⟩
  | case2 n t hend => exact ⟨[t], rfl, t, kind_of_final hend, rfl⟩
  | case3 n t _ => exact ⟨[], rfl, rfl⟩
  | case4 n t u rest frame hcloses _ => exact ⟨_, rfl, t, kind_of_closesWith hcloses, rfl⟩
  | case5 n t u rest frame _ _ later ih =>
    obtain ⟨tail, hrest, htail⟩ := ih
    exact ⟨tail, congrArg (t :: u :: ·) hrest, htail⟩
  | case6 n t u rest _ hend => exact ⟨_, rfl, t, kind_of_final hend, rfl⟩
  | case7 n t u rest _ _ later ih =>
    obtain ⟨tail, hrest, htail⟩ := ih
    exact ⟨tail, congrArg (t :: ·) hrest, htail⟩

/-- The cut at `EXCEPTION` or `END` loses only that word. -/
theorem splitBody_eq (n : Nesting) (declaring : Bool) (ts : List Token) :
    ∃ tail, ts = (splitBody n declaring ts).1 ++ tail ∧
      AfterWord tail (splitBody n declaring ts).2.after? := by
  fun_induction splitBody n declaring ts with
  | case1 => exact ⟨[], rfl, rfl⟩
  | case2 n declaring t hhandlers =>
    exact ⟨[t], rfl, t, kind_of_startsHandlers hhandlers, rfl⟩
  | case3 n declaring t _ hend => exact ⟨[t], rfl, t, kind_of_final hend, rfl⟩
  | case4 n declaring t _ _ => exact ⟨[], rfl, rfl⟩
  | case5 n declaring t u rest hhandlers =>
    exact ⟨_, rfl, t, kind_of_startsHandlers hhandlers, rfl⟩
  | case6 n declaring t u rest _ frame hcloses _ =>
    exact ⟨_, rfl, t, kind_of_closesWith hcloses, rfl⟩
  | case7 n declaring t u rest _ frame _ _ later ih =>
    obtain ⟨tail, hrest, htail⟩ := ih
    exact ⟨tail, congrArg (t :: u :: ·) hrest, htail⟩
  | case8 n declaring t u rest _ _ hend => exact ⟨_, rfl, t, kind_of_final hend, rfl⟩
  | case9 n declaring t u rest _ _ _ later ih =>
    obtain ⟨tail, hrest, htail⟩ := ih
    exact ⟨tail, congrArg (t :: ·) hrest, htail⟩

/-- Statements and handlers are put in as they are. -/
theorem assemble_eq {before statements : List Token} {handlers after : Option (List Token)}
    (h : assemble ts before statements handlers after = .ok sections) :
    sections.statements = statements ∧ sections.handlers = handlers := by
  unfold assemble at h
  split at h
  rename_i label rest _
  simp only at h
  split at h
  · cases h
  · cases h
    exact ⟨rfl, rfl⟩

/-- The statements and the handlers of a block are runs of its tokens behind `BEGIN`. -/
theorem split_behind (h : split ts = .ok sections) :
    Behind sections.statements ts ∧
      ∀ inner, sections.handlers = some inner → Behind inner ts := by
  unfold split at h
  split at h
  · cases h
  · cases h
  · rename_i before rest hbegin
    obtain ⟨word, _, hts⟩ := splitBegin_eq hbegin
    obtain ⟨tail, hrest, htail⟩ := splitBody_eq .outerBlock false rest
    split at h
    all_goals
      rename_i hsplit
      rw [hsplit] at hrest htail
      obtain ⟨hstatements, hhandlers⟩ := assemble_eq h
      rw [hstatements, hhandlers]
      refine ⟨⟨before, word, rest, hts, [], tail, hrest.symm⟩, ?_⟩
    · rename_i statements after
      rintro inner ⟨⟩
      obtain ⟨word', _, rfl⟩ := htail
      obtain ⟨closing, hafter, _⟩ := splitEnd_eq .outerBlock after
      refine ⟨before, word, rest, hts, statements ++ [word'], closing, ?_⟩
      rw [List.append_assoc, ← hafter, hrest, List.append_assoc]
      rfl
    · rintro inner ⟨⟩
    · rintro inner ⟨⟩

end Sections

end TriggerDialect
