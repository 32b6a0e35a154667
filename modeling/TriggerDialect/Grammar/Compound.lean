import TriggerDialect.Grammar.Declarations
import TriggerDialect.Grammar.Handlers
import TriggerDialect.Grammar.Sections
import TriggerDialect.Grammar.Simple

/-!
# Recognising statements

`recognise` finds the form of one statement and cuts out its inner statement lists as slices of
tokens, which it does not read.
-/

namespace TriggerDialect.Grammar

open Fragment

variable {condition : Fragment} {what : String} {ts : List Token}

/-- The form of a statement with its inner lists as slices. -/
structure Recognised where
  form : Form Slice
  /-- What to report after the inner lists. -/
  after : List Diagnostic
deriving Repr, DecidableEq

/-- Inner lists that come with nothing to report. -/
def quiet (form : Form (List Token)) : Recognised := ⟨form.map (⟨·, []⟩), []⟩

/-- The tokens before a final `END word [label]`. -/
def stripEnd (word : String) (ts : List Token) : Option (List Token) :=
  match ts.reverse with
  | last :: before :: front =>
    if before.isKeyword "END" && last.isKeyword word then some front.reverse
    else match front with
      | first :: front =>
        if first.isKeyword "END" && before.isKeyword word && last.isIdentifier then
          some front.reverse
        else none
      | [] => none
  | _ => none

/-- A condition up to `THEN`, and what follows. -/
def conditionThen (what : String) (ts : List Token) : Except String (Fragment × List Token) :=
  match spanAtDepth (·.isKeyword "THEN") ts with
  | (_, []) => .error s!"{what} without THEN"
  | (condition, _ :: rest) =>
    if condition.isEmpty then .error s!"{what} without a condition"
    else .ok (ofTokens condition, rest)

/-- A condition ends at the first `THEN` outside all nesting. -/
theorem conditionThen_cut {rest : List Token} (h : conditionThen what ts = .ok (condition, rest)) :
    ∃ front word, spanAtDepth (·.isKeyword "THEN") ts = (front, word :: rest) ∧
      condition = ofTokens front := by
  unfold conditionThen at h
  split at h
  · cases h
  · rename_i front word rest' hspan
    split at h
    · cases h
    · cases h
      exact ⟨front, word, hspan, rfl⟩

/-- Less is left after `THEN`. -/
theorem conditionThen_length {rest : List Token} (h : conditionThen what ts = .ok (condition, rest))
    : rest.length < ts.length := by
  obtain ⟨_, _, hspan, _⟩ := conditionThen_cut h
  exact spanAtDepth_rest_lt hspan

/-! ### `IF` -/

/-- The branches of `IF` from the first `THEN` on. -/
structure Branches where
  first : List Token
  others : List (Arm (List Token))
  otherwise : Option (List Token)
deriving Repr, DecidableEq

/-- The rest of `IF` after the final `ELSE`. -/
def lastBranch (first ts : List Token) : Except String Branches :=
  match spanClause ["ELSIF", "ELSE"] ts with
  | (body, []) => .ok ⟨first, [], some body⟩
  | (_, _ :: _) => .error "ELSE must be the last IF branch"

/-- The branches after `THEN`. -/
def branches (ts : List Token) : Except String Branches :=
  match hspan : spanClause ["ELSIF", "ELSE"] ts with
  | (body, []) => .ok ⟨body, [], none⟩
  | (body, word :: rest) =>
    if word.isKeyword "ELSIF" then
      match hthen : conditionThen "ELSIF" rest with
      | .error reason => .error reason
      | .ok (condition, rest') =>
        have : rest'.length < ts.length :=
          Nat.lt_trans (conditionThen_length hthen) (spanClause_rest_lt hspan)
        (branches rest').map fun later =>
          ⟨body, ⟨condition, later.first⟩ :: later.others, later.otherwise⟩
    else lastBranch body rest
termination_by ts.length

/-- The inner lists of the branches. -/
def Branches.bodies (b : Branches) : List (List Token) :=
  b.first :: b.others.map Arm.body ++ b.otherwise.toList

/-- The rest of `IF`. -/
def conditional (ts : List Token) : Except String (Form (List Token)) :=
  match stripEnd "IF" ts with
  | none => .error "IF without END IF"
  | some inner =>
    match conditionThen "IF" inner with
    | .error reason => .error reason
    | .ok (condition, rest) =>
      (branches rest).map fun b => .conditional ⟨condition, b.first⟩ b.others b.otherwise

/-! ### `CASE` -/

/-- The arms of `CASE`. -/
structure Arms where
  arms : List (Arm (List Token))
  otherwise : Option (List Token)
deriving Repr, DecidableEq

/-- The rest of `CASE` after the final `ELSE`. -/
def lastArm (ts : List Token) : Except String (Option (List Token)) :=
  match spanClause ["WHEN", "ELSE"] ts with
  | (body, []) => .ok (some body)
  | (_, _ :: _) => .error "ELSE must be the last CASE branch"

/-- The arms after `WHEN`. -/
def arms (ts : List Token) : Except String Arms :=
  match hthen : conditionThen "WHEN" ts with
  | .error reason => .error reason
  | .ok (condition, rest) =>
    match hspan : spanClause ["WHEN", "ELSE"] rest with
    | (body, []) => .ok ⟨[⟨condition, body⟩], none⟩
    | (body, word :: rest') =>
      if word.isKeyword "ELSE" then
        (lastArm rest').map fun otherwise => ⟨[⟨condition, body⟩], otherwise⟩
      else
        have : rest'.length < ts.length :=
          Nat.lt_trans (spanClause_rest_lt hspan) (conditionThen_length hthen)
        (arms rest').map fun later => ⟨⟨condition, body⟩ :: later.arms, later.otherwise⟩
termination_by ts.length

/-- The inner lists of the arms. -/
def Arms.bodies (a : Arms) : List (List Token) := a.arms.map Arm.body ++ a.otherwise.toList

/-- The rest of `CASE`. -/
def selection (ts : List Token) : Except String (Form (List Token)) :=
  match stripEnd "CASE" ts with
  | none => .error "CASE without END CASE"
  | some inner =>
    match spanAtDepth (·.isKeyword "WHEN") inner with
    | (_, []) => .error "CASE without WHEN"
    | (front, _ :: rest) =>
      let selector := if front.isEmpty then none else some (ofTokens front)
      (arms rest).map fun a => .selection selector a.arms a.otherwise

/-! ### Loops -/

/-- What stands before `LOOP`, and the body up to `END LOOP`. -/
def loopParts (what : String) (ts : List Token) : Except String (List Token × List Token) :=
  match stripEnd "LOOP" ts with
  | none => .error s!"{what} without END LOOP"
  | some inner =>
    match spanAtDepth (·.isKeyword "LOOP") inner with
    | (_, []) => .error s!"{what} without LOOP"
    | (head, _ :: body) => .ok (head, body)

/-- Whether a range counts down. -/
def isReverse : List Token → Bool
  | [] => false
  | t :: _ => t.isKeyword "REVERSE"

/-- The lower bound of a range, less `REVERSE`. -/
def lowerBound (front : List Token) : List Token :=
  if isReverse front then front.drop 1 else front

/-- The query of a loop, less the brackets around all of it. -/
def loopQuery (head : List Token) : Fragment :=
  match bracketGroup head with
  | some (inner, []) => ofTokens inner
  | _ => ofTokens head

/-- A loop over a range or a query. -/
def loopOver (name : String) (head body : List Token) : Except String (Form (List Token)) :=
  if head.isEmpty then .error "FOR without an iteration source"
  else match spanAtDepth (·.isOp "..") head with
    | (front, _ :: upper) =>
      if (lowerBound front).isEmpty || upper.isEmpty then .error "FOR range needs both bounds"
      else .ok (.rangeLoop name (isReverse front) (ofTokens (lowerBound front))
        (ofTokens upper) body)
    | (_, []) => .ok (.queryLoop name (loopQuery head) body)

/-- The rest of `FOR` after the name and `IN`. -/
def countedLoop (name : String) (ts : List Token) : Except String (Form (List Token)) :=
  match loopParts "FOR" ts with
  | .error reason => .error reason
  | .ok (head, body) => loopOver name head body

/-- The rest of `FOR` after the name. -/
def countedIn (name : String) (ts : List Token) : Except String (Form (List Token)) :=
  match ts with
  | [] => .error "FOR without IN"
  | t :: rest => if t.isKeyword "IN" then countedLoop name rest else .error "FOR without IN"

/-- The rest of `FOR`. -/
def counted (ts : List Token) : Except String (Form (List Token)) :=
  match ts with
  | [] => .error "FOR without a loop variable"
  | t :: rest =>
    if t.isIdentifier then countedIn t.text rest else .error "FOR without a loop variable"

/-- The rest of `WHILE`. -/
def whileLoop (ts : List Token) : Except String (Form (List Token)) :=
  match loopParts "WHILE" ts with
  | .error reason => .error reason
  | .ok (head, body) =>
    if head.isEmpty then .error "WHILE without a condition"
    else .ok (.whileLoop (ofTokens head) body)

/-- The rest of a plain `LOOP`. -/
def endlessLoop (ts : List Token) : Except String (Form (List Token)) :=
  match stripEnd "LOOP" ts with
  | none => .error "LOOP without END LOOP"
  | some body => .ok (.endlessLoop body)

/-! ### Blocks -/

/-- The report on a fault that does not stop the reading of the block at `path`. -/
def structureNote (path : String) (fault : StructureFault) : Diagnostic :=
  .warningAt .sections (some fault.offset) path fault.message

/-- The handlers of a block. -/
def blockHandlers (path : String) : Option (List Token) → HandlerSection
  | none => .none
  | some ts => readHandlers path ts

/-- A block from its sections. -/
def blockOf (path : String) (sections : Sections) : Recognised :=
  let declared := sections.declarations.map readDeclarations
  let found := blockHandlers path sections.handlers
  let before := sections.warnings.map (structureNote path) ++ (declared.map Prod.snd).getD []
  { form := .block {
      declarations := declared.map Prod.fst
      body := ⟨sections.statements, before⟩
      handlers := found.handlers
      unparsed := found.unparsed }
    after := found.after }

/-- A block inside the body of another. -/
def block (path : String) (ts : List Token) : Except String Recognised :=
  match Sections.split ts with
  | .error fault => .error fault.message
  | .ok sections =>
    if sections.trailing.isEmpty then .ok (blockOf path sections)
    else .error "unexpected text after the block's END"

/-! ### All statements -/

/-- The form of the statement at `path` that `lead` announces; `t` is the word and `rest` what
follows it. -/
def recogniseLead (path : String) (lead : Lead) (t : Token) (rest : List Token) :
    Except String Recognised :=
  let whole := ofTokens (t :: rest)
  let simple (s : Simple) : Recognised := quiet (.simple s)
  match lead with
  | .conditional => (conditional rest).map quiet
  | .selection => (selection rest).map quiet
  | .counted => (counted rest).map quiet
  | .whileLoop => (whileLoop rest).map quiet
  | .endlessLoop => (endlessLoop rest).map quiet
  | .block => block path (t :: rest)
  | .select => .ok (simple (.select whole))
  | .insert => .ok (simple (.insert whole (insertTarget rest)))
  | .update => .ok (simple (.update whole))
  | .delete => .ok (simple (.delete whole))
  | .raise => (raised t.offset rest).map simple
  | .null =>
    if rest.isEmpty then .ok (simple .null) else (plainStatement (t :: rest)).map simple
  | .exitLoop => (exitStatement .exitLoop t.upper rest).map simple
  | .continueLoop => (exitStatement .continueLoop t.upper rest).map simple
  | .returnValue =>
    .ok (simple (.returnValue (if rest.isEmpty then none else some (ofTokens rest))))
  | .cursor action => (cursorAction action rest).map simple
  | .execute => (executeImmediate rest).map simple

/-- The form of the statement at `path`, or why it is kept as it stands. -/
def recognise (path : String) (ts : List Token) : Except String Recognised :=
  match ts with
  | [] => (plainStatement []).map fun s => quiet (.simple s)
  | t :: rest =>
    match leadOf t with
    | some lead => recogniseLead path lead t rest
    | none => (plainStatement (t :: rest)).map fun s => quiet (.simple s)

end TriggerDialect.Grammar
