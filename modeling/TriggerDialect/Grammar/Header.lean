import TriggerDialect.Diagnostic
import TriggerDialect.Grammar.Names
import TriggerDialect.Tree.Header

/-!
# Reading trigger headers

    CREATE [OR REPLACE] [EDITIONABLE | NONEDITIONABLE] TRIGGER name
      (BEFORE | AFTER | INSTEAD OF) event (OR event)* ON table option*

The options come in any order and number, and of two that say the same the later one counts. The
header ends before `DECLARE` or `BEGIN`. One that cannot be read is skipped with a warning.
-/

namespace TriggerDialect.Grammar

variable {ts rest : List Token} {header header' : Header}

/-- The rows that `REFERENCING` can name. -/
inductive RowName where
  | new
  | old
  | parent
deriving Repr, DecidableEq

/-- What the reading of a header leaves. -/
structure HeaderReading where
  header : Option Header
  /-- The tokens of the block. -/
  body : List Token
  notes : List Diagnostic
deriving Repr, DecidableEq

/-- The timing of a trigger. -/
def timing (ts : List Token) : Reading Timing :=
  match ts with
  | [] => .error ⟨"expected BEFORE, AFTER or INSTEAD OF", []⟩
  | t :: rest =>
    if t.isWord "BEFORE" then .ok (.before, rest)
    else if t.isWord "AFTER" then .ok (.after, rest)
    else if t.isWord "INSTEAD" then (expectWord "OF" rest).map fun rest => (.insteadOf, rest)
    else if t.isWord "FOR" then .error ⟨"compound triggers are not supported", t :: rest⟩
    else .error ⟨"expected BEFORE, AFTER or INSTEAD OF", t :: rest⟩

/-- The columns after `UPDATE`, if `OF` follows. -/
def updateColumns (ts : List Token) : Reading (List String) :=
  match eatWord? "OF" ts with
  | none => .ok ([], ts)
  | some rest =>
    match name rest with
    | .error stuck => .error stuck
    | .ok (first, rest) => (moreNames rest).map fun (later, rest) => (first :: later, rest)

/-- One event. -/
def event (ts : List Token) : Reading Event :=
  match ts with
  | [] => .error ⟨"expected INSERT, UPDATE or DELETE", []⟩
  | t :: rest =>
    if t.isWord "INSERT" then .ok (⟨.insert, []⟩, rest)
    else if t.isWord "UPDATE" then
      (updateColumns rest).map fun (columns, rest) => (⟨.update, columns⟩, rest)
    else if t.isWord "DELETE" then .ok (⟨.delete, []⟩, rest)
    else .error ⟨"expected INSERT, UPDATE or DELETE", t :: rest⟩

/-- Columns leave no more than was there. -/
theorem updateColumns_length {columns : List String} (h : updateColumns ts = .ok (columns, rest)) :
    rest.length ≤ ts.length := by
  unfold updateColumns at h
  split at h
  · cases h; exact Nat.le_refl _
  · rename_i left hof
    split at h
    · cases h
    · rename_i first left' hname
      cases hmore : moreNames left' with
      | error stuck => rw [hmore] at h; cases h
      | ok found =>
        rw [hmore] at h
        cases h
        have := eatWord?_length hof
        have := name_length hname
        have := moreNames_length hmore
        omega

/-- An event is gone after it is read. -/
theorem event_length {e : Event} (h : event ts = .ok (e, rest)) : rest.length < ts.length := by
  cases ts with
  | nil => cases h
  | cons t ts =>
    simp only [event] at h
    split at h
    · cases h; simp
    · split at h
      · cases hcolumns : updateColumns ts with
        | error stuck => rw [hcolumns] at h; cases h
        | ok found =>
          rw [hcolumns] at h
          cases h
          have := updateColumns_length hcolumns
          simp only [List.length_cons]
          omega
      · split at h
        · cases h; simp
        · cases h

/-- Events with `OR` between them. -/
def events (ts : List Token) : Reading (List Event) :=
  match hevent : event ts with
  | .error stuck => .error stuck
  | .ok (first, rest) =>
    match hor : eatWord? "OR" rest with
    | none => .ok ([first], rest)
    | some rest' =>
      have : rest'.length < ts.length := Nat.lt_trans (eatWord?_length hor) (event_length hevent)
      (events rest').map fun (later, rest) => (first :: later, rest)
termination_by ts.length

/-- The row that a word names. -/
def rowName? : List Token → Option (RowName × List Token)
  | [] => none
  | t :: rest =>
    if t.isWord "NEW" then some (.new, rest)
    else if t.isWord "OLD" then some (.old, rest)
    else if t.isWord "PARENT" then some (.parent, rest)
    else none

/-- The header with a name for one of its rows. -/
def withAlias (header : Header) (row : RowName) (chosen : String) : Header :=
  match row with
  | .new => { header with newAlias := some chosen }
  | .old => { header with oldAlias := some chosen }
  | .parent => header

/-- The tokens after an optional `AS`. -/
def skipAs (ts : List Token) : List Token := (eatWord? "AS" ts).getD ts

/-- The name of a row is gone after it is read. -/
theorem rowName?_length {row : RowName} (h : rowName? ts = some (row, rest)) :
    rest.length < ts.length := by
  cases ts with
  | nil => cases h
  | cons t ts =>
    simp only [rowName?] at h
    repeat' split at h
    all_goals cases h
    all_goals simp

/-- An `AS` leaves no more than was there. -/
theorem skipAs_length (ts : List Token) : (skipAs ts).length ≤ ts.length := by
  unfold skipAs
  cases h : eatWord? "AS" ts with
  | none => exact Nat.le_refl _
  | some rest => exact Nat.le_of_lt (eatWord?_length h)

/-- The names of rows, as many as follow. -/
def aliases (header : Header) (ts : List Token) : Reading Header :=
  match hrow : rowName? ts with
  | none => .ok (header, ts)
  | some (row, rest) =>
    match hname : name (skipAs rest) with
    | .error stuck => .error stuck
    | .ok (chosen, rest') =>
      have : rest'.length < ts.length :=
        Nat.lt_trans (Nat.lt_of_lt_of_le (name_length hname) (skipAs_length rest))
          (rowName?_length hrow)
      aliases (withAlias header row chosen) rest'
termination_by ts.length

/-- Aliases leave no more than was there. -/
theorem aliases_length (h : aliases header ts = .ok (header', rest)) : rest.length ≤ ts.length := by
  fun_induction aliases header ts with
  | case1 => cases h; exact Nat.le_refl _
  | case2 => cases h
  | case3 header ts row left hrow chosen left' hname hlt ih =>
    have := ih h
    omega

/-- The rest of `REFERENCING`, which names at least one row. -/
def referencing (header : Header) (ts : List Token) : Reading Header :=
  if (rowName? ts).isSome then aliases header ts
  else .error ⟨"REFERENCING without NEW, OLD or PARENT", ts⟩

/-- The rest of `FOR EACH ROW`. -/
def eachRow (header : Header) (ts : List Token) : Reading Header :=
  match expectWord "EACH" ts with
  | .error stuck => .error stuck
  | .ok rest => (expectWord "ROW" rest).map fun rest => ({ header with forEachRow := true }, rest)

/-- Qualified names with commas between them, which are passed over. -/
def skipNames (header : Header) (ts : List Token) : Reading Header :=
  match hname : qualifiedName ts with
  | .error stuck => .error stuck
  | .ok (_, rest) =>
    match hcomma : eatMark? ',' rest with
    | none => .ok (header, rest)
    | some rest' =>
      have : rest'.length < ts.length :=
        Nat.lt_trans (eatMark?_length hcomma) (qualifiedName_length hname)
      skipNames header rest'
termination_by ts.length

/-- The condition of `WHEN`, which stands in brackets. -/
def condition (header : Header) (ts : List Token) : Reading Header :=
  match ts with
  | [] => .error ⟨"WHEN condition must be parenthesized", []⟩
  | t :: rest =>
    if t.isPunct '(' then
      match bracketGroup (t :: rest) with
      | none => .error ⟨"unclosed WHEN condition", t :: rest⟩
      | some (inner, after) =>
        .ok ({ header with condition := some (Fragment.ofTokens inner) }, after)
    else .error ⟨"WHEN condition must be parenthesized", t :: rest⟩

/-- `REFERENCING` leaves no more than was there. -/
theorem referencing_length (h : referencing header ts = .ok (header', rest)) :
    rest.length ≤ ts.length := by
  unfold referencing at h
  split at h
  · exact aliases_length h
  · cases h

/-- `FOR EACH ROW` leaves no more than was there. -/
theorem eachRow_length (h : eachRow header ts = .ok (header', rest)) : rest.length ≤ ts.length := by
  unfold eachRow at h
  split at h
  · cases h
  · rename_i left heach
    cases hrow : expectWord "ROW" left with
    | error stuck => rw [hrow] at h; cases h
    | ok found =>
      rw [hrow] at h
      cases h
      have := expectWord_length heach
      have := expectWord_length hrow
      omega

/-- Skipped names leave no more than was there. -/
theorem skipNames_length (h : skipNames header ts = .ok (header', rest)) :
    rest.length ≤ ts.length := by
  fun_induction skipNames header ts with
  | case1 => cases h
  | case2 ts text left hname hcomma =>
    cases h
    exact Nat.le_of_lt (qualifiedName_length hname)
  | case3 ts text left hname left' hcomma hlt ih =>
    have := ih h
    omega

/-- A condition leaves no more than was there. -/
theorem condition_length (h : condition header ts = .ok (header', rest)) :
    rest.length ≤ ts.length := by
  unfold condition at h
  split at h
  · cases h
  · split at h
    · split at h
      · cases h
      · rename_i inner after hgroup
        cases h
        have := bracketGroup_length hgroup
        omega
    · cases h

/-- The reader of the option that a word starts, if it starts one. -/
def optionReader? (t : Token) : Option (Header → List Token → Reading Header) :=
  if t.isWord "REFERENCING" then some referencing
  else if t.isWord "FOR" then some eachRow
  else if t.isWord "FOLLOWS" || t.isWord "PRECEDES" then some skipNames
  else if t.isWord "ENABLE" || t.isWord "DISABLE" then some fun header ts => .ok (header, ts)
  else if t.isWord "WHEN" then some condition
  else none

/-- No option leaves more than was there. -/
theorem optionReader?_length {t : Token} {reader : Header → List Token → Reading Header}
    (hreader : optionReader? t = some reader) (h : reader header ts = .ok (header', rest)) :
    rest.length ≤ ts.length := by
  unfold optionReader? at hreader
  repeat' split at hreader
  all_goals cases hreader
  · exact referencing_length h
  · exact eachRow_length h
  · exact skipNames_length h
  · cases h; exact Nat.le_refl _
  · exact condition_length h

/-- The options up to the block. -/
def options (header : Header) (ts : List Token) : Reading Header :=
  match ts with
  | [] => .error ⟨"no DECLARE or BEGIN after the header", []⟩
  | t :: rest =>
    match hreader : optionReader? t with
    | some reader =>
      match hread : reader header rest with
      | .error stuck => .error stuck
      | .ok (header', rest') =>
        have : rest'.length < (t :: rest).length :=
          Nat.lt_succ_of_le (optionReader?_length hreader hread)
        options header' rest'
    | none =>
      if t.isWord "DECLARE" || t.isWord "BEGIN" then .ok (header, t :: rest)
      else .error ⟨s!"unexpected '{t.text}'", t :: rest⟩
termination_by ts.length
decreasing_by
  all_goals
    simp only [List.length_cons] at *
    omega

/-- An optional `OR REPLACE`. -/
def orReplace (ts : List Token) : Reading Bool :=
  match eatWord? "OR" ts with
  | none => .ok (false, ts)
  | some rest => (expectWord "REPLACE" rest).map fun rest => (true, rest)

/-- The tokens after an optional `EDITIONABLE` or `NONEDITIONABLE`. -/
def skipEdition (ts : List Token) : List Token :=
  match eatWord? "EDITIONABLE" ts with
  | some rest => rest
  | none => (eatWord? "NONEDITIONABLE" ts).getD ts

/-- A whole header. -/
def triggerHeader (ts : List Token) : Except Stuck (Header × List Token) := do
  let rest ← expectWord "CREATE" ts
  let (orReplace, rest) ← orReplace rest
  let rest ← expectWord "TRIGGER" (skipEdition rest)
  let (name, rest) ← qualifiedName rest
  let (timing, rest) ← timing rest
  let (events, rest) ← events rest
  let rest ← expectWord "ON" rest
  let (table, rest) ← qualifiedName rest
  let header : Header :=
    { name, orReplace, timing, events, table, forEachRow := false, newAlias := none,
      oldAlias := none, condition := none }
  options header rest

/-- The byte offset at which `rest` starts; at its end, the end of the last token of `ts`. -/
def offsetOf (ts rest : List Token) : Nat :=
  match rest with
  | t :: _ => t.offset
  | [] =>
    match ts.getLast? with
    | none => 0
    | some t => t.offset + Text.byteLength t.text.toList

/-- Whether a block starts at this token. -/
def startsBlock (t : Token) : Bool := t.isKeyword "DECLARE" || t.isKeyword "BEGIN"

/-- The header, if the tokens start with one, and the tokens of the block. -/
def readHeader (ts : List Token) : HeaderReading :=
  match ts with
  | [] => ⟨none, [], []⟩
  | t :: rest =>
    if t.isKeyword "CREATE" then
      match triggerHeader (t :: rest) with
      | .ok (header, body) => ⟨some header, body, []⟩
      | .error stuck =>
        ⟨none, (t :: rest).dropWhile fun t => !startsBlock t,
          [.warning .header (some (offsetOf (t :: rest) stuck.rest))
            s!"trigger header skipped: {stuck.reason}"]⟩
    else ⟨none, t :: rest, []⟩

end TriggerDialect.Grammar
