import TriggerDialect.Proofs.Positions.Simple

/-!
# Headers, by position

The header of a trigger is read by a cursor: each reader starts at a position and leaves the
position after what it took. Main statement: no reader leaves the tokens, and the header comes out
as it does when lists are read (`readHeader?_eq`).
-/

namespace TriggerDialect.Positions

open Grammar

variable {α β : Type} {ts rest later : List Token} {i j : Nat}

/-! ### Readers one after another -/

/-- Goes on with what was read, from the position after it. -/
def andThen (found : Option (Placed α)) (next : α → Nat → Option (Placed β)) :
    Option (Placed β) := do
  match ← found with
  | .error stuck => some (.error stuck)
  | .ok (a, i) => next a i

/-- Goes on at `j`, which has to lie behind `i` and in range. -/
def onward (ts : List Token) (i j : Nat) (next : i < j ∧ j ≤ ts.length → Option (Placed α)) :
    Option (Placed α) :=
  if h : i < j ∧ j ≤ ts.length then next h else none

theorem andThen_ok (a : α) (i : Nat) (next : α → Nat → Option (Placed β)) :
    andThen (some (.ok (a, i))) next = next a i := rfl

namespace Agrees

variable {found other : Option (Placed α)} {read reading : Reading α}

theorem ok (a : α) (h : At ts i rest) : Agrees ts (some (.ok (a, i))) (.ok (a, rest)) :=
  .inr ⟨a, i, rest, rfl, rfl, h⟩

theorem error (reason : String) (h : At ts i rest) :
    Agrees ts (some (.error (reason, i))) (.error ⟨reason, rest⟩ : Reading α) :=
  .inl ⟨reason, i, rest, rfl, rfl, h⟩

theorem ite {c : Prop} [Decidable c] (hpos : Agrees ts found read)
    (hneg : Agrees ts other reading) :
    Agrees ts (if c then found else other) (if c then read else reading) := by
  by_cases hc : c
  · rwa [if_pos hc, if_pos hc]
  · rwa [if_neg hc, if_neg hc]

/-- Readers agree one after another, if both stop where the first one fails. -/
theorem andThen {next : α → Nat → Option (Placed β)} {joined : Reading β} (h : Agrees ts found read)
    (herror : ∀ stuck, read = .error stuck → joined = .error stuck)
    (hnext : ∀ a i rest, read = .ok (a, rest) → At ts i rest → Agrees ts (next a i) joined) :
    Agrees ts (Positions.andThen found next) joined := by
  obtain ⟨reason, i, rest, rfl, hread, hi⟩ | ⟨a, i, rest, rfl, hread, hi⟩ := h
  · rw [herror _ hread]
    exact .error reason hi
  · exact hnext a i rest hread hi

theorem bind {next : α → Nat → Option (Placed β)} {next' : α × List Token → Reading β}
    (h : Agrees ts found read)
    (hnext : ∀ a i rest, read = .ok (a, rest) → At ts i rest →
      Agrees ts (next a i) (next' (a, rest))) :
    Agrees ts (Positions.andThen found next) (read.bind next') := by
  refine h.andThen (fun _ hread => hread ▸ rfl) fun a i rest hread hi => ?_
  rw [hread]
  exact hnext a i rest hread hi

theorem map (f : α → β) (h : Agrees ts found read) :
    Agrees ts (Positions.andThen found fun a i => some (.ok (f a, i)))
      (read.map fun later => (f later.1, later.2)) := by
  obtain ⟨reason, i, rest, rfl, rfl, hi⟩ | ⟨a, i, rest, rfl, rfl, hi⟩ := h
  · exact .error reason hi
  · exact .ok (f a) hi

end Agrees

/-- Requires `word`, and gives `a` for it. -/
def expectWord? (word : String) (a : α) (ts : List Token) (i : Nat) : Option (Placed α) :=
  match ts[i]? with
  | none => some (.error (s!"expected {word}, found end of input", i))
  | some t =>
    if t.isWord word then some (.ok (a, i + 1))
    else some (.error (s!"expected {word}, found '{t.text}'", i))

theorem At.expectWord (h : At ts i rest) (word : String) (a : α) :
    Agrees ts (expectWord? word a ts i)
      ((Grammar.expectWord word rest).map fun rest => (a, rest)) := by
  cases rest with
  | nil =>
    rw [expectWord?, h.none_at_end]
    exact .error _ h
  | cons t rest =>
    simp only [expectWord?, h.head, Grammar.expectWord]
    by_cases ht : t.isWord word
    · simp only [ht, if_true]
      exact .ok a h.cons
    · simp only [ht]
      exact .error _ h

/-- A required word before the rest of a reading. -/
theorem At.expectWord_bind {next : Nat → Option (Placed β)} {next' : List Token → Reading β}
    (h : At ts i rest) (word : String)
    (hnext : ∀ i rest, At ts i rest → Agrees ts (next i) (next' rest)) :
    Agrees ts (andThen (expectWord? word () ts i) fun _ i => next i)
      ((Grammar.expectWord word rest).bind next') := by
  obtain ⟨reason, j, later, hfound, hread, hj⟩ | ⟨_, j, later, hfound, hread, hj⟩ :=
    h.expectWord word ()
  all_goals
    rw [hfound]
    cases hlist : Grammar.expectWord word rest <;> rw [hlist] at hread <;> cases hread
  · exact .error reason hj
  · exact hnext j later hj

/-! ### The parts of a header -/

/-- The timing of a trigger. -/
def timing? (ts : List Token) (i : Nat) : Option (Placed Timing) :=
  if holdsAt (·.isWord "BEFORE") ts i then some (.ok (.before, i + 1))
  else if holdsAt (·.isWord "AFTER") ts i then some (.ok (.after, i + 1))
  else if holdsAt (·.isWord "INSTEAD") ts i then expectWord? "OF" .insteadOf ts (i + 1)
  else if holdsAt (·.isWord "FOR") ts i then
    some (.error ("compound triggers are not supported", i))
  else some (.error ("expected BEFORE, AFTER or INSTEAD OF", i))

/-- Names after a first one, each after a comma. -/
def moreNames? (ts : List Token) (i : Nat) : Option (Placed (List String)) :=
  if holdsAt (·.isPunct ',') ts i then
    andThen (name? ts (i + 1)) fun name j => onward ts i j fun _ =>
      andThen (moreNames? ts j) fun names k => some (.ok (name :: names, k))
  else some (.ok ([], i))
termination_by ts.length - i
decreasing_by omega

/-- The columns after `UPDATE`, if `OF` follows. -/
def updateColumns? (ts : List Token) (i : Nat) : Option (Placed (List String)) :=
  if holdsAt (·.isWord "OF") ts i then
    andThen (name? ts (i + 1)) fun first j =>
      andThen (moreNames? ts j) fun later k => some (.ok (first :: later, k))
  else some (.ok ([], i))

/-- One event. -/
def event? (ts : List Token) (i : Nat) : Option (Placed Event) :=
  if holdsAt (·.isWord "INSERT") ts i then some (.ok (⟨.insert, []⟩, i + 1))
  else if holdsAt (·.isWord "UPDATE") ts i then
    andThen (updateColumns? ts (i + 1)) fun columns j => some (.ok (⟨.update, columns⟩, j))
  else if holdsAt (·.isWord "DELETE") ts i then some (.ok (⟨.delete, []⟩, i + 1))
  else some (.error ("expected INSERT, UPDATE or DELETE", i))

/-- Events with `OR` between them. -/
def events? (ts : List Token) (i : Nat) : Option (Placed (List Event)) :=
  andThen (event? ts i) fun first j =>
    if holdsAt (·.isWord "OR") ts j then onward ts i (j + 1) fun _ =>
      andThen (events? ts (j + 1)) fun later k => some (.ok (first :: later, k))
    else some (.ok ([first], j))
termination_by ts.length - i
decreasing_by omega

theorem At.timing (h : At ts i rest) : Agrees ts (timing? ts i) (Grammar.timing rest) := by
  cases rest with
  | nil =>
    simp only [timing?, h.holdsAt_end]
    exact .error _ h
  | cons t rest =>
    simp only [timing?, h.holdsAt, Grammar.timing]
    exact .ite (.ok _ h.cons) (.ite (.ok _ h.cons) (.ite (h.cons.expectWord "OF" _)
      (.ite (.error _ h) (.error _ h))))

theorem At.onward {found : Option (Placed α)} {read : Reading α} (h : At ts i rest)
    (hj : At ts j later) (hlt : later.length < rest.length) (hnext : Agrees ts found read) :
    Agrees ts (Positions.onward ts i j fun _ => found) read := by
  have hlength := h.length
  have hlater := hj.length
  rwa [Positions.onward, dif_pos ⟨by omega, hj.le⟩]

theorem moreNames_comma {comma : Token} (hcomma : comma.isPunct ',') (rest : List Token) :
    moreNames (comma :: rest) = (name rest).bind fun first =>
      (moreNames first.2).map fun later => (first.1 :: later.1, later.2) := by
  rcases rest with _ | ⟨t, rest⟩
  · simp [moreNames, hcomma, name, Except.bind]
  · by_cases ht : t.isIdentifier
    · simp only [moreNames, hcomma, name, ht, if_true, Except.bind]
      cases moreNames rest <;> rfl
    · simp [moreNames, hcomma, name, ht, Except.bind]

section

variable (h : At ts i rest) (header : Header)

include h

theorem At.moreNames : Agrees ts (moreNames? ts i) (Grammar.moreNames rest) := by
  induction rest using shorterInduction generalizing i with
  | shorter rest ih =>
    rw [moreNames?]
    cases rest with
    | nil =>
      rw [h.holdsAt_end]
      exact .ok _ h
    | cons t rest =>
      rw [h.holdsAt]
      by_cases ht : t.isPunct ','
      · rw [if_pos ht, moreNames_comma ht]
        refine h.cons.name.bind fun first j later hname hj => ?_
        have hlt := Nat.lt_succ_of_lt (name_length hname)
        exact h.onward hj hlt ((ih later hlt hj).map _)
      · rw [if_neg ht, Grammar.moreNames.eq_def]
        simp only [ht]
        exact .ok _ h

theorem At.updateColumns : Agrees ts (updateColumns? ts i) (Grammar.updateColumns rest) := by
  rw [updateColumns?, Grammar.updateColumns]
  obtain ⟨hof, hlist⟩ | ⟨later, hof, hlist, hlater⟩ := h.eatWord "OF"
  · rw [hof, hlist]
    exact .ok _ h
  · rw [hof, hlist, if_pos rfl]
    refine hlater.name.andThen (fun _ hread => by simp only [hread])
      fun first j rest hread hj => ?_
    simp only [hread]
    exact hj.moreNames.map _

theorem At.event : Agrees ts (event? ts i) (Grammar.event rest) := by
  cases rest with
  | nil =>
    simp only [event?, h.holdsAt_end]
    exact .error _ h
  | cons t rest =>
    simp only [event?, h.holdsAt, Grammar.event]
    exact .ite (.ok _ h.cons) (.ite (h.cons.updateColumns.map _) (.ite (.ok _ h.cons) (.error _ h)))

theorem At.events : Agrees ts (events? ts i) (Grammar.events rest) := by
  induction rest using shorterInduction generalizing i with
  | shorter rest ih =>
    rw [events?, events_eq]
    refine h.event.andThen (fun _ hread => by rw [hread]) fun first j later hread hj => ?_
    simp only [hread]
    obtain ⟨hor, hlist⟩ | ⟨after, hor, hlist, hafter⟩ := hj.eatWord "OR"
    · rw [hor, hlist]
      exact .ok _ hj
    · have hlt := Nat.lt_trans (eatWord?_length hlist) (event_length hread)
      rw [hor, hlist]
      exact h.onward hafter hlt ((ih after hlt hafter).map _)

/-! ### The options -/

/-- The row that the word at `i` names. -/
def rowNameAt (ts : List Token) (i : Nat) : Option RowName :=
  if holdsAt (·.isWord "NEW") ts i then some .new
  else if holdsAt (·.isWord "OLD") ts i then some .old
  else if holdsAt (·.isWord "PARENT") ts i then some .parent
  else none

/-- The names of rows, as many as follow. -/
def aliases? (header : Header) (ts : List Token) (i : Nat) : Option (Placed Header) :=
  match rowNameAt ts i with
  | none => some (.ok (header, i))
  | some row =>
    andThen (name? ts (skip (·.isWord "AS") ts (i + 1))) fun chosen j => onward ts i j fun _ =>
      aliases? (withAlias header row chosen) ts j
termination_by ts.length - i
decreasing_by omega

/-- The rest of `REFERENCING`, which names at least one row. -/
def referencing? (header : Header) (ts : List Token) (i : Nat) : Option (Placed Header) :=
  if (rowNameAt ts i).isSome then aliases? header ts i
  else some (.error ("REFERENCING without NEW, OLD or PARENT", i))

/-- The rest of `FOR EACH ROW`. -/
def eachRow? (header : Header) (ts : List Token) (i : Nat) : Option (Placed Header) :=
  andThen (expectWord? "EACH" () ts i) fun _ j =>
    expectWord? "ROW" { header with forEachRow := true } ts j

/-- Qualified names with commas between them, which are passed over. -/
def skipNames? (header : Header) (ts : List Token) (i : Nat) : Option (Placed Header) :=
  andThen (qualifiedName? ts i) fun _ j =>
    if holdsAt (·.isPunct ',') ts j then onward ts i (j + 1) fun _ => skipNames? header ts (j + 1)
    else some (.ok (header, j))
termination_by ts.length - i
decreasing_by omega

/-- The condition of `WHEN`, which stands in brackets. -/
def condition? (header : Header) (ts : List Token) (i : Nat) : Option (Placed Header) :=
  if holdsAt (·.isPunct '(') ts i then do
    match ← group? ts i with
    | none => some (.error ("unclosed WHEN condition", i))
    | some (inner, last) =>
      some (.ok ({ header with condition := some (Fragment.ofTokens inner) }, last + 1))
  else some (.error ("WHEN condition must be parenthesized", i))

/-- The reader of the option that a word starts, if it starts one. -/
def optionReaderAt (t : Token) : Option (Header → List Token → Nat → Option (Placed Header)) :=
  if t.isWord "REFERENCING" then some referencing?
  else if t.isWord "FOR" then some eachRow?
  else if t.isWord "FOLLOWS" || t.isWord "PRECEDES" then some skipNames?
  else if t.isWord "ENABLE" || t.isWord "DISABLE" then some fun header _ i => some (.ok (header, i))
  else if t.isWord "WHEN" then some condition?
  else none

/-- The options up to the block. -/
def options? (header : Header) (ts : List Token) (i : Nat) : Option (Placed Header) :=
  match ts[i]? with
  | none => some (.error ("no DECLARE or BEGIN after the header", i))
  | some t =>
    match optionReaderAt t with
    | some reader =>
      andThen (reader header ts (i + 1)) fun header j => onward ts i j fun _ => options? header ts j
    | none =>
      if t.isWord "DECLARE" || t.isWord "BEGIN" then some (.ok (header, i))
      else some (.error (s!"unexpected '{t.text}'", i))
termination_by ts.length - i
decreasing_by omega

theorem At.rowName : (rowNameAt ts i = none ∧ rowName? rest = none) ∨
    ∃ row later, rowNameAt ts i = some row ∧ rowName? rest = some (row, later) ∧
      At ts (i + 1) later := by
  cases rest with
  | nil => exact .inl ⟨by simp [rowNameAt, h.holdsAt_end], rfl⟩
  | cons t rest =>
    simp only [rowNameAt, h.holdsAt, rowName?]
    by_cases hnew : t.isWord "NEW"
    · exact .inr ⟨.new, rest, by simp [hnew], by simp [hnew], h.cons⟩
    by_cases hold : t.isWord "OLD"
    · exact .inr ⟨.old, rest, by simp [hnew, hold], by simp [hnew, hold], h.cons⟩
    by_cases hparent : t.isWord "PARENT"
    · exact .inr ⟨.parent, rest, by simp [hnew, hold, hparent], by simp [hnew, hold, hparent],
        h.cons⟩
    · exact .inl ⟨by simp [hnew, hold, hparent], by simp [hnew, hold, hparent]⟩

theorem At.skipAs : At ts (Positions.skip (·.isWord "AS") ts i) (Grammar.skipAs rest) := by
  obtain ⟨has, hlist⟩ | ⟨later, has, hlist, hlater⟩ := h.eatWord "AS"
  · rwa [Positions.skip, has, Grammar.skipAs, hlist]
  · rwa [Positions.skip, has, Grammar.skipAs, hlist]

theorem At.aliases : Agrees ts (aliases? header ts i) (Grammar.aliases header rest) := by
  induction rest using shorterInduction generalizing i header with
  | shorter rest ih =>
    rw [aliases?, aliases_eq]
    obtain ⟨hat, hlist⟩ | ⟨row, later, hat, hlist, hlater⟩ := h.rowName
    · simp only [hat, hlist]
      exact .ok _ h
    · simp only [hat, hlist]
      refine hlater.skipAs.name.andThen (fun _ hread => by rw [hread])
        fun chosen j after hread hj => ?_
      simp only [hread]
      have hlt : after.length < rest.length :=
        Nat.lt_trans (Nat.lt_of_lt_of_le (name_length hread) (skipAs_length later))
          (rowName?_length hlist)
      exact h.onward hj hlt (ih after hlt hj _)

theorem At.referencing :
    Agrees ts (referencing? header ts i) (Grammar.referencing header rest) := by
  rw [referencing?, Grammar.referencing]
  obtain ⟨hat, hlist⟩ | ⟨row, later, hat, hlist, _⟩ := h.rowName
  · rw [hat, hlist]
    exact .error _ h
  · rw [hat, hlist]
    exact h.aliases header

theorem At.eachRow : Agrees ts (eachRow? header ts i) (Grammar.eachRow header rest) := by
  have hbind : Grammar.eachRow header rest = (Grammar.expectWord "EACH" rest).bind fun rest =>
      (Grammar.expectWord "ROW" rest).map fun rest =>
        ({ header with forEachRow := true }, rest) := by
    rw [Grammar.eachRow]
    cases Grammar.expectWord "EACH" rest <;> rfl
  rw [hbind]
  exact h.expectWord_bind "EACH" fun j later hj => hj.expectWord "ROW" _

theorem At.eatMark (mark : Char) :
    (Positions.holdsAt (·.isPunct mark) ts i = false ∧ eatMark? mark rest = none) ∨
    ∃ later, Positions.holdsAt (·.isPunct mark) ts i ∧ eatMark? mark rest = some later ∧
      At ts (i + 1) later :=
  h.eat (·.isPunct mark) rfl fun _ _ => rfl

theorem At.skipNames : Agrees ts (skipNames? header ts i) (Grammar.skipNames header rest) := by
  induction rest using shorterInduction generalizing i with
  | shorter rest ih =>
    rw [skipNames?, skipNames_eq]
    refine h.qualifiedName.andThen (fun _ hread => by rw [hread]) fun _ j later hread hj => ?_
    simp only [hread]
    obtain ⟨hmark, hlist⟩ | ⟨after, hmark, hlist, hafter⟩ := hj.eatMark ','
    · rw [hmark, hlist]
      exact .ok _ hj
    · have hlt := Nat.lt_trans (eatMark?_length hlist) (qualifiedName_length hread)
      rw [hmark, hlist]
      exact h.onward hafter hlt (ih after hlt hafter)

theorem At.condition : Agrees ts (condition? header ts i) (Grammar.condition header rest) := by
  rw [condition?, Grammar.condition.eq_def]
  cases rest with
  | nil =>
    rw [h.holdsAt_end]
    exact .error _ h
  | cons t rest =>
    simp only [h.holdsAt]
    refine .ite ?_ (.error _ h)
    obtain ⟨hgroup, hlist⟩ | ⟨inner, j, later, hgroup, hlist, hj⟩ := h.group
    · rw [hgroup, hlist]
      exact .error _ h
    · rw [hgroup, hlist]
      exact .ok _ hj

end

/-- The readers of an option agree. -/
theorem optionReaderAt_cases (t : Token) :
    (optionReaderAt t = none ∧ optionReader? t = none) ∨
    ∃ reader reader', optionReaderAt t = some reader ∧ optionReader? t = some reader' ∧
      ∀ {ts rest : List Token} {i : Nat}, At ts i rest → ∀ header,
        Agrees ts (reader header ts i) (reader' header rest) := by
  unfold optionReaderAt optionReader?
  repeat' split
  · exact .inr ⟨_, _, rfl, rfl, At.referencing⟩
  · exact .inr ⟨_, _, rfl, rfl, At.eachRow⟩
  · exact .inr ⟨_, _, rfl, rfl, At.skipNames⟩
  · exact .inr ⟨_, _, rfl, rfl, fun h header => .ok header h⟩
  · exact .inr ⟨_, _, rfl, rfl, At.condition⟩
  · exact .inl ⟨rfl, rfl⟩

theorem At.options (h : At ts i rest) (header : Header) :
    Agrees ts (options? header ts i) (Grammar.options header rest) := by
  induction rest using shorterInduction generalizing i header with
  | shorter rest ih =>
    cases rest with
    | nil =>
      rw [options?, h.none_at_end, Grammar.options]
      exact .error _ h
    | cons t rest =>
      rw [options?, options_cons]
      simp only [h.head]
      obtain ⟨hat, hlist⟩ | ⟨reader, reader', hat, hlist, hreader⟩ := optionReaderAt_cases t
      · simp only [hat, hlist]
        exact .ite (.ok _ h) (.error _ h)
      · simp only [hat, hlist]
        refine (hreader h.cons header).andThen (fun _ hread => by rw [hread])
          fun header' j later hread hj => ?_
        rw [hread]
        have hlt := Nat.lt_succ_of_le (optionReader?_length hlist hread)
        exact h.onward hj hlt (ih later hlt hj header')

/-! ### The whole header -/

/-- An optional `OR REPLACE`. -/
def orReplace? (ts : List Token) (i : Nat) : Option (Placed Bool) :=
  if holdsAt (·.isWord "OR") ts i then expectWord? "REPLACE" true ts (i + 1)
  else some (.ok (false, i))

/-- A whole header. -/
def triggerHeader? (ts : List Token) : Option (Placed Header) :=
  andThen (expectWord? "CREATE" () ts 0) fun _ i =>
  andThen (orReplace? ts i) fun orReplace i =>
  andThen (expectWord? "TRIGGER" () ts
    (skip (fun p => p.isWord "EDITIONABLE" || p.isWord "NONEDITIONABLE") ts i)) fun _ i =>
  andThen (qualifiedName? ts i) fun name i =>
  andThen (timing? ts i) fun timing i =>
  andThen (events? ts i) fun events i =>
  andThen (expectWord? "ON" () ts i) fun _ i =>
  andThen (qualifiedName? ts i) fun table i =>
    let header : Header :=
      { name, orReplace, timing, events, table, forEachRow := false, newAlias := none,
        oldAlias := none, condition := none }
    options? header ts i

/-- The header, if the tokens start with one, and the tokens of the block. -/
def readHeader? (ts : List Token) : Option HeaderReading :=
  if holdsAt (·.isKeyword "CREATE") ts 0 then do
    match ← triggerHeader? ts with
    | .ok (header, start) => (suffix? ts start).map fun body => ⟨some header, body, []⟩
    | .error (reason, stop) =>
      (suffix? ts (ts.findIdx startsBlock)).map fun body =>
        ⟨none, body, [.warning .header (some (offsetOf ts (ts.drop stop)))
          s!"trigger header skipped: {reason}"]⟩
  else some ⟨none, ts, []⟩

theorem At.orReplace (h : At ts i rest) : Agrees ts (orReplace? ts i) (Grammar.orReplace rest) := by
  rw [orReplace?, Grammar.orReplace]
  obtain ⟨hor, hlist⟩ | ⟨later, hor, hlist, hlater⟩ := h.eatWord "OR"
  · rw [hor, hlist]
    exact .ok _ h
  · rw [hor, hlist]
    exact hlater.expectWord "REPLACE" true

theorem At.skipEdition (h : At ts i rest) :
    At ts (Positions.skip (fun p => p.isWord "EDITIONABLE" || p.isWord "NONEDITIONABLE") ts i)
      (Grammar.skipEdition rest) := by
  have hskip := h.skip fun p => p.isWord "EDITIONABLE" || p.isWord "NONEDITIONABLE"
  cases rest with
  | nil => exact hskip
  | cons t rest =>
    have heq : Grammar.skipEdition (t :: rest) = Sections.dropOne
        (fun t => t.isWord "EDITIONABLE" || t.isWord "NONEDITIONABLE") (t :: rest) := by
      by_cases ht : t.isWord "EDITIONABLE"
      · simp [Grammar.skipEdition, eatWord?, Sections.dropOne, ht]
      · by_cases ht' : t.isWord "NONEDITIONABLE"
        · simp [Grammar.skipEdition, eatWord?, Sections.dropOne, ht, ht']
        · simp [Grammar.skipEdition, eatWord?, Sections.dropOne, ht, ht']
    rwa [heq]

theorem triggerHeader?_agrees (ts : List Token) :
    Agrees ts (triggerHeader? ts) (triggerHeader ts) := by
  refine (at_zero ts).expectWord_bind "CREATE" fun i rest h => ?_
  refine h.orReplace.bind fun orReplace i rest _ h => ?_
  refine h.skipEdition.expectWord_bind "TRIGGER" fun i rest h => ?_
  refine h.qualifiedName.bind fun name i rest _ h => ?_
  refine h.timing.bind fun timing i rest _ h => ?_
  refine h.events.bind fun events i rest _ h => ?_
  refine h.expectWord_bind "ON" fun i rest h => ?_
  exact h.qualifiedName.bind fun table i rest _ h => h.options _

/-- The reading of a header never gives up. -/
theorem readHeader?_eq (ts : List Token) : readHeader? ts = some (readHeader ts) := by
  cases ts with
  | nil => rfl
  | cons t rest =>
    rw [readHeader?, readHeader, (at_zero (t :: rest)).holdsAt]
    by_cases ht : t.isKeyword "CREATE"
    · obtain ⟨reason, j, later, hfound, hread, hj⟩ | ⟨header, j, later, hfound, hread, hj⟩ :=
        triggerHeader?_agrees (t :: rest)
      · have hblock : suffix? (t :: rest) ((t :: rest).findIdx startsBlock) =
            some ((t :: rest).dropWhile fun t => !startsBlock t) := by
          rw [suffix?, if_pos List.findIdx_le_length, List.dropWhile_eq_drop_findIdx_not]
          simp
        simp only [ht, if_true, hfound, hread, hblock, hj.eq, Option.bind_eq_bind, Option.bind_some,
          Option.map_some]
      · simp [ht, hfound, hread, hj.suffix]
    · simp [ht]

end TriggerDialect.Positions
