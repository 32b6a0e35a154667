import TriggerDialect.Proofs.Positions.Simple
import TriggerDialect.Proofs.Reading.Declared

/-!
# Declarations and handlers, by position

Main statements: the readings of the two outer sections never give up (`readDeclarations?_eq`,
`readHandlers?_eq`).
-/

namespace TriggerDialect.Positions

open Grammar Option

variable {ts rest : List Token} {t : Token} {i : Nat} (ts : List Token)

/-! ### Declarations -/

/-- The spans before the semicolons, from `start` on. -/
def declarationSpans? (ts : List Token) (start : Nat) : Option (List Span) :=
  if _h : start < ts.length then do
    let found ← find? (·.isPunct ';') ts start
    let span ← slice? ts start (found.getD ts.length)
    let next := (found.map (· + 1)).getD ts.length
    if _hnext : start < next then
      (declarationSpans? ts next).map fun later =>
        if span.isEmpty then later else ⟨span, found.isSome⟩ :: later
    else none
  else some []
termination_by ts.length - start
decreasing_by omega

/-- `type [NOT NULL] [(:= | DEFAULT) value]` -/
def typedValue? (ts : List Token) : Option (Except String TypedValue) := do
  let found ← find? startsValue ts 0
  let (typeTokens, notNull) := splitNotNull (← slice? ts 0 (found.getD ts.length))
  let text := render typeTokens
  match DeclaredType.parse? text with
  | none => some (.error s!"unrecognized type '{text}'")
  | some type =>
    match found with
    | none => some (.ok ⟨type, notNull, .absent⟩)
    | some sign =>
      (suffix? ts (sign + 1)).map fun value =>
        (initialValue value).map fun value => ⟨type, notNull, value⟩

/-- `name [IN] type [(:= | DEFAULT) value]` -/
def cursorParameter? (ts : List Token) : Option (Except String CursorParameter) :=
  match ts with
  | [] => some (.error "malformed cursor parameter")
  | t :: rest =>
    if t.isIdentifier then
      (typedValue? (match rest with
        | mode :: tail => if mode.isKeyword "IN" then tail else rest
        | [] => rest)).map fun typed => typed.map fun typed => ⟨t.text, typed.type⟩
    else some (.error "malformed cursor parameter")

/-- The parameters of a cursor and the position after them. -/
def cursorParameters? (span : List Token) (i : Nat) :
    Option (Except String (List CursorParameter × Nat)) :=
  if holdsAt (·.isPunct '(') span i then do
    match ← group? span i with
    | none => some (.error "unclosed cursor parameter list")
    | some (inner, last) => do
      let read ← (← splitCommas? inner 0).mapM cursorParameter?
      some ((read.mapM id).map fun parameters => (parameters, last + 1))
  else some (.ok ([], i))

/-- The position of the `IS` of a cursor, past a return type. -/
def skipReturn? (span : List Token) (i : Nat) : Option (Except String Nat) :=
  if holdsAt (·.isWord "RETURN") span i then do
    match ← find? (·.isKeyword "IS") span (i + 1) with
    | none => some (.error "cursor has no IS")
    | some j => some (.ok j)
  else some (.ok i)

/-- A cursor. -/
def cursor? (span : List Token) : Option (Except String Cursor) := do
  let first ← span[0]?
  match ← name? span 1 with
  | .error (reason, _) => some (.error reason)
  | .ok (name, i) => do
    match ← cursorParameters? span i with
    | .error reason => some (.error reason)
    | .ok (parameters, i) => do
      match ← skipReturn? span i with
      | .error reason => some (.error reason)
      | .ok i => do
        let rest ← suffix? span i
        some ((cursorQuery name rest).map fun query => ⟨name, parameters, query, first.offset⟩)

/-- A constant, from the type on. -/
def constant? (name : String) (offset : Nat) (ts : List Token) :
    Option (Except String Constant) := do
  match ← typedValue? ts with
  | .error reason => some (.error reason)
  | .ok typed =>
    some <| match typed.value with
      | .absent => .error s!"constant {name} has no value"
      | .null => .error s!"constant {name} is NULL"
      | .given value => .ok ⟨name, typed.type, value, offset⟩

/-- A declaration, or why it is kept as it stands. -/
def declaration? (span : List Token) : Option (Except String Declaration) := do
  let first ← span[0]?
  if first.isKeyword "CURSOR" then (cursor? span).map fun read => read.map .ofCursor
  else if first.isKeyword "PRAGMA" then some (.error "PRAGMA kept verbatim")
  else if first.isWord "TYPE" || first.isWord "SUBTYPE" then
    some (.error "type definitions are not supported")
  else if !first.isIdentifier then some (.error "unrecognized declaration")
  else if span.length = 2 && holdsAt (·.isKeyword "EXCEPTION") span 1 then
    some (.ok (.ofException ⟨first.text, first.offset⟩))
  else if holdsAt (·.isKeyword "CONSTANT") span 1 then do
    (constant? first.text first.offset (← suffix? span 2)).map fun read => read.map .ofConstant
  else do
    (typedValue? (← suffix? span 1)).map fun read => read.map fun typed =>
      .ofVariable ⟨first.text, typed.type, typed.value.initializer?, typed.notNull, first.offset⟩

theorem At.declarationSpans (h : At ts i rest) :
    declarationSpans? ts i = some (Grammar.declarationSpans rest) := by
  induction rest using shorterInduction generalizing i with
  | shorter rest ih =>
    have hlength := h.length
    rw [declarationSpans?, Grammar.declarationSpans_eq]
    cases rest with
    | nil => simp [show ¬i < ts.length by simp at hlength; omega, spanAtDepth, spanFrom]
    | cons t rest =>
      obtain ⟨hfind, hspan⟩ | ⟨front, u, later, hfind, hspan, hslice, hat⟩ := h.find (·.isPunct ';')
      · have hend : declarationSpans? ts ts.length = some [] := by
          rw [declarationSpans?, dif_neg (Nat.lt_irrefl _)]
        simp [h.lt, hfind, hspan, h.slice_rest, hend]
      · have hlater := hat.length
        simp only [List.length_cons] at hlater hlength
        simp [h.lt, hfind, hspan, hslice, ih later (by rw [List.length_cons]; omega) hat.cons,
          show i < i + front.length + 1 by omega]

theorem typedValue?_eq : typedValue? ts = some (typedValue ts) := by
  rw [typedValue?, typedValue]
  obtain ⟨hfind, hspan⟩ | ⟨front, sign, later, hfind, hspan, hslice, hat⟩ :=
    (at_zero ts).find startsValue
  · simp only [hfind, hspan, bind_eq_bind, bind_some, getD_none, (at_zero ts).slice_rest]
    cases DeclaredType.parse? (render (splitNotNull ts).1) <;> rfl
  · simp only [hfind, hspan, bind_eq_bind, bind_some, getD_some, hslice, hat.cons.suffix]
    cases DeclaredType.parse? (render (splitNotNull front).1) <;> rfl

theorem cursorParameter?_eq : cursorParameter? ts = some (cursorParameter ts) := by
  rcases ts with _ | ⟨t, _ | ⟨mode, tail⟩⟩
  · rfl
  all_goals
    by_cases ht : t.isIdentifier
    · simp [cursorParameter?, cursorParameter, ht, typedValue?_eq]
    · simp [cursorParameter?, cursorParameter, ht]

/-- A reading that never gives up on the members of a list does not give up on the list. -/
theorem mapM_eq_some {α β : Type} {read : α → Option β} {f : α → β} {as : List α}
    (h : ∀ a ∈ as, read a = some (f a)) : as.mapM read = some (as.map f) := by
  induction as with
  | nil => rfl
  | cons a as ih =>
    have hlater := ih fun b hb => h b (List.mem_cons_of_mem a hb)
    simp [List.mapM_cons, h a List.mem_cons_self, hlater]

theorem At.cursorParameters (h : At ts i rest) :
    (∃ reason, cursorParameters? ts i = some (.error reason) ∧
      Grammar.cursorParameters rest = .error reason) ∨
    ∃ parameters j later, cursorParameters? ts i = some (.ok (parameters, j)) ∧
      Grammar.cursorParameters rest = .ok (parameters, later) ∧ At ts j later := by
  cases rest with
  | nil => exact .inr ⟨[], i, [], by simp [cursorParameters?, h.holdsAt_end], rfl, h⟩
  | cons t rest =>
    by_cases ht : t.isPunct '(' = true
    · obtain ⟨hgroup, hbracket⟩ | ⟨inner, j, later, hgroup, hbracket, hj⟩ := h.group
      · refine .inl ⟨"unclosed cursor parameter list", ?_, ?_⟩
        · simp [cursorParameters?, h.holdsAt, ht, hgroup]
        · simp [Grammar.cursorParameters, ht, hbracket]
      · have hread : cursorParameters? ts i = some (((TriggerDialect.splitCommas inner).mapM
            cursorParameter).map fun parameters => (parameters, j + 1)) := by
          simp [cursorParameters?, h.holdsAt, ht, hgroup, (at_zero inner).splitCommas,
            mapM_eq_some fun part _ => cursorParameter?_eq part, List.mapM_map]
        have hlist : Grammar.cursorParameters (t :: rest) =
            (((TriggerDialect.splitCommas inner).mapM cursorParameter).map fun parameters =>
              (parameters, later)) := by
          simp [Grammar.cursorParameters, ht, hbracket]
        cases hall : (TriggerDialect.splitCommas inner).mapM cursorParameter with
        | error reason => exact .inl ⟨reason, by rw [hread, hall]; rfl, by rw [hlist, hall]; rfl⟩
        | ok all =>
          exact .inr ⟨all, j + 1, later, by rw [hread, hall]; rfl, by rw [hlist, hall]; rfl, hj⟩
    · refine .inr ⟨[], i, t :: rest, ?_, ?_, h⟩
      · simp [cursorParameters?, h.holdsAt, ht]
      · simp [Grammar.cursorParameters, ht]

theorem At.skipReturn (h : At ts i rest) :
    (∃ reason, skipReturn? ts i = some (.error reason) ∧ Grammar.skipReturn rest = .error reason) ∨
    ∃ j later, skipReturn? ts i = some (.ok j) ∧ Grammar.skipReturn rest = .ok later ∧
      At ts j later := by
  obtain ⟨hreturn, hlist⟩ | ⟨later, hreturn, hlist, hlater⟩ := h.eatWord "RETURN"
  · exact .inr ⟨i, rest, by simp [skipReturn?, hreturn], by simp [Grammar.skipReturn, hlist], h⟩
  · obtain ⟨hfind, hspan⟩ | ⟨front, t, tail, hfind, hspan, _, hat⟩ := hlater.find (·.isKeyword "IS")
    · exact .inl ⟨"cursor has no IS", by simp [skipReturn?, hreturn, hfind],
        by simp [Grammar.skipReturn, hlist, hspan]⟩
    · exact .inr ⟨i + 1 + front.length, t :: tail, by simp [skipReturn?, hreturn, hfind],
        by simp [Grammar.skipReturn, hlist, hspan], hat⟩

theorem cursor?_eq (t : Token) (rest : List Token) :
    cursor? (t :: rest) = some (cursor t.offset rest) := by
  rw [cursor, cursor?]
  obtain ⟨reason, i, later, hname, hlist, _⟩ | ⟨name, i, later, hname, hlist, hi⟩ :=
    (at_zero (t :: rest)).cons.name
  · simp [hname, hlist]
  obtain ⟨reason, hread, hlist'⟩ | ⟨parameters, j, later, hread, hlist', hj⟩ := hi.cursorParameters
  · simp [hname, hlist, hread, hlist', bind, Except.bind]
  obtain ⟨reason, hskip, hlist''⟩ | ⟨k, later, hskip, hlist'', hk⟩ := hj.skipReturn
  · simp [hname, hlist, hread, hlist', hskip, hlist'', bind, Except.bind]
  · simp [hname, hlist, hread, hlist', hskip, hlist'', hk.suffix, bind, Except.bind]
    cases cursorQuery name later <;> rfl

theorem constant?_eq (name : String) (offset : Nat) (ts : List Token) :
    constant? name offset ts = some (constant name offset ts) := by
  rw [constant?, typedValue?_eq, constant]
  cases typedValue ts <;> rfl

theorem declaration?_eq (t : Token) (rest : List Token) :
    declaration? (t :: rest) = some (declaration (t :: rest)) := by
  simp only [declaration?, declaration, (at_zero (t :: rest)).head, bind_eq_bind, bind_some,
    cursor?_eq, map_some, suffix?_tail, typedValue?_eq]
  by_cases hcursor : t.isKeyword "CURSOR"
  · simp [hcursor]
  by_cases hpragma : t.isKeyword "PRAGMA"
  · simp [hcursor, hpragma]
  by_cases htype : (t.isWord "TYPE" || t.isWord "SUBTYPE")
  · simp [hcursor, hpragma, htype]
  by_cases ht : t.isIdentifier
  · rcases rest with _ | ⟨u, rest⟩
    · simp [hcursor, hpragma, htype, ht, holdsAt, namedDeclaration]
    · have hsuffix := (at_zero (t :: u :: rest)).cons.cons.suffix
      by_cases hexception : u.isKeyword "EXCEPTION" ∧ rest = []
      · simp [hcursor, hpragma, htype, ht, holdsAt, namedDeclaration, hexception]
      · have hnot : ¬(rest = [] ∧ u.isKeyword "EXCEPTION") := fun h => hexception h.symm
        by_cases hconstant : u.isKeyword "CONSTANT"
        · simp [hcursor, hpragma, htype, ht, holdsAt, namedDeclaration, hexception, hnot, hconstant,
            hsuffix, constant?_eq]
        · simp [hcursor, hpragma, htype, ht, holdsAt, namedDeclaration, hexception, hnot, hconstant]
  · simp [hcursor, hpragma, htype, ht]

/-- All declarations of a section, and the warnings about them. -/
def readDeclarations? (ts : List Token) : Option (Declarations × List Diagnostic) := do
  let spans ← declarationSpans? ts 0
  let read ← spans.mapM fun span => (declaration? span.tokens).map fun read =>
    let text := Fragment.ofTokens span.tokens
    let unclosed := if span.closed then []
      else [.warning .declaration (some text.offset) "declaration is missing its terminating ';'"]
    match read with
    | .ok declaration => (declaration, unclosed)
    | .error reason => (.ofRaw text,
      unclosed ++ [.warning .declaration (some text.offset) s!"{reason}: {text.text}"])
  some (.ofList (read.map Prod.fst), read.flatMap Prod.snd)

/-- A declaration section is read alike. -/
theorem readDeclarations?_eq : readDeclarations? ts = some (readDeclarations ts) := by
  rw [readDeclarations?, (at_zero ts).declarationSpans, bind_eq_bind, bind_some]
  rw [mapM_eq_some (f := fun span => (readDeclaration span.tokens, declarationNotes span))]
  · simp [readDeclarations, Function.comp_def, List.flatMap_map]
  · intro span hspan
    obtain ⟨t, rest, htokens⟩ := List.exists_cons_of_ne_nil (declarationSpans_mem hspan).1
    rw [htokens, declaration?_eq, ← htokens, readDeclaration, declarationNotes]
    cases declaration span.tokens <;> rfl

/-! ### Handlers -/

/-- The positions of the handlers, from `start` on. -/
def handlerStarts? (ts : List Token) (start : Nat) : Option (List Nat) := do
  match ← findClause? ["WHEN"] ts start with
  | none => some []
  | some i =>
    if _h : start < i + 1 ∧ i < ts.length then (handlerStarts? ts (i + 1)).map (i :: ·) else none
termination_by ts.length - start
decreasing_by omega

/-- The handler that a span starts with, or its text. -/
def handler? (span : List Token) : Option HandlerSpan := do
  let first ← span[0]?
  let kept (reason : String) : HandlerSpan := .unparsed reason (Fragment.ofTokens span)
  match ← find? (·.isKeyword "THEN") span 1 with
  | none => some (kept "WHEN without THEN")
  | some stop => do
    match handlerNames (← slice? span 1 stop) with
    | none => some (kept "missing exception name")
    | some (name, more) =>
      (suffix? span (stop + 1)).map fun body => .handler ⟨name, more, body, first.offset⟩

/-- The spans between the positions of the handlers. -/
def handlersAt? (ts : List Token) : List Nat → Option (List HandlerSpan)
  | [] => some []
  | start :: starts => do
    let span ← slice? ts start (starts.head?.getD ts.length)
    let read ← handler? span
    (handlersAt? ts starts).map (read :: ·)

/-- The stretches of an exception section. -/
def handlerSpans? (ts : List Token) : Option (List HandlerSpan) := do
  let starts ← handlerStarts? ts 0
  let front ← slice? ts 0 (starts.head?.getD ts.length)
  (handlersAt? ts starts).map (textBefore front ++ ·)

/-- The exception section at `path`. -/
def readHandlers? (path : String) (ts : List Token) : Option HandlerSection := do
  let spans ← handlerSpans? ts
  let (handlers, pending) := withNotes path [] spans
  some ⟨handlers, spans.filterMap HandlerSpan.text?, pending ++ othersNotes handlers⟩

theorem handler?_eq (t : Token) (rest : List Token) :
    handler? (t :: rest) = some (handlerSpan t rest) := by
  rw [handler?, handlerSpan, handlerAfterWhen]
  obtain ⟨hfind, hspan⟩ | ⟨front, u, later, hfind, hspan, hslice, hat⟩ :=
    (at_zero (t :: rest)).cons.find (·.isKeyword "THEN")
  · simp [hfind, hspan]
  · simp only [Nat.zero_add] at hfind hslice
    cases hnames : handlerNames front with
    | none => simp [hfind, hspan, hslice, hnames]
    | some names => simp [hfind, hspan, hslice, hnames, hat.cons.suffix]

theorem At.handlers (h : At ts i (t :: rest)) :
    ∃ starts, handlerStarts? ts (i + 1) = some starts ∧
      handlersAt? ts (i :: starts) = some (handlersFrom t rest) := by
  induction rest using shorterInduction generalizing i t with
  | shorter rest ih =>
    rw [handlerStarts?, handlersFrom_eq]
    obtain ⟨hfind, hspan⟩ | ⟨front, u, later, hfind, hspan, hslice, hat⟩ :=
      h.cons.findClause ["WHEN"]
    · exact ⟨[], by simp [hfind], by simp [handlersAt?, hspan, h.slice_rest, handler?_eq]⟩
    · have hlength := h.length
      have hlater := hat.length
      simp only [List.length_cons] at hlength hlater
      obtain ⟨starts, hstarts, hread⟩ := ih later (by omega) hat
      have hmoves : i + 1 < i + 1 + front.length + 1 ∧ i + 1 + front.length < ts.length :=
        ⟨by omega, hat.lt⟩
      have hwhole : At ts i (t :: front ++ u :: later) := by
        rwa [List.cons_append, ← eq_of_spanFrom hspan]
      have hstretch : slice? ts i (i + 1 + front.length) = some (t :: front) := by
        rw [Nat.add_assoc, Nat.add_comm 1]
        exact hwhole.slice
      refine ⟨(i + 1 + front.length) :: starts, ?_, ?_⟩
      · simp only [hfind, bind_eq_bind, bind_some, dif_pos hmoves, hstarts, map_some]
      · rw [handlersAt?, hread]
        simp [hspan, hstretch, handler?_eq]

theorem handlerSpans?_eq : handlerSpans? ts = some (handlerSpans ts) := by
  rw [handlerSpans?, handlerStarts?, handlerSpans]
  obtain ⟨hfind, hspan⟩ | ⟨front, u, later, hfind, hspan, hslice, hat⟩ :=
    (at_zero ts).findClause ["WHEN"]
  · simp [hfind, hspan, (at_zero ts).slice_rest, handlersAt?]
  · obtain ⟨starts, hstarts, hread⟩ := hat.handlers
    have hlt := hat.lt
    simp only [Nat.zero_add] at hfind hslice hstarts hread hlt
    simp [hfind, hspan, hslice, hstarts, hread, hlt]

/-- So is a handler section. -/
theorem readHandlers?_eq (path : String) (ts : List Token) :
    readHandlers? path ts = some (readHandlers path ts) := by
  rw [readHandlers?, handlerSpans?_eq]
  rfl

end TriggerDialect.Positions
