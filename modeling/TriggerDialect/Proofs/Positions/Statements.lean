import TriggerDialect.Proofs.Positions.Declared
import TriggerDialect.Proofs.Positions.Header
import TriggerDialect.Proofs.Positions.Sections
import TriggerDialect.Proofs.Tree.Lossless

/-!
# Statements, by position

The reading of a statement list cuts it into statements, finds the form of each and reads the inner
lists. Here it also gives up when an inner list is not shorter than the list it stands in. Main
statement: no part of the reading of a trigger ever gives up, and each gives what the reading of
lists gives (`reading_stays_in_range`).
-/

namespace TriggerDialect.Positions

open Grammar List Option

variable {ts rest : List Token} {t : Token} {i : Nat} {lead : Lead} (path : String)

/-! ### The pieces of a list -/

/-- The label `<<name>>` at `i` and the position after it. -/
def labelAt (ts : List Token) (i : Nat) : Option (String × Nat) :=
  match slice? ts i (i + 3) with
  | some [opening, name, closing] =>
    if opening.isOp "<<" && name.isIdentifier && closing.isOp ">>" then some (name.text, i + 3)
    else none
  | _ => none

/-- The position of the semicolon that ends the statement at `i`. -/
def statementEnd? (ts : List Token) (i : Nat) : Option (Option Nat) := do
  let first ← ts[i]?
  let start ← if first.isKeyword "DECLARE" then
    (find? (·.isKeyword "BEGIN") ts i).map (·.getD i) else some i
  find? (·.isPunct ';') ts start

/-- The labels and statements from `i` on. -/
def piecewise? (ts : List Token) (i : Nat) : Option (List Piecewise) :=
  if _h : i < ts.length then
    match labelAt ts i with
    | some (name, next) =>
      if _hnext : i < next then (piecewise? ts next).map (.label name :: ·) else none
    | none => do
      let found ← statementEnd? ts i
      let span ← slice? ts i (found.getD ts.length)
      let next := (found.map (· + 1)).getD ts.length
      if _hnext : i < next then
        (piecewise? ts next).map fun later =>
          if span.isEmpty then later else .statement ⟨span, found.isSome⟩ :: later
      else none
  else some []
termination_by ts.length - i
decreasing_by all_goals omega

theorem At.label (h : At ts i rest) :
    (labelAt ts i = none ∧ leadingLabel? rest = none) ∨
    ∃ name later, labelAt ts i = some (name, i + 3) ∧ leadingLabel? rest = some (name, later) ∧
      At ts (i + 3) later := by
  have hlength := h.length
  rcases rest with _ | ⟨opening, _ | ⟨name, _ | ⟨closing, rest⟩⟩⟩
  all_goals simp only [length_cons, length_nil] at hlength
  · exact .inl ⟨by simp [labelAt, slice?, show ¬i + 3 ≤ ts.length by omega], rfl⟩
  · exact .inl ⟨by simp [labelAt, slice?, show ¬i + 3 ≤ ts.length by omega], rfl⟩
  · exact .inl ⟨by simp [labelAt, slice?, show ¬i + 3 ≤ ts.length by omega], rfl⟩
  · have hfront : At ts i ([opening, name, closing] ++ rest) := h
    have hslice : slice? ts i (i + 3) = some [opening, name, closing] := hfront.slice
    by_cases hlabel : (opening.isOp "<<" && name.isIdentifier && closing.isOp ">>")
    · exact .inr ⟨name.text, rest, by simp only [labelAt, hslice, hlabel, if_true],
        by simp only [leadingLabel?, hlabel, if_true], hfront.append⟩
    · exact .inl ⟨by simp only [labelAt, hslice, hlabel]; rfl,
        by simp only [leadingLabel?, hlabel]; rfl⟩

theorem At.statementEnd (h : At ts i (t :: rest)) :
    Cuts ts i (t :: rest) (statementEnd? ts i) (spanStatement (t :: rest)) := by
  by_cases ht : t.isKeyword "DECLARE"
  · obtain ⟨hfind, hspan⟩ | ⟨front, word, later, hfind, hspan, _, hat⟩ :=
      h.find (·.isKeyword "BEGIN")
    · have hend : statementEnd? ts i = find? (·.isPunct ';') ts i := by
        simp [statementEnd?, h.head, hfind]
      have hcut : spanStatement (t :: rest) = spanAtDepth (·.isPunct ';') (t :: rest) := by
        simp [spanStatement, ht, hspan]
      rw [hend, hcut]
      exact h.find _
    · have hend : statementEnd? ts i = find? (·.isPunct ';') ts (i + front.length) := by
        simp [statementEnd?, h.head, ht, hfind]
      have hcut : spanStatement (t :: rest) =
          (front ++ (spanAtDepth (·.isPunct ';') (word :: later)).1,
            (spanAtDepth (·.isPunct ';') (word :: later)).2) := by
        simp [spanStatement, ht, hspan]
      have hwhole : t :: rest = front ++ word :: later := eq_of_spanFrom hspan
      rw [hend, hcut]
      obtain ⟨hfind, hspan⟩ | ⟨middle, u, tail, hfind, hspan, _, _⟩ := hat.find (·.isPunct ';')
      · exact .inl ⟨hfind, by rw [hspan, ← hwhole]⟩
      · have hsplit : At ts i ((front ++ middle) ++ u :: tail) := by
          rw [append_assoc, ← eq_of_spanFrom hspan, ← hwhole]
          exact h
        have hlength : i + (front ++ middle).length = i + front.length + middle.length := by
          rw [length_append, Nat.add_assoc]
        exact .inr ⟨front ++ middle, u, tail, by rw [hfind, hlength], by rw [hspan], hsplit.slice,
          hsplit.append⟩
  · have hend : statementEnd? ts i = find? (·.isPunct ';') ts i := by
      simp [statementEnd?, h.head, ht]
    have hcut : spanStatement (t :: rest) = spanAtDepth (·.isPunct ';') (t :: rest) := by
      simp [spanStatement, ht]
    rw [hend, hcut]
    exact h.find _

theorem At.piecewise (h : At ts i rest) : piecewise? ts i = some (Grammar.piecewise rest) := by
  induction rest using shorterInduction generalizing i with
  | shorter rest ih =>
    have hlength := h.length
    rw [piecewise?, piecewise_eq]
    cases rest with
    | nil => simp [show ¬i < ts.length by simp at hlength; omega, leadingLabel?, spanStatement]
    | cons t rest =>
      rw [dif_pos h.lt]
      obtain ⟨hlabel, hlist⟩ | ⟨name, later, hlabel, hlist, hat⟩ := h.label
      · simp only [hlabel, hlist]
        obtain ⟨hend, hspan⟩ | ⟨front, u, later, hend, hspan, hslice, hat⟩ := h.statementEnd
        · have hlast : piecewise? ts ts.length = some [] := by
            rw [piecewise?, dif_neg (Nat.lt_irrefl _)]
          simp [h.lt, hend, hspan, h.slice_rest, hlast]
        · have hlater := hat.length
          simp only [length_cons] at hlater hlength
          simp [hend, hspan, hslice, ih later (by rw [length_cons]; omega) hat.cons,
            show i < i + front.length + 1 by omega]
      · have hlt := leadingLabel?_length hlist
        simp [hlabel, hlist, ih later hlt hat]

/-! ### The form of a statement -/

/-- A block inside the body of another. -/
def block? (path : String) (span : List Token) : Option (Except String Recognised) := do
  match ← split? span with
  | .error fault => some (.error fault.message)
  | .ok sections =>
    if sections.trailing.isEmpty then do
      let declared ← sections.declarations.mapM readDeclarations?
      let found ← sections.handlers.mapM (readHandlers? path)
      let found := found.getD .none
      some (.ok {
        form := .block {
          declarations := declared.map Prod.fst
          body := ⟨sections.statements,
            sections.warnings.map (structureNote path) ++ (declared.map Prod.snd).getD []⟩
          handlers := found.handlers
          unparsed := found.unparsed }
        after := found.after })
    else some (.error "unexpected text after the block's END")

/-- The form of the statement at `path`, or why it is kept as it stands. -/
def recognise? (path : String) (span : List Token) : Option (Except String Recognised) := do
  let first ← span[0]?
  let rest ← suffix? span 1
  let compound (read : Option (Except String (Form (List Token)))) :=
    read.map fun form => form.map quiet
  let simple (read : Option (Except String Simple)) :=
    read.map fun s => s.map fun s => quiet (.simple s)
  match leadOf first with
  | some .conditional => compound (conditional? span)
  | some .selection => compound (selection? span)
  | some .counted => compound (counted? span)
  | some .whileLoop => compound (whileLoop? span)
  | some .endlessLoop => compound (endlessLoop? span)
  | some .block => block? path span
  | some .insert => simple ((insertTarget? span).map fun target =>
      .ok (.insert (Fragment.ofTokens span) target))
  | some .raise => simple (raised? span)
  | some .null =>
    if span.length = 1 then some (.ok (quiet (.simple .null))) else simple (plainStatement? span)
  | some .exitLoop => simple (exitStatement? .exitLoop span)
  | some .continueLoop => simple (exitStatement? .continueLoop span)
  | none => simple (plainStatement? span)
  | some lead => some (recogniseLead path lead first rest)

theorem block?_eq (ts : List Token) : block? path ts = some (block path ts) := by
  rw [block?, split?_eq, block]
  cases Sections.split ts with
  | error fault => rfl
  | ok sections =>
    have hdeclared : sections.declarations.mapM readDeclarations? =
        some (sections.declarations.map readDeclarations) := by
      cases sections.declarations <;> simp [readDeclarations?_eq]
    have hhandlers : sections.handlers.mapM (readHandlers? path) =
        some (sections.handlers.map (readHandlers path)) := by
      cases sections.handlers <;> simp [readHandlers?_eq]
    have hfound : (sections.handlers.map (readHandlers path)).getD .none =
        blockHandlers path sections.handlers := by
      cases sections.handlers <;> rfl
    by_cases htrailing : sections.trailing.isEmpty
    · simp only [htrailing, if_true, hdeclared, hhandlers, hfound, bind_eq_bind, bind_some, blockOf]
    · simp only [htrailing, bind_eq_bind, bind_some]
      rfl

theorem isKeyword_of_leadOf (h : leadOf t = some lead) (word : String) :
    t.isKeyword word = (t.upper == Text.upper word) := by
  simp [Piece.isKeyword, Piece.upper, Text.sameWord, (mem_leadWords h).1]

theorem isWord_of_leadOf (h : leadOf t = some lead) (word : String) :
    t.isWord word = (t.upper == Text.upper word) := by
  simp [Piece.isWord, Piece.upper, Text.sameWord, (mem_leadWords h).1]

/-- No statement starts with `END`. -/
theorem isKeyword_end_of_leadOf (h : leadOf t = some lead) : t.isKeyword "END" = false := by
  have hnone : leadWords.lookup (Text.upper "END") = none := by decide
  rw [isKeyword_of_leadOf h, beq_eq_false_iff_ne]
  intro hend
  rw [leadOf, if_pos (mem_leadWords h).1, hend, hnone] at h
  cases h

theorem recognise?_eq (t : Token) (rest : List Token) :
    recognise? path (t :: rest) = some (recognise path (t :: rest)) := by
  rw [recognise?, recognise]
  simp only [(at_zero (t :: rest)).head, suffix?_tail, bind_eq_bind, bind_some]
  cases hlead : leadOf t with
  | none => simp [plainStatement?_eq]
  | some lead =>
    have hend := isKeyword_end_of_leadOf hlead
    cases lead with
    | conditional => simp [recogniseLead, conditional?_eq hend]
    | selection => simp [recogniseLead, selection?_eq hend]
    | counted => simp [recogniseLead, counted?_eq hend]
    | whileLoop => simp [recogniseLead, whileLoop?_eq hend]
    | endlessLoop =>
      have hupper : t.upper = "LOOP" := by simpa [leadWords] using (mem_leadWords hlead).2
      have hloop : t.isKeyword "LOOP" := by rw [isKeyword_of_leadOf hlead, hupper]; decide
      simp [recogniseLead, endlessLoop?_eq hloop]
    | block => simp [recogniseLead, block?_eq]
    | insert =>
      have hupper : t.upper = "INSERT" := by simpa [leadWords] using (mem_leadWords hlead).2
      have hinsert : t.isWord "INSERT" := by rw [isWord_of_leadOf hlead, hupper]; decide
      simp [recogniseLead, insertTarget?_eq hinsert, Except.map]
    | raise => simp [recogniseLead, raised?_eq]
    | null =>
      cases rest with
      | nil => rfl
      | cons u rest => simp [recogniseLead, plainStatement?_eq]
    | exitLoop => simp [recogniseLead, exitStatement?_eq]
    | continueLoop => simp [recogniseLead, exitStatement?_eq]
    | select | update | delete | returnValue | cursor | execute => rfl

/-! ### Statement lists -/

/-- Reads one piece of a list at `path`, with `inner` for inner lists. -/
def pieceWith? (inner : String → List Token → Option (Outcome (List Statement))) (path : String) :
    Piecewise → Option (Outcome Statement)
  | .label name => some ⟨.simple (.label name), [], 1⟩
  | .statement span => do
    let read ← match ← recognise? path span.tokens with
      | .error reason => some (keptVerbatim path reason span.tokens)
      | .ok r =>
        ((r.form.label path).map fun entry =>
          (inner entry.1 entry.2.tokens).map (.after entry.2.before)).sequence.map
            (assembled r.after)
    some (.after (unclosedNotes path span) read)

/-- Reads the statement list at `path`. It gives up on an inner list that is not shorter. -/
def statements? (path : String) (ts : List Token) : Option (Outcome (List Statement)) := do
  let pieces ← piecewise? ts 0
  let inner (path : String) (slice : List Token) : Option (Outcome (List Statement)) :=
    if _h : slice.length < ts.length then statements? path slice else none
  let read ← pieces.zipIdx.mapM fun (piece, i) => pieceWith? inner (Path.child path i) piece
  some (.all read)
termination_by ts.length

/-- Reads an exception section at `path`. It gives up on a body that is not shorter. -/
def handlerSection? (path : String) (ts : List Token) :
    Option (Outcome (List (Handler (List Statement)) × List Fragment)) := do
  let found ← readHandlers? path ts
  let outcomes ← (labelHandlers path found.handlers).mapM fun h =>
    if h.body.2.tokens.length < ts.length then
      (statements? h.body.1 h.body.2.tokens).map fun read =>
        h.map fun entry => Outcome.after entry.2.before read
    else none
  some {
    value := (outcomes.map (Handler.map Outcome.value), found.unparsed)
    notes := outcomes.flatMap (fun h => h.body.notes) ++ found.after
    found := total (fun h => h.body.found) outcomes + found.unparsed.length }

theorem piecewise_ne_nil {span : Span} (h : .statement span ∈ piecewise ts) : span.tokens ≠ [] := by
  fun_induction piecewise ts with
  | case1 ts name rest _ _ ih =>
    rcases mem_cons.1 h with h | h
    · cases h
    · exact ih h
  | case2 => cases h
  | case3 ts _ found _ hne =>
    cases mem_singleton.1 h
    simpa using hne
  | case4 ts _ found word rest _ _ _ ih => exact ih h
  | case5 ts _ found word rest _ _ hne ih =>
    rcases mem_cons.1 h with h | h
    · cases h
      simpa using hne
    · exact ih h

theorem pieceWith?_eq {inner : String → List Token → Option (Outcome (List Statement))}
    (hinner : ∀ path slice, slice.length < ts.length →
      inner path slice = some (statements path slice))
    {piece : Piecewise} (hpiece : piece ∈ piecewise ts) (path : String) :
    pieceWith? inner path piece = some (pieceWith statements path piece) := by
  cases piece with
  | label name => rfl
  | statement span =>
    obtain ⟨t, rest, htokens⟩ := exists_cons_of_ne_nil (piecewise_ne_nil hpiece)
    rw [pieceWith?, pieceWith, statementWith, htokens, recognise?_eq, ← htokens]
    cases hform : recognise path span.tokens with
    | error reason => rfl
    | ok r =>
      have hbodies : ((r.form.label path).map fun entry =>
            (inner entry.1 entry.2.tokens).map (Outcome.after entry.2.before)).sequence =
          some ((r.form.label path).map fun entry =>
            .after entry.2.before (statements entry.1 entry.2.tokens)) := by
        rw [Form.sequence_eq_some_iff, Form.map_map]
        refine Form.map_congr fun entry hentry => ?_
        have hshort := recognise_length hform _ (Form.snd_mem_bodies hentry)
        rw [hinner _ _ (Nat.lt_of_lt_of_le hshort (piecewise_length hpiece))]
        rfl
      simp [hbodies]

theorem statements?_eq (ts : List Token) : statements? path ts = some (statements path ts) := by
  induction ts using shorterInduction generalizing path with
  | shorter ts ih =>
    have hinner : ∀ path slice, slice.length < ts.length →
        (if _h : slice.length < ts.length then statements? path slice else none) =
          some (statements path slice) := by
      intro path slice hlt
      rw [dif_pos hlt, ih slice hlt]
    rw [statements?, (at_zero ts).piecewise, statements_eq, mapIdx_eq_zipIdx_map]
    simp only [bind_eq_bind, bind_some]
    rw [mapM_eq_some fun entry hentry =>
      pieceWith?_eq hinner (fst_mem_of_mem_zipIdx hentry) (Path.child path entry.2)]
    rfl

theorem handlerSection?_eq (ts : List Token) :
    handlerSection? path ts = some (handlerSection path (readHandlers path ts)) := by
  rw [handlerSection?, readHandlers?_eq, bind_eq_bind, bind_some]
  rw [mapM_eq_some (f := Handler.map fun entry =>
    Outcome.after entry.2.before (statements entry.1 entry.2.tokens))]
  · rfl
  · intro h hmem
    have hslice := mem_map_of_mem (f := Handler.map Prod.snd) hmem
    rw [map_snd_labelHandlers] at hslice
    have hlt : h.body.2.tokens.length < ts.length := (readHandlers_behind hslice).length
    rw [if_pos hlt, statements?_eq]
    rfl

/-- Whatever the tokens are, no reading by position takes an index or a slice that is out of range,
nor does it go round without moving on: the header, the sections, the declarations, the statements
and the handlers come out as they do when lists are read. Every inner list that is read on the way
is shorter than the list it stands in. -/
theorem reading_stays_in_range (path : String) (ts : List Token) :
    readHeader? ts = some (readHeader ts) ∧
      split? ts = some (Sections.split ts) ∧
      readDeclarations? ts = some (readDeclarations ts) ∧
      statements? path ts = some (statements path ts) ∧
      handlerSection? path ts = some (handlerSection path (readHandlers path ts)) ∧
      (∀ span place r, .statement span ∈ piecewise ts → recognise place span.tokens = .ok r →
        ∀ slice ∈ r.form.bodies, slice.tokens.length < ts.length) ∧
      ∀ h ∈ (readHandlers path ts).handlers, h.body.tokens.length < ts.length := by
  refine ⟨readHeader?_eq ts, split?_eq ts, readDeclarations?_eq ts, statements?_eq path ts,
    handlerSection?_eq path ts, ?_, fun h hh => (readHandlers_behind hh).length⟩
  intro span place r hspan hform slice hslice
  exact Nat.lt_of_lt_of_le (recognise_length hform slice hslice) (piecewise_length hspan)

end TriggerDialect.Positions
