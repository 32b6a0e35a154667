import TriggerDialect.Grammar.Compound

/-!
# How statements are recognised

A reader that succeeds has cut its tokens in one certain way (`conditional_cut` and its like), and
`Recognition` lists the ways in which a statement is recognised. So every inner list, however
malformed the statement is, is a run of its tokens behind the first one (`recognise_behind`), and
reading the inner lists in turn comes to an end (`recognise_length`).
-/

namespace TriggerDialect

open List Fragment

/-- Whether the statement has inner lists and is no block. -/
def Form.isCompound {β : Type} : Form β → Bool
  | .simple _ => false
  | .block _ => false
  | _ => true

namespace Grammar

variable {ts rest inner head body : List Token} {t : Token} {path what word name : String}
  {form : Form (List Token)} {sections : Sections} {r : Recognised} {b : Branches}

/-- A reader that succeeds gave its result to what follows it. -/
theorem exists_of_map_ok {α β : Type} {f : α → β} {read : Except String α} {b : β}
    (h : read.map f = .ok b) : ∃ a, read = .ok a ∧ b = f a := by
  cases read with
  | error reason => cases h
  | ok a => cases h; exact ⟨a, rfl, rfl⟩

/-! ### Cuts -/

/-- Only words and names stand after the inner tokens. -/
theorem stripEnd_eq (h : stripEnd word ts = some inner) :
    ∃ first tail, ts = inner ++ first :: tail ∧ ∀ t ∈ first :: tail, t.isSegment := by
  have hreverse : ts = ts.reverse.reverse := (reverse_reverse ts).symm
  have hword : ∀ {t : Token} {word : String}, t.isKeyword word → t.isSegment :=
    fun h => by simp [Piece.isSegment, Piece.kind_of_isKeyword h]
  unfold stripEnd at h
  split at h
  · rename_i last before front heq
    rw [heq] at hreverse
    split at h
    · rename_i hend
      cases h
      rw [Bool.and_eq_true] at hend
      exact ⟨before, [last], by rw [hreverse]; simp, by simp [hword hend.1, hword hend.2]⟩
    · split at h
      · rename_i first front
        split at h
        · rename_i hend
          cases h
          rw [Bool.and_eq_true, Bool.and_eq_true] at hend
          obtain ⟨⟨hfirst, hbefore⟩, hlast⟩ := hend
          have hlast : last.isSegment := by
            rw [Piece.isSegment, Bool.or_eq_true]
            exact .inl hlast
          exact ⟨first, [before, last], by rw [hreverse]; simp,
            by simp [hword hfirst, hword hbefore, hlast]⟩
        · cases h
      · cases h
  · cases h

/-- The tokens before the `END` are a run. -/
theorem stripEnd_isInfix (h : stripEnd word ts = some inner) : inner <:+: ts := by
  obtain ⟨first, tail, hts, _⟩ := stripEnd_eq h
  exact ⟨[], first :: tail, hts.symm⟩

/-- What follows `THEN` is a run. -/
theorem conditionThen_isInfix {condition : Fragment}
    (h : conditionThen what ts = .ok (condition, rest)) : rest <:+: ts := by
  obtain ⟨_, _, hspan, _⟩ := conditionThen_cut h
  exact (Behind.of_spanFrom hspan).isInfix

/-- The last branch runs to the end. -/
theorem lastBranch_cut {first : List Token} (h : lastBranch first ts = .ok b) :
    ∃ last, spanClause ["ELSIF", "ELSE"] ts = (last, []) ∧ b = ⟨first, [], some last⟩ := by
  unfold lastBranch at h
  split at h
  · rename_i last hlast
    cases h
    exact ⟨last, hlast, rfl⟩
  · cases h

/-- The last arm runs to the end. -/
theorem lastArm_cut {otherwise : Option (List Token)} (h : lastArm ts = .ok otherwise) :
    ∃ last, spanClause ["WHEN", "ELSE"] ts = (last, []) ∧ otherwise = some last := by
  unfold lastArm at h
  split at h
  · rename_i last hlast
    cases h
    exact ⟨last, hlast, rfl⟩
  · cases h

/-- How an `IF` was cut. -/
theorem conditional_cut (h : conditional ts = .ok form) :
    ∃ inner condition rest b, stripEnd "IF" ts = some inner ∧
      conditionThen "IF" inner = .ok (condition, rest) ∧ branches rest = .ok b ∧
      form = .conditional ⟨condition, b.first⟩ b.others b.otherwise := by
  unfold conditional at h
  split at h
  · cases h
  · rename_i inner hend
    split at h
    · cases h
    · rename_i condition rest hthen
      obtain ⟨b, hbranches, rfl⟩ := exists_of_map_ok h
      exact ⟨inner, condition, rest, b, hend, hthen, hbranches, rfl⟩

/-- How a `CASE` was cut. -/
theorem selection_cut (h : selection ts = .ok form) :
    ∃ inner front word rest a, stripEnd "CASE" ts = some inner ∧
      spanAtDepth (·.isKeyword "WHEN") inner = (front, word :: rest) ∧ arms rest = .ok a ∧
      form = .selection (if front.isEmpty then none else some (ofTokens front)) a.arms
        a.otherwise := by
  unfold selection at h
  split at h
  · cases h
  · rename_i inner hend
    split at h
    · cases h
    · rename_i front word rest hspan
      obtain ⟨a, harms, rfl⟩ := exists_of_map_ok h
      exact ⟨inner, front, word, rest, a, hend, hspan, harms, rfl⟩

/-- How a loop was cut into head and body. -/
theorem loopParts_cut (h : loopParts what ts = .ok (head, body)) :
    ∃ inner word, stripEnd "LOOP" ts = some inner ∧
      spanAtDepth (·.isKeyword "LOOP") inner = (head, word :: body) := by
  unfold loopParts at h
  split at h
  · cases h
  · rename_i inner hend
    split at h
    · cases h
    · rename_i front word rest hspan
      cases h
      exact ⟨inner, word, hend, hspan⟩

/-- A loop runs over a range or a query. -/
theorem loopOver_cut (h : loopOver name head body = .ok form) :
    (∃ front dots upper, spanAtDepth (·.isOp "..") head = (front, dots :: upper) ∧
      form = .rangeLoop name (isReverse front) (ofTokens (lowerBound front))
        (ofTokens upper) body) ∨
    form = .queryLoop name (loopQuery head) body := by
  unfold loopOver at h
  split at h
  · cases h
  · split at h
    · rename_i front dots upper hspan
      split at h
      · cases h
      · cases h
        exact .inl ⟨front, dots, upper, hspan, rfl⟩
    · cases h
      exact .inr rfl

/-- How a `FOR` was cut. -/
theorem counted_cut (h : counted ts = .ok form) :
    ∃ counter word rest head body, ts = counter :: word :: rest ∧ counter.isIdentifier ∧
      word.isKeyword "IN" ∧ loopParts "FOR" rest = .ok (head, body) ∧
      loopOver counter.text head body = .ok form := by
  unfold counted at h
  split at h
  · cases h
  · rename_i counter rest
    split at h
    · rename_i hcounter
      unfold countedIn at h
      split at h
      · cases h
      · rename_i word rest
        split at h
        · rename_i hword
          unfold countedLoop at h
          split at h
          · cases h
          · rename_i head body hparts
            exact ⟨counter, word, rest, head, body, rfl, hcounter, hword, hparts, h⟩
        · cases h
    · cases h

/-- How a `WHILE` was cut. -/
theorem whileLoop_cut (h : whileLoop ts = .ok form) :
    ∃ head body, loopParts "WHILE" ts = .ok (head, body) ∧
      form = .whileLoop (ofTokens head) body := by
  unfold whileLoop at h
  split at h
  · cases h
  · rename_i head body hparts
    split at h
    · cases h
    · cases h
      exact ⟨head, body, hparts, rfl⟩

/-- How a loop without a head was cut. -/
theorem endlessLoop_cut (h : endlessLoop ts = .ok form) :
    ∃ body, stripEnd "LOOP" ts = some body ∧ form = .endlessLoop body := by
  unfold endlessLoop at h
  split at h
  · cases h
  · rename_i body hend
    cases h
    exact ⟨body, hend, rfl⟩

/-! ### Where the inner lists stand -/

/-- Every branch is a run of the tokens. -/
theorem branches_isInfix (h : branches ts = .ok b) : ∀ body ∈ b.bodies, body <:+: ts := by
  fun_induction branches ts generalizing b with
  | case1 ts body hspan =>
    cases h
    simpa [Branches.bodies] using isInfix_of_spanFrom hspan
  | case2 => cases h
  | case3 ts body word rest hspan _ condition rest' hthen hlt ih =>
    obtain ⟨later, hlater, rfl⟩ := exists_of_map_ok h
    have hrest := (conditionThen_isInfix hthen).trans (Behind.of_spanFrom hspan).isInfix
    have hbodies := ih hlater
    simp only [Branches.bodies, map_cons, cons_append, mem_cons] at hbodies ⊢
    rintro body' (rfl | rfl | hbody)
    · exact isInfix_of_spanFrom hspan
    · exact (hbodies _ (.inl rfl)).trans hrest
    · exact (hbodies _ (.inr hbody)).trans hrest
  | case4 ts body word rest hspan _ =>
    obtain ⟨last, hlast, rfl⟩ := lastBranch_cut h
    have hrest := (isInfix_of_spanFrom hlast).trans (Behind.of_spanFrom hspan).isInfix
    simpa [Branches.bodies] using ⟨isInfix_of_spanFrom hspan, hrest⟩

/-- Every arm is a run of the tokens. -/
theorem arms_isInfix {a : Arms} (h : arms ts = .ok a) : ∀ body ∈ a.bodies, body <:+: ts := by
  fun_induction arms ts generalizing a with
  | case1 => cases h
  | case2 ts condition rest hthen body hspan =>
    cases h
    simpa [Arms.bodies] using (isInfix_of_spanFrom hspan).trans (conditionThen_isInfix hthen)
  | case3 ts condition rest hthen body word rest' hspan _ =>
    obtain ⟨otherwise, hotherwise, rfl⟩ := exists_of_map_ok h
    obtain ⟨last, hlast, rfl⟩ := lastArm_cut hotherwise
    have hrest := conditionThen_isInfix hthen
    have hbody := (isInfix_of_spanFrom hspan).trans hrest
    have hend := (isInfix_of_spanFrom hlast).trans ((Behind.of_spanFrom hspan).isInfix.trans hrest)
    simpa [Arms.bodies] using ⟨hbody, hend⟩
  | case4 ts condition rest hthen body word rest' hspan _ hlt ih =>
    obtain ⟨later, hlater, rfl⟩ := exists_of_map_ok h
    have hrest := conditionThen_isInfix hthen
    have hbodies := ih hlater
    simp only [Arms.bodies, map_cons, cons_append, mem_cons] at hbodies ⊢
    rintro body' (rfl | hbody)
    · exact (isInfix_of_spanFrom hspan).trans hrest
    · exact (hbodies _ hbody).trans ((Behind.of_spanFrom hspan).isInfix.trans hrest)

/-- The body of a loop is a run of the tokens. -/
theorem loopParts_isInfix (h : loopParts what ts = .ok (head, body)) : body <:+: ts := by
  obtain ⟨inner, word, hend, hspan⟩ := loopParts_cut h
  exact (Behind.of_spanFrom hspan).isInfix.trans (stripEnd_isInfix hend)

/-- A loop has one inner list. -/
theorem loopOver_bodies (h : loopOver name head body = .ok form) : form.bodies = [body] := by
  obtain ⟨_, _, _, _, rfl⟩ | rfl := loopOver_cut h
  · rfl
  · rfl

/-! ### Ways of recognising a statement -/

/-- How a statement without inner lists is read from its tokens. -/
inductive SimpleReading : List Token → Simple → Prop
  | select (ts : List Token) : SimpleReading ts (.select (ofTokens ts))
  | insert (ts : List Token) (target : Option InsertTarget) :
      SimpleReading ts (.insert (ofTokens ts) target)
  | update (ts : List Token) : SimpleReading ts (.update (ofTokens ts))
  | delete (ts : List Token) : SimpleReading ts (.delete (ofTokens ts))
  | null {t : Token} (ht : t.kind = .keyword) : SimpleReading [t] .null
  | raise {t : Token} {rest : List Token} {s : Simple} (ht : t.kind = .keyword)
      (h : raised t.offset rest = .ok s) : SimpleReading (t :: rest) s
  | exitLoop {t : Token} {rest : List Token} {s : Simple} (ht : t.kind = .keyword)
      (h : exitStatement .exitLoop t.upper rest = .ok s) : SimpleReading (t :: rest) s
  | continueLoop {t : Token} {rest : List Token} {s : Simple} (ht : t.kind = .keyword)
      (h : exitStatement .continueLoop t.upper rest = .ok s) : SimpleReading (t :: rest) s
  | returnValue {t : Token} {rest : List Token} (ht : t.kind = .keyword) :
      SimpleReading (t :: rest)
        (.returnValue (if rest.isEmpty then none else some (ofTokens rest)))
  | cursor {t : Token} {rest : List Token} {action : CursorAction} {s : Simple}
      (ht : t.kind = .keyword) (h : cursorAction action rest = .ok s) : SimpleReading (t :: rest) s
  | execute {t : Token} {rest : List Token} {s : Simple} (ht : t.kind = .keyword)
      (h : executeImmediate rest = .ok s) : SimpleReading (t :: rest) s
  | plain {ts : List Token} {s : Simple} (h : plainStatement ts = .ok s) : SimpleReading ts s

/-- How a statement with inner lists that is no block is read after its first word. -/
inductive CompoundReading (ts : List Token) (form : Form (List Token)) : Prop
  | conditional (h : Grammar.conditional ts = .ok form)
  | selection (h : Grammar.selection ts = .ok form)
  | counted (h : Grammar.counted ts = .ok form)
  | whileLoop (h : Grammar.whileLoop ts = .ok form)
  | endlessLoop (h : Grammar.endlessLoop ts = .ok form)

/-- How a statement at `path` is recognised: with nothing inside it, with inner lists, or as a
block. -/
inductive Recognition (path : String) : List Token → Recognised → Prop
  | simple {ts : List Token} {s : Simple} (h : SimpleReading ts s) :
      Recognition path ts (quiet (.simple s))
  | compound {t : Token} {rest : List Token} {form : Form (List Token)} (ht : t.kind = .keyword)
      (h : CompoundReading rest form) : Recognition path (t :: rest) (quiet form)
  | block {t : Token} {rest : List Token} {sections : Sections}
      (ht : t.isKeyword "DECLARE" ∨ t.isKeyword "BEGIN")
      (hsplit : Sections.split (t :: rest) = .ok sections) (htrailing : sections.trailing = []) :
      Recognition path (t :: rest) (blockOf path sections)

/-- A leading word is in the table. -/
theorem mem_leadWords {lead : Lead} (h : leadOf t = some lead) :
    t.kind = .keyword ∧ (t.upper, lead) ∈ leadWords := by
  unfold leadOf at h
  split at h
  · rename_i hkind
    obtain ⟨before, after, hwords, -⟩ := lookup_eq_some_iff.1 h
    exact ⟨hkind, by simp [hwords]⟩
  · cases h

/-- A block starts with `DECLARE` or `BEGIN`. -/
theorem isKeyword_of_leadOf_block (h : leadOf t = some .block) :
    t.isKeyword "DECLARE" ∨ t.isKeyword "BEGIN" := by
  obtain ⟨hkind, hmem⟩ := mem_leadWords h
  have hupper : Text.upper t.text = "DECLARE" ∨ Text.upper t.text = "BEGIN" := by
    simpa [leadWords, Piece.upper] using hmem
  have hdeclare : Text.upper "DECLARE" = "DECLARE" := by decide
  have hbegin : Text.upper "BEGIN" = "BEGIN" := by decide
  simpa [Piece.isKeyword, Text.sameWord, hkind, hdeclare, hbegin] using hupper

/-- Every recognised statement is recognised in one of these ways. -/
theorem Recognition.of_recognise (h : recognise path ts = .ok r) : Recognition path ts r := by
  have hplain : ∀ {ts : List Token}, ((plainStatement ts).map fun s => quiet (.simple s)) = .ok r →
      Recognition path ts r := by
    intro ts h
    obtain ⟨s, hread, rfl⟩ := exists_of_map_ok h
    exact .simple (.plain hread)
  cases ts with
  | nil => exact hplain h
  | cons t rest =>
    simp only [recognise] at h
    split at h
    · rename_i lead hlead
      obtain ⟨ht, -⟩ := mem_leadWords hlead
      cases lead with
      | conditional =>
        obtain ⟨form, hread, rfl⟩ := exists_of_map_ok h
        exact .compound ht (.conditional hread)
      | selection =>
        obtain ⟨form, hread, rfl⟩ := exists_of_map_ok h
        exact .compound ht (.selection hread)
      | counted =>
        obtain ⟨form, hread, rfl⟩ := exists_of_map_ok h
        exact .compound ht (.counted hread)
      | whileLoop =>
        obtain ⟨form, hread, rfl⟩ := exists_of_map_ok h
        exact .compound ht (.whileLoop hread)
      | endlessLoop =>
        obtain ⟨form, hread, rfl⟩ := exists_of_map_ok h
        exact .compound ht (.endlessLoop hread)
      | block =>
        simp only [recogniseLead, Grammar.block] at h
        split at h
        · cases h
        · rename_i sections hsplit
          split at h
          · rename_i htrailing
            cases h
            exact .block (isKeyword_of_leadOf_block hlead) hsplit (isEmpty_iff.1 htrailing)
          · cases h
      | select => cases h; exact .simple (.select _)
      | insert => cases h; exact .simple (.insert _ _)
      | update => cases h; exact .simple (.update _)
      | delete => cases h; exact .simple (.delete _)
      | returnValue => cases h; exact .simple (.returnValue ht)
      | null =>
        simp only [recogniseLead] at h
        split at h
        · rename_i hempty
          cases h
          rw [isEmpty_iff.1 hempty]
          exact .simple (.null ht)
        · exact hplain h
      | raise =>
        obtain ⟨s, hread, rfl⟩ := exists_of_map_ok h
        exact .simple (.raise ht hread)
      | exitLoop =>
        obtain ⟨s, hread, rfl⟩ := exists_of_map_ok h
        exact .simple (.exitLoop ht hread)
      | continueLoop =>
        obtain ⟨s, hread, rfl⟩ := exists_of_map_ok h
        exact .simple (.continueLoop ht hread)
      | cursor action =>
        obtain ⟨s, hread, rfl⟩ := exists_of_map_ok h
        exact .simple (.cursor ht hread)
      | execute =>
        obtain ⟨s, hread, rfl⟩ := exists_of_map_ok h
        exact .simple (.execute ht hread)
    · exact hplain h

/-- These readings give compound forms. -/
theorem CompoundReading.isCompound (h : CompoundReading ts form) : form.isCompound := by
  cases h with
  | conditional h =>
    obtain ⟨_, _, _, _, _, _, _, rfl⟩ := conditional_cut h
    rfl
  | selection h =>
    obtain ⟨_, _, _, _, _, _, _, _, rfl⟩ := selection_cut h
    rfl
  | counted h =>
    obtain ⟨_, _, _, _, _, _, _, _, _, h⟩ := counted_cut h
    obtain ⟨_, _, _, _, rfl⟩ | rfl := loopOver_cut h <;> rfl
  | whileLoop h =>
    obtain ⟨_, _, _, rfl⟩ := whileLoop_cut h
    rfl
  | endlessLoop h =>
    obtain ⟨_, _, rfl⟩ := endlessLoop_cut h
    rfl

/-- Inner lists are runs of the tokens. -/
theorem CompoundReading.isInfix (h : CompoundReading ts form) :
    ∀ body ∈ form.bodies, body <:+: ts := by
  cases h with
  | conditional h =>
    obtain ⟨inner, condition, rest, b, hend, hthen, hbranches, rfl⟩ := conditional_cut h
    have hrest := (conditionThen_isInfix hthen).trans (stripEnd_isInfix hend)
    exact fun body hbody => (branches_isInfix hbranches body hbody).trans hrest
  | selection h =>
    obtain ⟨inner, front, word, rest, a, hend, hspan, harms, rfl⟩ := selection_cut h
    have hrest := (Behind.of_spanFrom hspan).isInfix.trans (stripEnd_isInfix hend)
    exact fun body hbody => (arms_isInfix harms body hbody).trans hrest
  | counted h =>
    obtain ⟨counter, word, rest, head, body, rfl, _, _, hparts, hover⟩ := counted_cut h
    rw [loopOver_bodies hover]
    have hrest : rest <:+: counter :: word :: rest := ⟨[counter, word], [], by simp⟩
    simpa using (loopParts_isInfix hparts).trans hrest
  | whileLoop h =>
    obtain ⟨head, body, hparts, rfl⟩ := whileLoop_cut h
    simpa [Form.bodies] using loopParts_isInfix hparts
  | endlessLoop h =>
    obtain ⟨body, hend, rfl⟩ := endlessLoop_cut h
    simpa [Form.bodies] using stripEnd_isInfix hend

/-- The lists of a block stand behind its first word. -/
theorem blockOf_behind (h : Sections.split ts = .ok sections) :
    ∀ slice ∈ (blockOf path sections).form.bodies, Behind slice.tokens ts := by
  obtain ⟨hstatements, hhandlers⟩ := Sections.split_behind h
  intro slice hslice
  simp only [blockOf, Form.bodies, mem_cons, mem_map] at hslice
  rcases hslice with rfl | ⟨handler, hhandler, rfl⟩
  · exact hstatements
  · cases hsection : sections.handlers with
    | none => simp [hsection, blockHandlers, HandlerSection.none] at hhandler
    | some inner =>
      rw [hsection] at hhandler
      exact .of_isInfix (readHandlers_behind hhandler).isInfix (hhandlers inner hsection)

/-- Every inner list of a statement is a run of its tokens behind the first one. -/
theorem recognise_behind (h : recognise path ts = .ok r) :
    ∀ slice ∈ r.form.bodies, Behind slice.tokens ts := by
  cases Recognition.of_recognise h with
  | simple =>
    intro slice hslice
    cases hslice
  | @compound t rest form _ hread =>
    intro slice hslice
    simp only [quiet, Form.bodies_map, mem_map] at hslice
    obtain ⟨body, hbody, rfl⟩ := hslice
    exact ⟨[], t, rest, rfl, hread.isInfix body hbody⟩
  | block _ hsplit => exact blockOf_behind hsplit

/-- Every inner list is shorter than the statement it stands in. -/
theorem recognise_length (h : recognise path ts = .ok r) :
    ∀ slice ∈ r.form.bodies, slice.tokens.length < ts.length :=
  fun slice hslice => (recognise_behind h slice hslice).length

end Grammar

end TriggerDialect
