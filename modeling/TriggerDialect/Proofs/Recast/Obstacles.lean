import TriggerDialect.Proofs.Nesting.Brackets
import TriggerDialect.Recast.Basic

/-!
# What cannot be recast

Four constructs have no counterpart: variables of the host, outer join marks, the number of rows of
the last statement, and row numbers. `Obstacle` says when one of them stands at a token, and
`Untranslatable` when one stands anywhere in a list. Names are told by what goes before: `Place`
follows the tokens and knows whether a name at the next one is qualified, and what is written after
`SQL%` is an attribute and no name.

Calls are recast by parts. Obstacles are not cut in two by commas and closing brackets
(`untranslatable_append_iff`), so those of a list are the ones of its parts
(`untranslatable_splitCommas_iff`).
-/

namespace TriggerDialect

open List Piece

/-! ### Brackets -/

section Brackets

variable {depth : Nat} {t : Token} {ts rest : List Token} {front : List Token} {n : Nesting}

theorem Piece.kinds_of_closesWith {p q : Piece} {frame : Frame}
    (h : p.closesWith q = some frame) : p.kind = .keyword ∧ q.kind = .keyword := by
  constructor
  · by_cases hend : p.isKeyword "END"
    · exact kind_of_isKeyword hend
    · rw [closesWith_eq_none (by simpa using hend)] at h
      cases h
  · by_cases hkind : q.kind = .keyword
    · exact hkind
    · rw [closesWith_eq_none_of_next (closesAfterEnd_of_kind hkind)] at h
      cases h

/-- Nesting counts brackets in the same way, as long as none closes too many. -/
theorem Nesting.brackets_enter (h : bracketsBehind n.brackets t = some depth) :
    (n.enter t.toPiece).brackets = depth := by
  obtain ⟨brackets, frames⟩ := n
  grind [bracketsBehind, Nesting.enter]

/-- A cut is made where the stop is and where all brackets are closed. -/
theorem spanFrom_eq_cons {stop : Option Piece → Piece → Bool} {previous : Option Piece}
    (h : spanFrom stop n previous ts = (front, t :: rest)) :
    ts = front ++ t :: rest ∧ (∃ q, stop q t.toPiece) ∧
      (bracketsAfter n.brackets ts = some 0 → bracketsAfter n.brackets front = some 0) := by
  refine ⟨eq_of_spanFrom h, stop_of_spanFrom h, ?_⟩
  have hstop : ∀ {n : Nesting} {previous : Option Piece} {u : Token},
      (n.isOutside && stop previous u.toPiece) → bracketsAfter n.brackets [] = some 0 := by
    intro n previous u h
    have hn : n = .outside := beq_iff_eq.1 (Bool.and_eq_true_iff.1 h).1
    rw [hn]
    rfl
  fun_induction spanFrom stop n previous ts generalizing front with
  | case1 => cases h
  | case2 n previous u hu =>
    cases h
    exact fun _ => hstop hu
  | case3 => cases h
  | case4 n previous u v us hu =>
    cases h
    exact fun _ => hstop hu
  | case5 n previous u v us _ frame hcloses later =>
    rename_i ih
    obtain ⟨rfl, hrest⟩ := Prod.mk.inj h
    have hbrackets := ih (Prod.ext rfl hrest)
    obtain ⟨hu, hv⟩ := kinds_of_closesWith hcloses
    have hsame : (n.close frame).brackets = n.brackets := by
      unfold Nesting.close
      split <;> rfl
    rw [hsame] at hbrackets
    rw [bracketsAfter_of_kind (by simp [hu]), bracketsAfter_of_kind (by simp [hv]),
      bracketsAfter_of_kind (by simp [hu]), bracketsAfter_of_kind (by simp [hv])]
    exact hbrackets
  | case6 n previous u v us _ _ later =>
    rename_i ih
    obtain ⟨rfl, hrest⟩ := Prod.mk.inj h
    rw [bracketsAfter_cons, bracketsAfter_cons]
    intro hclosed
    obtain ⟨depth, hstep, hclosed⟩ := Option.bind_eq_some_iff.1 hclosed
    rw [hstep, Option.bind_some]
    obtain rfl := Nesting.brackets_enter hstep
    exact ih (Prod.ext rfl hrest) hclosed

theorem spanAtDepth_eq_cons {stop : Piece → Bool} (h : spanAtDepth stop ts = (front, t :: rest))
    (hclosed : bracketsAfter 0 ts = some 0) :
    ts = front ++ t :: rest ∧ stop t.toPiece ∧ bracketsAfter 0 front = some 0 := by
  obtain ⟨happend, ⟨_, hstop⟩, hfront⟩ := spanFrom_eq_cons h
  exact ⟨happend, hstop, hfront hclosed⟩

end Brackets

namespace Recast

variable {ctx : Context} {t s : Token} {ts part more rest value target : List Token} {depth : Nat}
  {r : Remark} {word : String}

/-- What stands before the last `AS` closes all brackets. -/
theorem splitLastAs_eq_some (h : splitLastAs ts = some (value, target))
    (hclosed : bracketsAfter 0 ts = some 0) :
    ∃ word, word.isKeyword "AS" ∧ ts = value ++ word :: target ∧
      bracketsAfter 0 value = some 0 := by
  fun_induction splitLastAs ts generalizing value with
  | case1 => cases h
  | case2 ts front word rest hspan hlt hnone ih =>
    cases h
    obtain ⟨rfl, hword, hfront⟩ := spanAtDepth_eq_cons hspan hclosed
    exact ⟨word, hword, rfl, hfront⟩
  | case3 ts front word rest hspan hlt inside last hsome ih =>
    cases h
    obtain ⟨rfl, hword, hfront⟩ := spanAtDepth_eq_cons hspan hclosed
    have hkind : word.kind ≠ .punctuation := by simp [kind_of_isKeyword hword]
    rw [bracketsAfter_append, hfront, Option.bind_some, bracketsAfter_of_kind hkind] at hclosed
    obtain ⟨word', hword', rfl, hinside⟩ := ih hsome hclosed
    refine ⟨word', hword', by simp, ?_⟩
    rw [bracketsAfter_append, hfront, Option.bind_some, bracketsAfter_of_kind hkind, hinside]

/-! ### Places -/

/-- What the tokens before a place have to do with a name that stands there. -/
inductive Link where
  /-- Nothing. -/
  | apart
  /-- They end in a name, which can go on behind a dot. -/
  | name
  /-- They end in the name `SQL` without a qualifier. -/
  | sql
  /-- They end in a name and a dot, so that a name is qualified. -/
  | dot
  /-- They end in `SQL%`, so that a name may be an attribute. -/
  | percent
deriving Repr, DecidableEq

/-- What a token makes of it. Reserved words are names only behind the dot of a name. -/
def Link.next (link : Link) (t : Token) : Link :=
  if t.kind = .identifier then
    if link = .dot then .name
    else if link = .percent ∧ (sqlAttribute? t.upper).isSome then .apart
    else if t.upper = "SQL" then .sql
    else .name
  else if t.kind = .keyword then if link = .dot then .name else .apart
  else if t.isPunct '.' then if link = .name ∨ link = .sql then .dot else .apart
  else if t.isOp "%" then if link = .sql then .percent else .apart
  else .apart

namespace Link

variable (link : Link)

theorem next_identifier (h : t.kind = .identifier) :
    link.next t = if link = .dot then .name
      else if link = .percent ∧ (sqlAttribute? t.upper).isSome then .apart
      else if t.upper = "SQL" then .sql
      else .name := by
  rw [next, if_pos h]

theorem next_keyword (h : t.kind = .keyword) :
    link.next t = if link = .dot then .name else .apart := by
  rw [next, if_neg (by simp [h]), if_pos h]

theorem next_dot (h : t.isPunct '.') :
    link.next t = if link = .name ∨ link = .sql then .dot else .apart := by
  have hkind := kind_of_isPunct h
  rw [next, if_neg (by simp [hkind]), if_neg (by simp [hkind]), if_pos h]

theorem next_percent (h : t.isOp "%") : link.next t = if link = .sql then .percent else .apart := by
  have hkind := kind_of_isOp h
  rw [next, if_neg (by simp [hkind]), if_neg (by simp [hkind]),
    if_neg (by simp [isPunct, hkind]), if_pos h]

/-- The tokens that are told apart. -/
theorem next_cases (t : Token) :
    t.kind = .identifier ∨ t.kind = .keyword ∨ t.isPunct '.' ∨ t.isOp "%" ∨
      ∀ link : Link, link.next t = .apart := by
  refine Classical.byContradiction fun h => ?_
  simp only [not_or] at h
  obtain ⟨hname, hkeyword, hdot, hpercent, hother⟩ := h
  refine hother fun link => ?_
  rw [next, if_neg hname, if_neg hkeyword, if_neg hdot, if_neg hpercent]

end Link

/-- A place among tokens. -/
structure Place where
  link : Link
  /-- Whether `INTO` stands directly before. -/
  into : Bool
deriving Repr, DecidableEq

namespace Place

/-- The beginning. -/
def start : Place := ⟨.apart, false⟩

/-- The place behind a token. -/
def next (p : Place) (t : Token) : Place := ⟨p.link.next t, t.isKeyword "INTO"⟩

/-- The place behind several tokens. -/
def after (p : Place) (ts : List Token) : Place := ts.foldl next p

@[simp] theorem after_nil (p : Place) : p.after [] = p := rfl

@[simp] theorem after_cons (p : Place) (t : Token) (ts : List Token) :
    p.after (t :: ts) = (p.next t).after ts := rfl

theorem after_append (p : Place) (ts us : List Token) :
    p.after (ts ++ us) = (p.after ts).after us := foldl_append

/-- Behind a mark other than a dot everything starts anew. -/
theorem next_mark (p : Place) (hkind : t.kind = .punctuation) (hdot : t.isPunct '.' = false) :
    p.next t = .start := by
  have hoperator : t.isOp "%" = false := by simp [isOp, hkind]
  simp [next, start, Link.next, hkind, hdot, hoperator, isKeyword]

end Place

/-! ### Obstacles -/

/-- `t` is the word as a name of its own, neither qualified nor a qualifier. -/
structure IsBareName (word : String) (p : Place) (t : Token) (rest : List Token) : Prop where
  kind : t.kind = .identifier
  text : t.upper = word
  unqualified : p.link ≠ .dot
  single : (chain rest).1 = []

/-- The name before the first dot of a bind variable. -/
def bindHead (t : Token) : String := String.ofList ((t.text.toList.drop 1).takeWhile (· != '.'))

/-- At `t`, with `rest` behind it, stands something that cannot be recast. -/
inductive Obstacle (ctx : Context) (p : Place) (t : Token) (rest : List Token) : Remark → Prop
  /-- A variable of the host: its name is that of no row. -/
  | hostBind (hkind : t.kind = .bindVariable)
      (hnew : Text.sameWord (bindHead t) ctx.newAlias = false)
      (hold : Text.sameWord (bindHead t) ctx.oldAlias = false) :
      Obstacle ctx p t rest ⟨.hostBind t.text, t.offset⟩
  /-- `(+)`. -/
  | outerJoin (hmark : startsOuterJoin (t :: rest)) :
      Obstacle ctx p t rest ⟨.outerJoin, t.offset⟩
  /-- `SQL%ROWCOUNT`. -/
  | rowCount (hname : IsBareName "SQL" p t rest) (hasks : asksRowCount rest) :
      Obstacle ctx p t rest ⟨.rowCount, t.offset⟩
  /-- `ROWNUM` that is not called and that no template replaces. -/
  | rowNumber (hname : IsBareName "ROWNUM" p t rest) (hcall : startsCall rest = false)
      (htemplate : ∀ template, ctx.mapping.function? "ROWNUM" = some template →
        template.hasPlaces) :
      Obstacle ctx p t rest ⟨.rowNumber, t.offset⟩

/-- At `t` starts a `CAST` that is recast: `value` and `target` are its two sides. -/
structure IsCast (ctx : Context) (p : Place) (t : Token) (rest value target : List Token) :
    Prop where
  name : IsBareName "CAST" p t rest
  noTemplate : ctx.mapping.function? "CAST" = none
  noCursor : ctx.cursors.contains "CAST" = false
  noTable : p.into = false
  sides : ∃ inner after, bracketGroup rest = some (inner, after) ∧
    splitLastAs inner = some (value, target)
  type : ∃ type, DeclaredType.parse? (render target) = some type

/-- A `CAST` with these sides is recast somewhere in a list. -/
inductive CastIn (ctx : Context) (value target : List Token) : Place → List Token → Prop
  | here {p t rest} (h : IsCast ctx p t rest value target) : CastIn ctx value target p (t :: rest)
  | later {p t rest} (h : CastIn ctx value target (p.next t) rest) :
      CastIn ctx value target p (t :: rest)

/-- An obstacle stands somewhere in a list. The value of a `CAST` is an expression of its own. -/
inductive Untranslatable (ctx : Context) (r : Remark) : Place → List Token → Prop
  | here {p t rest} (h : Obstacle ctx p t rest r) : Untranslatable ctx r p (t :: rest)
  | inCast {p t rest value target} (hcast : IsCast ctx p t rest value target)
      (h : Untranslatable ctx r .start value) : Untranslatable ctx r p (t :: rest)
  | later {p t rest} (h : Untranslatable ctx r (p.next t) rest) : Untranslatable ctx r p (t :: rest)

variable {p q : Place}

theorem startsOuterJoin_of_head (h : t.isPunct '(' = false) (rest : List Token) :
    startsOuterJoin (t :: rest) = false := by
  unfold startsOuterJoin
  split
  · rename_i heq
    cases heq
    rw [h]
    rfl
  · rfl

theorem opening_of_startsOuterJoin (h : startsOuterJoin (t :: rest)) :
    t.isPunct '(' = true := by
  by_cases hopening : t.isPunct '(' = true
  · exact hopening
  · rw [startsOuterJoin_of_head (by simpa using hopening)] at h
    cases h

theorem kind_of_startsOuterJoin (h : startsOuterJoin (t :: rest)) : t.kind = .punctuation :=
  kind_of_isPunct (opening_of_startsOuterJoin h)

/-- Obstacles start at bind variables, opening brackets and names. -/
theorem Obstacle.kind (h : Obstacle ctx p t rest r) :
    t.kind = .bindVariable ∨ t.isPunct '(' = true ∨ t.kind = .identifier := by
  cases h with
  | hostBind hkind => exact .inl hkind
  | outerJoin hmark => exact .inr (.inl (opening_of_startsOuterJoin hmark))
  | rowCount hname => exact .inr (.inr hname.kind)
  | rowNumber hname => exact .inr (.inr hname.kind)

/-! ### Cutting lists -/

/-- A name of several segments has a dot. -/
theorem point_mem_join (first second : String) (others : List String) :
    '.' ∈ (Text.join "." (first :: second :: others)).toList := by
  simp [Text.join]

theorem upper_join_ne (hword : '.' ∉ word.toList) (first second : String) (others : List String) :
    Text.upper (Text.join "." (first :: second :: others)) ≠ word := by
  rintro rfl
  refine hword ?_
  rw [Text.toList_upper]
  exact mem_map.2 ⟨'.', point_mem_join first second others, rfl⟩

theorem chain_of_head (h : t.isPunct '.' = false) (rest : List Token) :
    chain (t :: rest) = ([], t :: rest) := by
  cases rest with
  | nil => rfl
  | cons u rest => simp [chain, h]

theorem chain_eq_nil_of_append (h : (chain (ts ++ more)).1 = []) : (chain ts).1 = [] := by
  match ts with
  | [] => rfl
  | [t] => rfl
  | t :: u :: ts =>
    simp only [cons_append, chain] at h ⊢
    split at h
    · cases h
    · rename_i hdot
      rw [if_neg hdot]

/-- A token that ends a part: the mark before which an argument ends, or the word before a type. -/
structure EndsPart (s : Token) : Prop where
  kind : s.kind = .punctuation ∨ s.kind = .keyword
  opening : s.isPunct '(' = false
  rowCount : s.isWord "ROWCOUNT" = false

theorem EndsPart.operator (hs : EndsPart s) (op : String) : s.isOp op = false := by
  rcases hs.kind with hkind | hkind <;> simp [isOp, hkind]

/-- A mark that ends a part: a comma or a closing bracket. -/
structure EndsArgument (s : Token) : Prop where
  kind : s.kind = .punctuation
  opening : s.isPunct '(' = false
  dot : s.isPunct '.' = false

theorem endsArgument_of_isPunct {mark : Char} (h : s.isPunct mark) (hopening : mark ≠ '(')
    (hdot : mark ≠ '.') : EndsArgument s :=
  ⟨kind_of_isPunct h, isPunct_eq_false h hopening, isPunct_eq_false h hdot⟩

theorem EndsArgument.endsPart (hs : EndsArgument s) : EndsPart s :=
  ⟨.inl hs.kind, hs.opening, by simp [isWord, hs.kind]⟩

theorem endsPart_as (h : s.isKeyword "AS") : EndsPart s := by
  have hkind := kind_of_isKeyword h
  refine ⟨.inr hkind, isPunct_eq_false_of_kind (by simp [hkind]) _, ?_⟩
  have htext : Text.upper s.text = "AS" := beq_iff_eq.1 (Bool.and_eq_true_iff.1 h).2
  rw [isWord, Text.sameWord, htext, Bool.and_eq_false_iff]
  exact .inr (by decide)

theorem asksRowCount_append (hs : EndsPart s) (ts more : List Token) :
    asksRowCount (ts ++ s :: more) = asksRowCount ts := by
  match ts with
  | [] =>
    cases more with
    | nil => rfl
    | cons u more => simp [asksRowCount, hs.operator]
  | [t] => simp [asksRowCount, hs.rowCount]
  | t :: u :: ts => rfl

/-- An outer join mark does not go beyond what closes all brackets. -/
theorem startsOuterJoin_append (h : bracketsAfter depth (t :: ts) = some 0) :
    startsOuterJoin (t :: (ts ++ more)) = startsOuterJoin (t :: ts) := by
  by_cases hopening : t.isPunct '(' = true
  · rw [bracketsAfter_opening hopening] at h
    match ts with
    | [] => simp [bracketsAfter] at h
    | [u] =>
      have hplus : u.isOp "+" = false := by
        rw [← Bool.not_eq_true]
        intro hplus
        rw [bracketsAfter_of_kind (by simp [kind_of_isOp hplus]), bracketsAfter] at h
        cases h
      cases more with
      | nil => rfl
      | cons v more => simp [startsOuterJoin, hplus]
    | u :: v :: ts => rfl
  · rw [startsOuterJoin_of_head (by simpa using hopening),
      startsOuterJoin_of_head (by simpa using hopening)]

theorem startsCall_append (hs : EndsPart s) (h : bracketsAfter depth ts = some 0) :
    startsCall (ts ++ s :: more) = startsCall ts := by
  cases ts with
  | nil => simp [startsCall, hs.opening]
  | cons t ts => simp only [cons_append, startsCall, startsOuterJoin_append h]

theorem IsBareName.of_append (h : IsBareName word p t (ts ++ more)) : IsBareName word p t ts :=
  ⟨h.kind, h.text, h.unqualified, chain_eq_nil_of_append h.single⟩

theorem IsBareName.append (h : IsBareName word p t ts) (hs : EndsArgument s) :
    IsBareName word p t (ts ++ s :: more) := by
  refine ⟨h.kind, h.text, h.unqualified, ?_⟩
  have hsegment : s.isSegment = false := by simp [isSegment, hs.kind]
  match ts with
  | [] => rw [nil_append, chain_of_head hs.dot]
  | [u] => simp [chain, hsegment]
  | u :: v :: ts =>
    have hsingle := h.single
    simp only [cons_append, chain] at hsingle ⊢
    split at hsingle
    · cases hsingle
    · rename_i hdot
      rw [if_neg hdot]

/-- What comes behind the end of a part is no obstacle's. -/
theorem Obstacle.of_append (hs : EndsPart s) (hclosed : bracketsAfter depth (t :: ts) = some 0)
    (h : Obstacle ctx p t (ts ++ s :: more) r) : Obstacle ctx p t ts r := by
  cases h with
  | hostBind hkind hnew hold => exact .hostBind hkind hnew hold
  | outerJoin hmark =>
    rw [startsOuterJoin_append hclosed] at hmark
    exact .outerJoin hmark
  | rowCount hname hasks =>
    rw [asksRowCount_append hs] at hasks
    exact .rowCount hname.of_append hasks
  | rowNumber hname hcall htemplate =>
    obtain ⟨depth', htail⟩ := exists_bracketsAfter_tail hclosed
    rw [startsCall_append hs htail] at hcall
    exact .rowNumber hname.of_append hcall htemplate

theorem Obstacle.append (hs : EndsArgument s) (hclosed : bracketsAfter depth (t :: ts) = some 0)
    (h : Obstacle ctx p t ts r) : Obstacle ctx p t (ts ++ s :: more) r := by
  cases h with
  | hostBind hkind hnew hold => exact .hostBind hkind hnew hold
  | outerJoin hmark => exact .outerJoin (by rw [startsOuterJoin_append hclosed, hmark])
  | rowCount hname hasks =>
    exact .rowCount (hname.append hs) (by rw [asksRowCount_append hs.endsPart, hasks])
  | rowNumber hname hcall htemplate =>
    obtain ⟨depth', htail⟩ := exists_bracketsAfter_tail hclosed
    exact .rowNumber (hname.append hs) (by rw [startsCall_append hs.endsPart htail, hcall])
      htemplate

theorem bracketGroup_append {inner after : List Token} (h : bracketGroup ts = some (inner, after)) :
    bracketGroup (ts ++ more) = some (inner, after ++ more) := by
  obtain ⟨opening, closing, hopening, hclosing, rfl, hinner⟩ := bracketGroup_iff.1 h
  exact bracketGroup_iff.2 ⟨opening, closing, hopening, hclosing, by simp, hinner⟩

theorem IsCast.append (h : IsCast ctx p t ts value target) :
    IsCast ctx p t (ts ++ more) value target := by
  obtain ⟨inner, after, hgroup, hsides⟩ := h.sides
  refine ⟨⟨h.name.kind, h.name.text, h.name.unqualified, ?_⟩, h.noTemplate, h.noCursor, h.noTable,
    ⟨inner, after ++ more, bracketGroup_append hgroup, hsides⟩, h.type⟩
  obtain ⟨opening, closing, hopening, -, rfl, -⟩ := bracketGroup_iff.1 hgroup
  rw [cons_append, chain_of_head (isPunct_eq_false hopening (by decide))]

theorem IsCast.of_append (hs : s.isPunct '(' = false) (hclosed : bracketsAfter depth ts = some 0)
    (h : IsCast ctx p t (ts ++ s :: more) value target) : IsCast ctx p t ts value target := by
  refine ⟨h.name.of_append, h.noTemplate, h.noCursor, h.noTable, ?_, h.type⟩
  obtain ⟨inner, after, hgroup, hsides⟩ := h.sides
  cases ts with
  | nil => simp [bracketGroup, hs] at hgroup
  | cons u ts =>
    by_cases hopening : u.isPunct '(' = true
    · rw [bracketsAfter_opening hopening] at hclosed
      obtain ⟨inner', after', hcut⟩ := exists_throughClosing depth 0 hclosed
      have hown : bracketGroup (u :: ts) = some (inner', after') := by
        rw [bracketGroup, if_pos hopening, hcut]
      rw [bracketGroup_append hown] at hgroup
      cases hgroup
      exact ⟨_, _, hown, hsides⟩
    · simp [bracketGroup, hopening] at hgroup

theorem Untranslatable.later_append (h : Untranslatable ctx r (p.after ts) rest) :
    Untranslatable ctx r p (ts ++ rest) := by
  induction ts generalizing p with
  | nil => exact h
  | cons t ts ih => exact .later (ih h)

theorem CastIn.later_append (h : CastIn ctx value target (p.after ts) rest) :
    CastIn ctx value target p (ts ++ rest) := by
  induction ts generalizing p with
  | nil => exact h
  | cons t ts ih => exact .later (ih h)

theorem CastIn.append (h : CastIn ctx value target p ts) :
    CastIn ctx value target p (ts ++ more) := by
  induction h with
  | here hcast => exact .here hcast.append
  | later _ ih => exact .later ih

theorem Untranslatable.append (hs : EndsArgument s) (hclosed : bracketsAfter depth ts = some 0)
    (h : Untranslatable ctx r p ts) : Untranslatable ctx r p (ts ++ s :: more) := by
  induction ts generalizing p depth with
  | nil => cases h
  | cons t ts ih =>
    obtain ⟨depth', htail⟩ := exists_bracketsAfter_tail hclosed
    cases h with
    | here hobstacle => exact .here (hobstacle.append hs hclosed)
    | inCast hcast hvalue => exact .inCast hcast.append hvalue
    | later hlater => exact .later (ih htail hlater)

/-- Where a part ends, obstacles stand before or behind. -/
theorem Untranslatable.of_append (hs : EndsPart s) (hclosed : bracketsAfter depth ts = some 0)
    (h : Untranslatable ctx r p (ts ++ s :: more)) :
    Untranslatable ctx r p ts ∨ Untranslatable ctx r ((p.after ts).next s) more := by
  induction ts generalizing p depth with
  | nil =>
    have hidentifier : s.kind ≠ .identifier := by rcases hs.kind with hk | hk <;> simp [hk]
    have hbind : s.kind ≠ .bindVariable := by rcases hs.kind with hk | hk <;> simp [hk]
    cases h with
    | here hobstacle => simpa [hidentifier, hbind, hs.opening] using hobstacle.kind
    | inCast hcast => exact absurd hcast.name.kind hidentifier
    | later hlater => exact .inr hlater
  | cons t ts ih =>
    obtain ⟨depth', htail⟩ := exists_bracketsAfter_tail hclosed
    cases h with
    | here hobstacle => exact .inl (.here (hobstacle.of_append hs hclosed))
    | inCast hcast hvalue => exact .inl (.inCast (hcast.of_append hs.opening htail) hvalue)
    | later hlater =>
      rcases ih htail hlater with hpart | hmore
      · exact .inl (.later hpart)
      · exact .inr hmore

/-- At a comma or a closing bracket, obstacles stand before or behind. -/
theorem untranslatable_append_iff (hs : EndsArgument s)
    (hclosed : bracketsAfter depth ts = some 0) :
    Untranslatable ctx r p (ts ++ s :: more) ↔
      Untranslatable ctx r p ts ∨ Untranslatable ctx r .start more := by
  have hnext : (p.after ts).next s = .start := Place.next_mark _ hs.kind hs.dot
  constructor
  · intro h
    have hcut := h.of_append hs.endsPart hclosed
    rwa [hnext] at hcut
  · rintro (hpart | hmore)
    · exact hpart.append hs hclosed
    · refine Untranslatable.later_append (.later ?_)
      rwa [hnext]

theorem splitCommas_step {comma : Token} (hclosed : bracketsAfter 0 ts = some 0)
    (h : (spanAtDepth (·.isPunct ',') ts).2 = comma :: rest) :
    (spanAtDepth (·.isPunct ',') ts).1 ++ comma :: rest = ts ∧ EndsArgument comma ∧
      bracketsAfter 0 (spanAtDepth (·.isPunct ',') ts).1 = some 0 ∧
      bracketsAfter 0 rest = some 0 := by
  obtain ⟨happend, hcomma, hfront⟩ := spanAtDepth_eq_cons (Prod.ext rfl h) hclosed
  have hends : EndsArgument comma := endsArgument_of_isPunct hcomma (by decide) (by decide)
  refine ⟨happend.symm, hends, hfront, ?_⟩
  rw [happend, bracketsAfter_append, hfront, Option.bind_some, bracketsAfter_other hends.opening
    (isPunct_eq_false hcomma (by decide))] at hclosed
  exact hclosed

/-- The obstacles of a list are those of its parts between commas. -/
theorem untranslatable_splitCommas_iff (hclosed : bracketsAfter 0 ts = some 0) :
    (∃ part ∈ splitCommas ts, Untranslatable ctx r .start part) ↔
      Untranslatable ctx r .start ts := by
  fun_induction splitCommas ts with
  | case1 ts hrest =>
    have happend := spanAtDepth_append (·.isPunct ',') ts
    rw [hrest, append_nil] at happend
    simp [happend]
  | case2 ts comma rest hrest hlt ih =>
    obtain ⟨happend, hends, hfront, hlater⟩ := splitCommas_step hclosed hrest
    have hcut : Untranslatable ctx r .start (_ ++ comma :: rest) ↔ _ :=
      untranslatable_append_iff hends hfront
    rw [happend] at hcut
    simp only [mem_cons, exists_eq_or_imp]
    rw [ih hlater, hcut]

theorem castIn_of_mem_splitCommas (hclosed : bracketsAfter 0 ts = some 0)
    (hpart : part ∈ splitCommas ts) (h : CastIn ctx value target .start part) :
    CastIn ctx value target .start ts := by
  fun_induction splitCommas ts with
  | case1 ts hrest =>
    have happend := spanAtDepth_append (·.isPunct ',') ts
    rw [hrest, append_nil] at happend
    rw [mem_singleton.1 hpart, happend] at h
    exact h
  | case2 ts comma rest hrest hlt ih =>
    obtain ⟨happend, hends, -, hlater⟩ := splitCommas_step hclosed hrest
    rw [← happend]
    rcases mem_cons.1 hpart with rfl | hpart
    · exact h.append
    · refine CastIn.later_append (.later ?_)
      rw [Place.next_mark _ hends.kind hends.dot]
      exact ih hlater hpart

/-! ### Behind the word before a type -/

/-- The second link leaves open what the first one does, and lets the same names stand alone. -/
inductive Link.Looser : Link → Link → Prop
  | refl (link : Link) : Looser link link
  | nameApart : Looser .name .apart
  | dotApart : Looser .dot .apart
  | nameSql : Looser .name .sql
  | apartPercent : Looser .apart .percent

theorem Link.Looser.next {a b : Link} (h : Looser a b) (t : Token) :
    Looser (a.next t) (b.next t) := by
  rcases next_cases t with hname | hkeyword | hdot | hpercent | hother
  · rw [next_identifier a hname, next_identifier b hname]
    cases h with
    | dotApart =>
      by_cases hsql : t.upper = "SQL"
      · simp [hsql, sqlAttribute?, Looser.nameSql]
      · simp [hsql, Looser.refl]
    | apartPercent =>
      by_cases hsql : t.upper = "SQL"
      · simp [hsql, sqlAttribute?, Looser.refl]
      · by_cases hattribute : (sqlAttribute? t.upper).isSome
        · simp [hsql, hattribute, Looser.nameApart]
        · simp [hsql, hattribute, Looser.refl]
    | refl | nameApart | nameSql => exact .refl _
  · rw [next_keyword a hkeyword, next_keyword b hkeyword]
    cases h with
    | dotApart => exact .nameApart
    | refl | nameApart | nameSql | apartPercent => exact .refl _
  · rw [next_dot a hdot, next_dot b hdot]
    cases h with
    | nameApart => exact .dotApart
    | refl | dotApart | nameSql | apartPercent => exact .refl _
  · rw [next_percent a hpercent, next_percent b hpercent]
    cases h with
    | nameSql => exact .apartPercent
    | refl | nameApart | dotApart | apartPercent => exact .refl _
  · rw [hother a, hother b]
    exact .refl _

theorem Link.Looser.ne_dot {a b : Link} (h : Looser a b) (ha : a ≠ .dot) : b ≠ .dot := by
  cases h with
  | refl => exact ha
  | nameApart | dotApart | nameSql | apartPercent => simp

theorem IsBareName.of_looser (h : IsBareName word p t rest) (hlink : Link.Looser p.link q.link) :
    IsBareName word q t rest :=
  ⟨h.kind, h.text, hlink.ne_dot h.unqualified, h.single⟩

theorem Untranslatable.of_looser (h : Untranslatable ctx r p ts)
    (hlink : Link.Looser p.link q.link) (hinto : p.into = q.into) : Untranslatable ctx r q ts := by
  induction ts generalizing p q with
  | nil => cases h
  | cons t ts ih =>
    cases h with
    | here hobstacle =>
      cases hobstacle with
      | hostBind hkind hnew hold => exact .here (.hostBind hkind hnew hold)
      | outerJoin hmark => exact .here (.outerJoin hmark)
      | rowCount hname hasks => exact .here (.rowCount (hname.of_looser hlink) hasks)
      | rowNumber hname hcall htemplate =>
        exact .here (.rowNumber (hname.of_looser hlink) hcall htemplate)
    | inCast hcast hvalue =>
      exact .inCast ⟨hcast.name.of_looser hlink, hcast.noTemplate, hcast.noCursor,
        hinto ▸ hcast.noTable, hcast.sides, hcast.type⟩ hvalue
    | later hlater => exact .later (ih hlater (hlink.next t) rfl)

/-- The obstacles of what stands between the brackets of a `CAST` are on either side. -/
theorem untranslatable_of_splitLastAs (hsides : splitLastAs ts = some (value, target))
    (hclosed : bracketsAfter 0 ts = some 0) (h : Untranslatable ctx r .start ts) :
    Untranslatable ctx r .start value ∨ Untranslatable ctx r .start target := by
  obtain ⟨word, hword, rfl, hvalue⟩ := splitLastAs_eq_some hsides hclosed
  refine (h.of_append (endsPart_as hword) hvalue).imp_right fun htarget => ?_
  refine htarget.of_looser ?_ ?_
  · rw [Place.next, Link.next_keyword _ (kind_of_isKeyword hword)]
    split
    · exact .nameApart
    · exact .refl _
  · exact isKeyword_eq_false hword (by decide)

/-! ### Types without obstacles -/

/-- The types of all that looks like a `CAST`. -/
def castTargets : List Token → List (List Token)
  | [] => []
  | t :: rest =>
    let sides := (bracketGroup rest).bind fun group => splitLastAs group.1
    (if t.upper = "CAST" then (sides.map Prod.snd).toList else []) ++ castTargets rest

theorem CastIn.target_mem (h : CastIn ctx value target p ts) : target ∈ castTargets ts := by
  induction h with
  | here hcast =>
    obtain ⟨inner, after, hgroup, hsides⟩ := hcast.sides
    simp [castTargets, hcast.name.text, hgroup, hsides]
  | later _ ih => exact mem_append_right _ ih

/-- Obstacles stand only in lists with a bind variable, a bracket or one of three names. -/
theorem Untranslatable.exists_mem (h : Untranslatable ctx r p ts) :
    ∃ t ∈ ts, t.kind = .bindVariable ∨ t.isPunct '(' = true ∨
      t.upper ∈ ["SQL", "ROWNUM", "CAST"] := by
  induction ts generalizing p with
  | nil => cases h
  | cons t ts ih =>
    cases h with
    | here hobstacle =>
      refine ⟨t, by simp, ?_⟩
      cases hobstacle with
      | hostBind hkind => exact .inl hkind
      | outerJoin hmark => exact .inr (.inl (opening_of_startsOuterJoin hmark))
      | rowCount hname => exact .inr (.inr (by simp [hname.text]))
      | rowNumber hname => exact .inr (.inr (by simp [hname.text]))
    | inCast hcast => exact ⟨t, by simp, .inr (.inr (by simp [hcast.name.text]))⟩
    | later hlater =>
      obtain ⟨u, hu, hcase⟩ := ih hlater
      exact ⟨u, mem_cons_of_mem _ hu, hcase⟩

end Recast

end TriggerDialect
