import TriggerDialect.Mapping.Defaults
import TriggerDialect.Proofs.Lexing.Rendering
import TriggerDialect.Proofs.Recast.Obstacles

/-!
# Errors noted in expressions

Nothing that cannot be recast is passed over: the errors noted while tokens are recast are exactly
the obstacles among them (`error_iff_untranslatable`). The recasting takes tokens in pieces of
different length, names with their segments, attributes with `SQL%`, and calls with their brackets;
the arguments of a call are recast on their own, and where the call is kept in the end they are gone
through once more. What each step leaves to the next ones is said by `Onward`: no piece ends within
a name or an attribute, and what the step has not noted is still ahead.
-/

namespace TriggerDialect.Recast

open List Text Piece Place

variable {afterInto : Bool} {inner : List Token}

/-- Whether a remark is an error. -/
def Remark.IsError (r : Remark) : Prop := r.cause.key.severity = .error

variable {ctx : Context} {p q : Place} {t : Token} {ts rest after value target : List Token}
  {r : Remark} {into : Bool} {noted noted' : Remark → Prop}

/-! ### Between two steps -/

/-- A place between two steps: inside no name and no attribute. -/
def Between (p : Place) (rest : List Token) : Prop :=
  match p.link with
  | .apart => True
  | .name => (chain rest).1 = []
  | .sql => (chain rest).1 = [] ∧ sqlValue? rest = none
  | .dot => rest.head?.all (fun t => !t.isSegment) = true
  | .percent => rest.head?.all (fun t => (sqlAttribute? t.upper).isNone) = true

theorem between_of_apart (h : p.link = .apart) (rest : List Token) : Between p rest := by
  rw [Between, h]
  trivial

theorem Between.ne_dot (h : Between p (t :: rest)) (hsegment : t.isSegment) : p.link ≠ .dot := by
  intro hlink
  simp [Between, hlink, hsegment] at h

theorem chain_dot_eq_nil (hdot : t.isPunct '.') (h : (chain (t :: rest)).1 = []) :
    rest.head?.all (fun t => !t.isSegment) := by
  cases rest with
  | nil => rfl
  | cons segment rest =>
    by_cases hsegment : segment.isSegment
    · simp [chain, hdot, hsegment] at h
    · simpa using hsegment

theorem sqlValue?_percent_eq_none (hpercent : t.isOp "%") (h : sqlValue? (t :: rest) = none) :
    rest.head?.all (fun t => (sqlAttribute? t.upper).isNone) := by
  cases rest with
  | nil => rfl
  | cons asked rest => simpa [sqlValue?, hpercent] using h

/-- A token that is no name leads from one such place to another. -/
theorem Between.next (h : Between p (t :: rest)) (hkind : t.kind ≠ .identifier) :
    Between (p.next t) rest := by
  rcases Link.next_cases t with hname | hkeyword | hdot | hpercent | hother
  · exact absurd hname hkind
  · have hlink : p.link ≠ .dot := h.ne_dot (by simp [isSegment, hkeyword])
    refine between_of_apart ?_ rest
    rw [Place.next, Link.next_keyword _ hkeyword, if_neg hlink]
  · have hnext : (p.next t).link = if p.link = .name ∨ p.link = .sql then .dot else .apart :=
      Link.next_dot _ hdot
    by_cases hname : p.link = .name ∨ p.link = .sql
    · rw [if_pos hname] at hnext
      rw [Between, hnext]
      refine chain_dot_eq_nil hdot ?_
      rcases hname with hname | hsql
      · rwa [Between, hname] at h
      · rw [Between, hsql] at h
        exact h.1
    · rw [if_neg hname] at hnext
      exact between_of_apart hnext rest
  · have hnext : (p.next t).link = if p.link = .sql then .percent else .apart :=
      Link.next_percent _ hpercent
    by_cases hsql : p.link = .sql
    · rw [if_pos hsql] at hnext
      rw [Between, hsql] at h
      rw [Between, hnext]
      exact sqlValue?_percent_eq_none hpercent h.2
    · rw [if_neg hsql] at hnext
      exact between_of_apart hnext rest
  · exact between_of_apart (hother _) rest

/-! ### Going on -/

/-- What has to be noted at a token: the obstacle that starts at it, and, where a `CAST` does, those
in its value. -/
def NotedAt (ctx : Context) (p : Place) (t : Token) (rest : List Token) (r : Remark) : Prop :=
  Obstacle ctx p t rest r ∨
    ∃ value target, IsCast ctx p t rest value target ∧ Untranslatable ctx r .start value

theorem untranslatable_cons_iff :
    Untranslatable ctx r p (t :: rest) ↔
      NotedAt ctx p t rest r ∨ Untranslatable ctx r (p.next t) rest := by
  constructor
  · intro h
    cases h with
    | here hobstacle => exact .inl (.inl hobstacle)
    | inCast hcast hvalue => exact .inl (.inr ⟨_, _, hcast, hvalue⟩)
    | later hlater => exact .inr hlater
  · rintro ((hobstacle | ⟨value, target, hcast, hvalue⟩) | hlater)
    · exact .here hobstacle
    · exact .inCast hcast hvalue
    · exact .later hlater

/-- Only names can be calls. -/
theorem untranslatable_cons_of_kind (hkind : t.kind ≠ .identifier) :
    Untranslatable ctx r p (t :: rest) ↔
      Obstacle ctx p t rest r ∨ Untranslatable ctx r (p.next t) rest := by
  rw [untranslatable_cons_iff]
  refine or_congr_left (or_iff_left ?_)
  rintro ⟨value, target, hcast, -⟩
  exact hkind hcast.name.kind

/-- Recasting may go on with `rest`, at a place between two steps, when the obstacles that it leaves
behind are the ones `noted`. -/
def Onward (ctx : Context) (p : Place) (ts : List Token) (noted : Remark → Prop) (into : Bool)
    (rest : List Token) : Prop :=
  ∃ front, ts = front ++ rest ∧ Between (p.after front) rest ∧ (p.after front).into = into ∧
    ∀ r, Untranslatable ctx r p ts ↔ noted r ∨ Untranslatable ctx r (p.after front) rest

theorem Onward.of_noted (h : Onward ctx p ts noted into rest) (hto : ∀ r, noted r → noted' r)
    (hfrom : ∀ r, noted' r → Untranslatable ctx r p ts) : Onward ctx p ts noted' into rest := by
  obtain ⟨front, happend, hbetween, hinto, hiff⟩ := h
  refine ⟨front, happend, hbetween, hinto, fun r => ⟨fun hr => ?_, fun hr => ?_⟩⟩
  · exact ((hiff r).1 hr).imp_left (hto r)
  · exact hr.elim (hfrom r) fun hlater => (hiff r).2 (.inr hlater)

/-- What a step has to do: its remarks are the errors it leaves behind, apart from those of the
arguments that are recast before it goes on. -/
def Fits (ctx : Context) (p : Place) (ts : List Token) : Step → Prop
  | .write _ remarks into rest => Onward ctx p ts (fun r => r ∈ remarks ∧ r.IsError) into rest
  | .call arguments finish rest _ into bracket =>
    (∀ texts, ∀ r ∈ (finish texts).remarks, ¬r.IsError) ∧
    (∀ argument ∈ arguments, argument ⊆ ts ∧ ∀ value target,
      CastIn ctx value target .start argument → CastIn ctx value target p ts) ∧
    Onward ctx p ts (fun r => ∃ argument ∈ arguments, Untranslatable ctx r .start argument)
      false rest ∧
    Onward ctx p ts (fun r => ∃ argument ∈ arguments, Untranslatable ctx r .start argument)
      into bracket

/-- A token that is no name is passed with a remark on the obstacle that starts at it. -/
theorem onward_single (hkind : t.kind ≠ .identifier) (h : Between p (t :: rest))
    (hnoted : ∀ r, noted r ↔ Obstacle ctx p t rest r) :
    Onward ctx p (t :: rest) noted (t.isKeyword "INTO") rest := by
  refine ⟨[t], rfl, h.next hkind, rfl, fun r => ?_⟩
  rw [untranslatable_cons_of_kind hkind, hnoted]
  rfl

/-- A segment of a name, or a word without meaning, is passed. -/
theorem untranslatable_cons_of_segment (hsegment : t.isSegment)
    (h : t.kind = .identifier → p.link = .dot ∨ t.upper ∉ ["SQL", "ROWNUM", "CAST"]) :
    Untranslatable ctx r p (t :: rest) ↔ Untranslatable ctx r (p.next t) rest := by
  have hname : ∀ word ∈ ["SQL", "ROWNUM", "CAST"], ¬IsBareName word p t rest := by
    intro word hword hname
    rcases h hname.kind with hdot | hword'
    · exact hname.unqualified hdot
    · exact hword' (hname.text ▸ hword)
  have hkind : t.kind = .identifier ∨ t.kind = .keyword := by
    simpa only [isSegment, Bool.or_eq_true, beq_iff_eq] using hsegment
  have hbind : t.kind ≠ .bindVariable := by rcases hkind with hk | hk <;> simp [hk]
  rw [untranslatable_cons_iff]
  refine or_iff_right ?_
  rintro (hobstacle | ⟨value, target, hcast, -⟩)
  · cases hobstacle with
    | hostBind hk => exact hbind hk
    | outerJoin hjoin => simp [kind_of_startsOuterJoin hjoin] at hkind
    | rowCount hbare => exact hname "SQL" (by simp) hbare
    | rowNumber hbare => exact hname "ROWNUM" (by simp) hbare
  · exact hname "CAST" (by simp) hcast.name

/-! ### Steps over single tokens -/

theorem not_obstacle_of_kind (h : t.kind ∉ [.bindVariable, .identifier, .punctuation]) :
    ¬Obstacle ctx p t rest r := by
  intro hobstacle
  simp only [mem_cons, not_mem_nil, or_false, not_or] at h
  simpa [h, isPunct_eq_false_of_kind h.2.2] using hobstacle.kind

/-- Nothing is noted at such a token. -/
theorem silent_iff (h : t.kind ∉ [.bindVariable, .identifier, .punctuation]) :
    r ∈ ([] : List Remark) ∧ r.IsError ↔ Obstacle ctx p t rest r :=
  iff_of_false (fun hr => not_mem_nil hr.1) (not_obstacle_of_kind h)

/-- The obstacles that start at a name. -/
theorem obstacle_of_identifier (hkind : t.kind = .identifier) :
    Obstacle ctx p t rest r ↔
      (IsBareName "SQL" p t rest ∧ asksRowCount rest ∧ r = ⟨.rowCount, t.offset⟩) ∨
      (IsBareName "ROWNUM" p t rest ∧ startsCall rest = false ∧
        (∀ template, ctx.mapping.function? "ROWNUM" = some template → template.hasPlaces) ∧
        r = ⟨.rowNumber, t.offset⟩) := by
  constructor
  · intro hobstacle
    cases hobstacle with
    | hostBind hbind => simp [hkind] at hbind
    | outerJoin hmark => simp [kind_of_startsOuterJoin hmark] at hkind
    | rowCount hname hasks => exact .inl ⟨hname, hasks, rfl⟩
    | rowNumber hname hcall htemplate => exact .inr ⟨hname, hcall, htemplate, rfl⟩
  · rintro (⟨hname, hasks, rfl⟩ | ⟨hname, hcall, htemplate, rfl⟩)
    · exact .rowCount hname hasks
    · exact .rowNumber hname hcall htemplate

theorem row?_eq_none_iff {name : String} :
    ctx.row? name = none ↔
      sameWord name ctx.newAlias = false ∧ sameWord name ctx.oldAlias = false := by
  unfold Context.row?
  by_cases hnew : sameWord name ctx.newAlias
  · simp [hnew]
  · by_cases hold : sameWord name ctx.oldAlias
    · simp [hnew, hold]
    · simp [hnew, hold]

theorem mem_bind_iff (hkind : t.kind = .bindVariable) :
    r ∈ (bind ctx t).2 ∧ r.IsError ↔ Obstacle ctx p t rest r := by
  constructor
  · rintro ⟨hmem, -⟩
    unfold bind at hmem
    simp only at hmem
    split at hmem
    · cases hmem
    · rename_i hrow
      obtain ⟨hnew, hold⟩ := row?_eq_none_iff.1 hrow
      rw [mem_singleton.1 hmem]
      exact .hostBind hkind hnew hold
  · intro hobstacle
    cases hobstacle with
    | hostBind _ hnew hold =>
      have hrow : ctx.row? (bindHead t) = none := row?_eq_none_iff.2 ⟨hnew, hold⟩
      unfold bind
      simp only
      rw [show ctx.row? (String.ofList _) = none from hrow]
      exact ⟨mem_singleton.2 rfl, rfl⟩
    | outerJoin hmark => simp [kind_of_startsOuterJoin hmark] at hkind
    | rowCount hname => exact absurd hname.kind (by simp [hkind])
    | rowNumber hname => exact absurd hname.kind (by simp [hkind])

/-- The only obstacle that starts at a mark is the outer join. -/
theorem obstacle_of_punctuation (hkind : t.kind = .punctuation) :
    Obstacle ctx p t rest r ↔ startsOuterJoin (t :: rest) ∧ r = ⟨.outerJoin, t.offset⟩ := by
  constructor
  · intro hobstacle
    cases hobstacle with
    | hostBind hbind => exact absurd hbind (by simp [hkind])
    | outerJoin hmark => exact ⟨hmark, rfl⟩
    | rowCount hname => exact absurd hname.kind (by simp [hkind])
    | rowNumber hname => exact absurd hname.kind (by simp [hkind])
  · rintro ⟨hmark, rfl⟩
    exact .outerJoin hmark

theorem mem_outerJoin_iff (hkind : t.kind = .punctuation) :
    r ∈ (if startsOuterJoin (t :: rest) then [(⟨.outerJoin, t.offset⟩ : Remark)] else []) ∧
      r.IsError ↔ Obstacle ctx p t rest r := by
  rw [obstacle_of_punctuation hkind]
  by_cases hmark : startsOuterJoin (t :: rest)
  · rw [if_pos hmark, mem_singleton]
    exact ⟨fun h => ⟨hmark, h.1⟩, fun h => ⟨h.2, h.2 ▸ rfl⟩⟩
  · simp [hmark]

theorem afterDual?_eq_some (h : afterDual? rest = some after) :
    ∃ dual, rest = dual :: after ∧ dual.isWord "DUAL" ∧ (chain after).1 = [] := by
  cases rest with
  | nil => cases h
  | cons dual rest =>
    simp only [afterDual?] at h
    split at h
    · rename_i hdual
      split at h
      · rename_i dot later
        split at h
        · cases h
        · rename_i hdot
          cases h
          exact ⟨dual, rfl, hdual, by rw [chain_of_head (by simpa using hdot)]⟩
      · cases h
        exact ⟨dual, rfl, hdual, rfl⟩
    · cases h

/-- `FROM DUAL` is passed at once. -/
theorem onward_fromDual {dual : Token} (hkind : t.kind = .keyword)
    (h : Between p (t :: dual :: after)) (hdual : dual.isWord "DUAL")
    (hchain : (chain after).1 = []) (hnoted : ∀ r, ¬noted r) :
    Onward ctx p (t :: dual :: after) noted false after := by
  obtain ⟨hword, htext⟩ := Bool.and_eq_true_iff.1 hdual
  have htext : dual.upper = "DUAL" := beq_iff_eq.1 htext
  have hsegment : dual.isSegment := by rwa [isSegment, Bool.or_comm]
  have hapart : (p.next t).link = .apart := by
    have hlink : p.link ≠ .dot := h.ne_dot (by simp [isSegment, hkind])
    rw [Place.next, Link.next_keyword _ hkind, if_neg hlink]
  refine ⟨[t, dual], rfl, ?_, ?_, fun r => ?_⟩
  · by_cases hname : dual.kind = .identifier
    · have hlink : ((p.next t).next dual).link = .name := by
        rw [Place.next, hapart, Link.next_identifier _ hname, htext]
        rfl
      rw [after_cons, after_cons, after_nil, Between, hlink]
      exact hchain
    · have hkeyword : dual.kind = .keyword := by simpa [isSegment, hname] using hsegment
      refine between_of_apart ?_ after
      rw [after_cons, after_cons, after_nil, Place.next, hapart, Link.next_keyword _ hkeyword]
      rfl
  · have hword : sameWord dual.text "INTO" = false := by
      rw [sameWord, show upper dual.text = _ from htext]
      decide
    simp [Place.next, isKeyword, hword]
  · rw [untranslatable_cons_of_segment (by simp [isSegment, hkind]) (by simp [hkind]),
      untranslatable_cons_of_segment hsegment fun _ => .inr (by rw [htext]; decide)]
    simp [hnoted]

theorem keywordStep_fits (hkind : t.kind = .keyword) (h : Between p (t :: rest)) :
    Fits ctx p (t :: rest) (keywordStep t rest) := by
  have hsingle : Onward ctx p (t :: rest) _ _ rest :=
    onward_single (by simp [hkind]) h fun r => silent_iff (by simp [hkind])
  unfold keywordStep
  split
  · rename_i after hfrom
    split at hfrom
    · obtain ⟨dual, rfl, hdual, hchain⟩ := afterDual?_eq_some hfrom
      exact onward_fromDual hkind h hdual hchain fun r hr => not_mem_nil hr.1
    · cases hfrom
  · split
    · rename_i hminus
      rwa [isKeyword_eq_false hminus (by decide)] at hsingle
    · exact hsingle

/-! ### Names -/

theorem chain_chain (ts : List Token) : (chain (chain ts).2).1 = [] := by
  fun_induction chain ts with
  | case1 dot segment rest hdot later ih => exact ih
  | case2 dot segment rest hdot => rw [chain, if_neg hdot]
  | case3 ts hts =>
    rcases ts with _ | ⟨t, _ | ⟨u, ts⟩⟩
    · rfl
    · rfl
    · exact absurd rfl (hts t u ts)

/-- The segments of a name are passed with it. -/
theorem untranslatable_chain (ctx : Context) (hq : q.link = .name ∨ q.link = .sql)
    (rest : List Token) :
    ∃ front, rest = front ++ (chain rest).2 ∧
      (∀ r, Untranslatable ctx r q rest ↔ Untranslatable ctx r (q.after front) (chain rest).2) ∧
      ((chain rest).1 = [] → front = []) ∧
      ∀ last, (chain rest).1.getLast? = some last →
        q.after front = ⟨.name, last.isKeyword "INTO"⟩ := by
  fun_induction chain rest generalizing q with
  | case1 dot segment rest hdot later =>
    rename_i ih
    obtain ⟨hpoint, hsegment⟩ := Bool.and_eq_true_iff.1 hdot
    have hlink : (q.next dot).link = .dot := by
      rw [Place.next, Link.next_dot _ hpoint, if_pos hq]
    have hname : (q.next dot).link.next segment = .name := by
      by_cases hidentifier : segment.kind = .identifier
      · rw [Link.next_identifier _ hidentifier, if_pos hlink]
      · have hkeyword : segment.kind = .keyword := by
          simpa [isSegment, hidentifier] using hsegment
        rw [Link.next_keyword _ hkeyword, if_pos hlink]
    have hplace : (q.next dot).next segment = ⟨.name, segment.isKeyword "INTO"⟩ := by
      rw [Place.next, hname]
    have hkind := kind_of_isPunct hpoint
    obtain ⟨front, happend, hiff, hnil, hlast⟩ := ih (.inl (congrArg link hplace))
    refine ⟨dot :: segment :: front, by rw [cons_append, cons_append, ← happend], ?_,
      fun h => absurd h (cons_ne_nil _ _), fun last h => ?_⟩
    · intro r
      have hdot : ¬Obstacle ctx q dot (segment :: rest) r := by
        rw [obstacle_of_punctuation hkind,
          startsOuterJoin_of_head (isPunct_eq_false hpoint (by decide))]
        simp
      rw [untranslatable_cons_of_kind (by simp [hkind]), or_iff_right hdot,
        untranslatable_cons_of_segment hsegment fun _ => .inl hlink]
      exact hiff r
    · rw [after_cons, after_cons]
      cases hlater : later.1 with
      | nil =>
        simp only [hlater, getLast?_singleton, Option.some.injEq] at h
        rw [hnil hlater, after_nil, hplace, h]
      | cons u us =>
        simp only [hlater, getLast?_cons_cons] at h
        exact hlast last (hlater ▸ h)
  | case2 => exact ⟨[], rfl, fun r => Iff.rfl, fun _ => rfl, fun last hlast => by cases hlast⟩
  | case3 => exact ⟨[], rfl, fun r => Iff.rfl, fun _ => rfl, fun last hlast => by cases hlast⟩

theorem Between.next_link (h : Between p (t :: rest)) (hkind : t.kind = .identifier) :
    (p.next t).link = if t.upper = "SQL" then .sql else .name := by
  have hdot : p.link ≠ .dot := h.ne_dot (by simp [isSegment, hkind])
  have hattribute : ¬(p.link = .percent ∧ (sqlAttribute? t.upper).isSome) := by
    rintro ⟨hpercent, hsome⟩
    rw [Between, hpercent] at h
    simp only [head?_cons, Option.all_some, Option.isNone_iff_eq_none] at h
    simp [h] at hsome
  rw [Place.next, Link.next_identifier _ hkind, if_neg hdot, if_neg hattribute]

/-- A name is passed with its segments, unless it is `SQL` with an attribute. -/
theorem onward_name (hkind : t.kind = .identifier) (h : Between p (t :: rest))
    (hvalue : (chain rest).1 = [] → t.upper = "SQL" → sqlValue? rest = none)
    (hnoted : ∀ r, noted r ↔ NotedAt ctx p t rest r) :
    Onward ctx p (t :: rest) noted (endsInto (t :: (chain rest).1)) (chain rest).2 := by
  have hlink := h.next_link hkind
  have hname : (p.next t).link = .name ∨ (p.next t).link = .sql := by
    by_cases hsql : t.upper = "SQL"
    · exact .inr (by rw [hlink, if_pos hsql])
    · exact .inl (by rw [hlink, if_neg hsql])
  obtain ⟨front, happend, hiff, hnil, hlast⟩ := untranslatable_chain ctx hname rest
  have hplace : Between ((p.next t).after front) (chain rest).2 ∧
      ((p.next t).after front).into = endsInto (t :: (chain rest).1) := by
    cases hmore : (chain rest).1 with
    | nil =>
      rw [hnil hmore, nil_append] at happend
      rw [hnil hmore, after_nil, ← happend]
      refine ⟨?_, rfl⟩
      by_cases hsql : t.upper = "SQL"
      · rw [Between, hlink, if_pos hsql]
        exact ⟨hmore, hvalue hmore hsql⟩
      · rw [Between, hlink, if_neg hsql]
        exact hmore
    | cons u us =>
      have hsome := getLast?_eq_some_getLast (cons_ne_nil u us)
      rw [hlast _ (by rw [hmore, hsome])]
      refine ⟨chain_chain rest, ?_⟩
      rw [endsInto, getLast?_cons_cons, hsome]
      rfl
  refine ⟨t :: front, by rw [cons_append, ← happend], hplace.1, hplace.2, fun r => ?_⟩
  rw [untranslatable_cons_iff, after_cons, ← hiff, hnoted]

/-! ### Attributes -/

theorem next_attribute (h : (sqlAttribute? t.upper).isSome) : Link.next .percent t = .apart := by
  rcases Link.next_cases t with hname | hkeyword | hdot | hpercent | hother
  · rw [Link.next_identifier _ hname, if_neg (by decide), if_pos ⟨rfl, h⟩]
  · exact Link.next_keyword _ hkeyword
  · exact Link.next_dot _ hdot
  · exact Link.next_percent _ hpercent
  · exact hother _

theorem sqlValue?_eq_some {text : String} (h : sqlValue? rest = some (text, after)) :
    ∃ percent asked, rest = percent :: asked :: after ∧ percent.isOp "%" ∧
      (sqlAttribute? asked.upper).isSome := by
  match rest with
  | [] => cases h
  | [percent] => cases h
  | percent :: asked :: rest =>
    simp only [sqlValue?] at h
    split at h
    · rename_i hpercent
      obtain ⟨found, hfound, hpair⟩ := Option.map_eq_some_iff.1 h
      cases hpair
      exact ⟨percent, asked, rfl, hpercent, by rw [hfound]; rfl⟩
    · cases h

theorem ne_of_isSome_sqlAttribute? {word other : String} (h : (sqlAttribute? word).isSome)
    (hother : sqlAttribute? other = none) : word ≠ other := by
  rintro rfl
  simp [hother] at h

theorem head?_ne_colon_of_attribute (h : (sqlAttribute? t.upper).isSome) :
    t.text.toList.head? ≠ some ':' := by
  intro hcolon
  have hupper : t.upper.toList.head? = some ':' := by
    rw [Piece.upper, toList_upper, head?_map, hcolon]
    rfl
  have hword : t.upper = "FOUND" ∨ t.upper = "NOTFOUND" ∨ t.upper = "ISOPEN" := by
    unfold sqlAttribute? at h
    split at h
    · exact .inl ‹_›
    · split at h
      · exact .inr (.inl ‹_›)
      · split at h
        · exact .inr (.inr ‹_›)
        · cases h
  rcases hword with hword | hword | hword
  all_goals
    rw [hword] at hupper
    exact absurd hupper (by decide)

theorem not_notedAt_attribute (h : (sqlAttribute? t.upper).isSome)
    (hbind : t.kind ≠ .bindVariable) : ¬NotedAt ctx p t rest r := by
  rintro (hobstacle | ⟨value, target, hcast, -⟩)
  · cases hobstacle with
    | hostBind hkind => exact hbind hkind
    | outerJoin hmark =>
      have hopening : t.isPunct '(' = false := by
        rw [← Bool.not_eq_true]
        intro hopening
        refine ne_of_isSome_sqlAttribute? h (show sqlAttribute? "(" = none from rfl) ?_
        rw [Piece.upper, (Piece.isPunct_iff.1 hopening).2]
        rfl
      rw [startsOuterJoin_of_head hopening] at hmark
      cases hmark
    | rowCount hname => exact ne_of_isSome_sqlAttribute? h rfl hname.text
    | rowNumber hname => exact ne_of_isSome_sqlAttribute? h rfl hname.text
  · exact ne_of_isSome_sqlAttribute? h rfl hcast.name.text

theorem not_notedAt_sql (hkind : t.kind = .identifier) (htext : t.upper = "SQL")
    (hasks : asksRowCount rest = false) : ¬NotedAt ctx p t rest r := by
  rintro (hobstacle | ⟨value, target, hcast, -⟩)
  · rcases (obstacle_of_identifier hkind).1 hobstacle with ⟨-, hcount, -⟩ | ⟨hname, -⟩
    · rw [hasks] at hcount
      cases hcount
    · exact absurd (htext.symm.trans hname.text) (by decide)
  · exact absurd (htext.symm.trans hcast.name.text) (by decide)

/-- An attribute of `SQL` is passed with it. -/
theorem onward_attribute {percent asked : Token} (hkind : t.kind = .identifier)
    (htext : t.upper = "SQL") (h : Between p (t :: percent :: asked :: after))
    (hpercent : percent.isOp "%") (hasked : (sqlAttribute? asked.upper).isSome)
    (hbind : asked.kind ≠ .bindVariable) (hnoted : ∀ r, ¬noted r) :
    Onward ctx p (t :: percent :: asked :: after) noted false after := by
  have hoperator := kind_of_isOp hpercent
  have hafter : (((p.next t).next percent).next asked).link = .apart := by
    rw [Place.next, Place.next, h.next_link hkind, if_pos htext, Link.next_percent _ hpercent]
    exact next_attribute hasked
  have hasks : asksRowCount (percent :: asked :: after) = false := by
    have hword : asked.isWord "ROWCOUNT" = false := by
      rw [← Bool.not_eq_true]
      intro hword
      exact ne_of_isSome_sqlAttribute? hasked rfl (beq_iff_eq.1 (Bool.and_eq_true_iff.1 hword).2)
    simp [asksRowCount, hword]
  refine ⟨[t, percent, asked], rfl, between_of_apart hafter after, ?_, fun r => ?_⟩
  · show asked.isKeyword "INTO" = false
    rw [← Bool.not_eq_true]
    intro hinto
    exact ne_of_isSome_sqlAttribute? hasked rfl (beq_iff_eq.1 (Bool.and_eq_true_iff.1 hinto).2)
  · have hmark : ¬Obstacle ctx (p.next t) percent (asked :: after) r :=
      not_obstacle_of_kind (by simp [hoperator])
    rw [untranslatable_cons_iff, or_iff_right (not_notedAt_sql hkind htext hasks),
      untranslatable_cons_of_kind (by simp [hoperator]), or_iff_right hmark,
      untranslatable_cons_iff, or_iff_right (not_notedAt_attribute hasked hbind),
      or_iff_right (hnoted r)]
    rfl

/-! ### Brackets -/

/-- Behind the bracket of a call, what has to be noted is what stands between the brackets. -/
theorem Onward.behind {bracket : List Token} (h : Onward ctx p ts noted into bracket)
    (hgroup : bracketGroup bracket = some (inner, after)) (hjoin : startsOuterJoin bracket = false)
    : Onward ctx p ts (fun r => noted r ∨ Untranslatable ctx r .start inner) false after := by
  obtain ⟨front, rfl, hbetween, hinto, hiff⟩ := h
  obtain ⟨opening, closing, hopening, hclosing, rfl, hclosed⟩ := bracketGroup_iff.1 hgroup
  have hmark := kind_of_isPunct hopening
  have hends : EndsArgument closing := endsArgument_of_isPunct hclosing (by decide) (by decide)
  have hstart : ∀ q : Place, q.next opening = .start := fun q =>
    q.next_mark hmark (isPunct_eq_false hopening (by decide))
  have hplace : p.after (front ++ opening :: (inner ++ [closing])) = .start := by
    rw [after_append, after_cons, after_append]
    exact next_mark _ hends.kind hends.dot
  refine ⟨front ++ opening :: (inner ++ [closing]), by simp, ?_, by rw [hplace]; rfl, fun r => ?_⟩
  · exact between_of_apart (by rw [hplace]; rfl) after
  · have hobstacle : ¬Obstacle ctx (p.after front) opening (inner ++ closing :: after) r := by
      rw [obstacle_of_punctuation hmark, hjoin]
      simp
    rw [hiff, hplace, untranslatable_cons_of_kind (by simp [hmark]), or_iff_right hobstacle, hstart,
      untranslatable_append_iff hends hclosed, or_assoc]

/-! ### Calls -/

section Calls

variable {bracket inner : List Token} {finish : List String → Ending} {written : Piece}

/-- What stands between the brackets of a call is part of the list. -/
theorem Onward.inside (h : Onward ctx p ts noted into bracket)
    (hgroup : bracketGroup bracket = some (inner, after)) :
    inner ⊆ ts ∧ ∀ value target,
      CastIn ctx value target .start inner → CastIn ctx value target p ts := by
  obtain ⟨front, rfl, -⟩ := h
  obtain ⟨opening, closing, hopening, -, rfl, -⟩ := bracketGroup_iff.1 hgroup
  constructor
  · intro t ht
    simp [ht]
  · intro value target hcast
    refine CastIn.later_append (.later ?_)
    rw [next_mark _ (kind_of_isPunct hopening)
      (isPunct_eq_false hopening (by decide))]
    exact hcast.append

theorem exists_argumentsOf_iff (hclosed : bracketsAfter 0 inner = some 0) :
    (∃ argument ∈ argumentsOf inner, Untranslatable ctx r .start argument) ↔
      Untranslatable ctx r .start inner := by
  cases inner with
  | nil =>
    simp only [argumentsOf, isEmpty_nil, if_true, not_mem_nil, false_and, exists_false, false_iff]
    intro h
    cases h
  | cons t inner => exact untranslatable_splitCommas_iff hclosed

theorem not_untranslatable_updatedColumn {column : String}
    (h : updatedColumn? inner = some column) : ¬Untranslatable ctx r .start inner := by
  unfold updatedColumn? at h
  split at h
  · rename_i literal
    split at h
    · rename_i hkind
      rw [untranslatable_cons_of_kind (by simp [hkind])]
      rintro (hobstacle | hlater)
      · exact not_obstacle_of_kind (by simp [hkind]) hobstacle
      · cases hlater
    · cases h
  · cases h

theorem finishTemplate_not_isError (name : String) (template : Template) (offset : Nat)
    (texts : List String) :
    ∀ r ∈ (finishTemplate name template offset texts).remarks, ¬r.IsError := by
  intro r hr
  unfold finishTemplate at hr
  split at hr
  · cases hr
  · rw [mem_singleton.1 hr]
    intro herror
    cases herror

theorem finishCast_not_isError (type : DeclaredType) (offset : Nat) (texts : List String) :
    ∀ r ∈ (finishCast ctx type offset texts).remarks, ¬r.IsError := by
  intro r hr
  simp only [finishCast, typeText] at hr
  split at hr
  · cases hr
  · rw [mem_singleton.1 hr]
    intro herror
    cases herror

/-- The call is a `CAST` that is recast by its value. -/
structure CastCall (ctx : Context) (name : String) (inner value target : List Token) : Prop where
  name_eq : name = "CAST"
  unmapped : ctx.mapping.function? name = none
  sides : splitLastAs inner = some (value, target)
  type : ∃ type, DeclaredType.parse? (render target) = some type

variable {name : String} {offset : Nat}

/-- A name that is kept, with remarks that are no errors. -/
theorem Onward.kept {remarks : List Remark} (h : Onward ctx p ts (fun _ => False) into bracket)
    (hremarks : ∀ r ∈ remarks, ¬r.IsError) :
    Fits ctx p ts (.write [written] remarks into bracket) :=
  h.of_noted (fun _ hr => hr.elim) fun r hr => absurd hr.2 (hremarks r hr.1)

variable (hgroup : bracketGroup bracket = some (inner, after))
  (hjoin : startsOuterJoin bracket = false)

include hgroup hjoin

/-- A call, by arguments that are parts of what stands between its brackets and have all that is to
be noted there. -/
theorem fits_call {arguments : List (List Token)} (h : Onward ctx p ts noted into bracket)
    (hfinish : ∀ texts, ∀ r ∈ (finish texts).remarks, ¬r.IsError)
    (hparts : ∀ argument ∈ arguments, argument ⊆ inner ∧ ∀ value target,
      CastIn ctx value target .start argument → CastIn ctx value target .start inner)
    (hnoted : ∀ r, noted r ∨ Untranslatable ctx r .start inner ↔
      ∃ argument ∈ arguments, Untranslatable ctx r .start argument) :
    Fits ctx p ts (.call arguments finish after written into bracket) := by
  obtain ⟨hsubset, hcasts⟩ := h.inside hgroup
  have hbehind := h.behind hgroup hjoin
  have hback : ∀ r, (∃ argument ∈ arguments, Untranslatable ctx r .start argument) →
      Untranslatable ctx r p ts := by
    obtain ⟨_, -, -, -, hiff⟩ := hbehind
    exact fun r hr => (hiff r).2 (.inl ((hnoted r).2 hr))
  refine ⟨hfinish, fun argument hargument => ?_, ?_, ?_⟩
  · obtain ⟨hpart, hinner⟩ := hparts argument hargument
    exact ⟨fun t ht => hsubset (hpart ht), fun _ _ hcast => hcasts _ _ (hinner _ _ hcast)⟩
  · exact hbehind.of_noted (fun r => (hnoted r).1) hback
  · exact h.of_noted (fun r hr => (hnoted r).1 (.inl hr)) hback

/-- A call by its arguments, of a function that has nothing to be noted itself. -/
theorem fits_arguments (h : Onward ctx p ts (fun _ => False) into bracket)
    (hfinish : ∀ texts, ∀ r ∈ (finish texts).remarks, ¬r.IsError) :
    Fits ctx p ts (.call (argumentsOf inner) finish after written into bracket) := by
  obtain ⟨_, _, _, _, _, hclosed⟩ := bracketGroup_iff.1 hgroup
  refine fits_call hgroup hjoin h hfinish (fun argument hargument => ?_) fun r => ?_
  · cases inner with
    | nil => cases hargument
    | cons t inner =>
      have hpart : argument ∈ splitCommas (t :: inner) := hargument
      exact ⟨(isInfix_of_mem_splitCommas hpart).subset,
        fun _ _ => castIn_of_mem_splitCommas hclosed hpart⟩
  · rw [exists_argumentsOf_iff hclosed, false_or]

/-- A `CAST` by its value, when its target has nothing to be noted. -/
theorem fits_cast (h : Onward ctx p ts (fun r => Untranslatable ctx r .start value) into bracket)
    (hsides : splitLastAs inner = some (value, target))
    (htarget : ∀ r, ¬Untranslatable ctx r .start target)
    (hfinish : ∀ texts, ∀ r ∈ (finish texts).remarks, ¬r.IsError) :
    Fits ctx p ts (.call [value] finish after written into bracket) := by
  obtain ⟨_, _, _, _, _, hclosed⟩ := bracketGroup_iff.1 hgroup
  refine fits_call hgroup hjoin h hfinish (fun argument hargument => ?_) fun r => ?_
  · rw [mem_singleton.1 hargument]
    obtain ⟨word, -, rfl, -⟩ := splitLastAs_eq_some hsides hclosed
    exact ⟨subset_append_left _ _, fun _ _ hcast => hcast.append⟩
  · have hinner := fun hr : Untranslatable ctx r .start inner =>
      (untranslatable_of_splitLastAs hsides hclosed hr).resolve_right (htarget r)
    simpa using hinner

/-- A call that is no recast `CAST` has nothing to be noted itself. -/
theorem callStep_fits_of_not_cast (h : Onward ctx p ts (fun _ => False) into bracket)
    (hnone : ∀ value target, ¬CastCall ctx name inner value target) :
    Fits ctx p ts (callStep ctx name offset written into bracket inner after) := by
  have hkept : Fits ctx p ts (.write [written] [] into bracket) := h.kept (by simp)
  unfold callStep
  simp only
  split
  · exact fits_arguments hgroup hjoin h (finishTemplate_not_isError _ _ _)
  · rename_i hfunction
    split
    · rename_i hname
      split
      · exact hkept
      · rename_i value target hsides
        split
        · exact hkept
        · rename_i type htype
          exact absurd ⟨hname, hfunction, hsides, type, htype⟩ (hnone value target)
    · split
      · exact fits_arguments hgroup hjoin h (by simp)
      · split
        · split
          · rename_i column hcolumn
            refine (h.behind hgroup hjoin).of_noted (fun r hr => ?_) fun r hr => ?_
            · exact absurd (hr.resolve_left id) (not_untranslatable_updatedColumn hcolumn)
            · cases hr.1
          · exact hkept
        · split
          · exact hkept
          · refine h.kept fun r hr => ?_
            rw [mem_singleton.1 hr]
            intro herror
            cases herror

/-- A `CAST` that is recast notes what is in its value. -/
theorem callStep_fits_of_cast
    (h : Onward ctx p ts (fun r => Untranslatable ctx r .start value) into bracket)
    (hcast : CastCall ctx name inner value target)
    (htarget : ∀ r, ¬Untranslatable ctx r .start target) :
    Fits ctx p ts (callStep ctx name offset written into bracket inner after) := by
  obtain ⟨type, htype⟩ := hcast.type
  have hstep : callStep ctx name offset written into bracket inner after =
      .call [value] (finishCast ctx type offset) after written into bracket := by
    simp only [callStep, hcast.unmapped, hcast.sides, htype, if_pos hcast.name_eq]
  rw [hstep]
  exact fits_cast hgroup hjoin h hcast.sides htarget (finishCast_not_isError _ _)

/-- A call. Where it is a `CAST` that is recast, the errors in its value are noted. -/
theorem callStep_fits (h : Onward ctx p (t :: rest) (NotedAt ctx p t rest) into bracket)
    (hobstacle : ∀ r, ¬Obstacle ctx p t rest r)
    (hcast : ∀ value target,
      IsCast ctx p t rest value target ↔ CastCall ctx name inner value target)
    (htargets : ∀ value target, CastIn ctx value target p (t :: rest) →
      ∀ r, ¬Untranslatable ctx r .start target) :
    Fits ctx p (t :: rest) (callStep ctx name offset written into bracket inner after) := by
  by_cases hsome : ∃ value target, IsCast ctx p t rest value target
  · obtain ⟨value, target, hthis⟩ := hsome
    have hcall := (hcast value target).1 hthis
    refine callStep_fits_of_cast hgroup hjoin (h.of_noted (fun r hr => ?_) fun r hr =>
      .inCast hthis hr) hcall (htargets value target (.here hthis))
    rcases hr with hr | ⟨value', target', hother, hvalue⟩
    · exact absurd hr (hobstacle r)
    · have hsides := ((hcast value' target').1 hother).sides
      rw [hcall.sides] at hsides
      cases hsides
      exact hvalue
  · have hnone : ∀ value target, ¬IsCast ctx p t rest value target :=
      fun value target hthis => hsome ⟨value, target, hthis⟩
    refine callStep_fits_of_not_cast hgroup hjoin (h.of_noted (fun r hr => ?_) fun r hr => hr.elim)
      fun value target hcall => hnone value target ((hcast value target).2 hcall)
    rcases hr with hr | ⟨value, target, hthis, -⟩
    · exact hobstacle r hr
    · exact hnone value target hthis

end Calls

/-! ### Steps over names -/

theorem chain_snd_of_nil (h : (chain rest).1 = []) : (chain rest).2 = rest := by
  fun_cases chain rest with
  | case1 dot segment rest hdot => simp [chain, hdot] at h
  | case2 dot segment rest hdot => rfl
  | case3 => rfl

theorem startsOuterJoin_eq_true (h : startsOuterJoin ts) :
    ∃ opening plus closing more, ts = opening :: plus :: closing :: more ∧
      plus.isOp "+" ∧ closing.isPunct ')' := by
  unfold startsOuterJoin at h
  split at h
  · rename_i opening plus closing more
    simp only [Bool.and_eq_true] at h
    exact ⟨opening, plus, closing, more, rfl, h.1.2, h.2⟩
  · cases h

/-- A `CAST` that is recast is called: there is no `AS` in an outer join mark. -/
theorem IsCast.startsCall (h : IsCast ctx p t rest value target) : startsCall rest := by
  obtain ⟨inner, after, hgroup, hsides⟩ := h.sides
  obtain ⟨opening, closing, hopening, -, rfl, hclosed⟩ := bracketGroup_iff.1 hgroup
  obtain ⟨word, hword, rfl, -⟩ := splitLastAs_eq_some hsides hclosed
  have hkeyword := kind_of_isKeyword hword
  have hjoin :
      ¬startsOuterJoin (opening :: (value ++ word :: target ++ closing :: after)) := by
    intro hjoin
    obtain ⟨_, plus, mark, more, heq, hplus, hmark⟩ := startsOuterJoin_eq_true hjoin
    have hoperator := kind_of_isOp hplus
    have hpunctuation := kind_of_isPunct hmark
    match value with
    | [] =>
      obtain rfl : word = plus := (cons.inj (cons.inj heq).2).1
      simp [hkeyword] at hoperator
    | [v] =>
      cases heq
      simp [hkeyword] at hpunctuation
    | v :: w :: vs =>
      cases heq
      rw [cons_append, bracketsAfter_of_kind (by simp [hoperator]), cons_append,
        bracketsAfter, if_neg (not_opening_of_closing hmark), if_pos hmark, if_pos rfl] at hclosed
      cases hclosed
  simpa [Recast.startsCall, hopening] using hjoin

theorem startsOuterJoin_of_startsCall (h : startsCall rest) : startsOuterJoin rest = false := by
  cases rest with
  | nil => rfl
  | cons t rest =>
    obtain ⟨-, hjoin⟩ := Bool.and_eq_true_iff.1 h
    simpa using hjoin

/-- What is called asks for no attribute. -/
theorem attributes_of_startsCall (h : startsCall rest) :
    asksRowCount rest = false ∧ sqlValue? rest = none := by
  match rest with
  | [] => exact ⟨rfl, rfl⟩
  | [t] => exact ⟨rfl, rfl⟩
  | t :: u :: rest =>
    have hopening : t.isPunct '(' = true := (Bool.and_eq_true_iff.1 h).1
    simp [asksRowCount, sqlValue?, isOp, kind_of_isPunct hopening]

theorem not_notedAt_of_segments (hkind : t.kind = .identifier) (h : (chain rest).1 ≠ []) :
    ¬NotedAt ctx p t rest r := by
  rintro (hobstacle | ⟨value, target, hcast, -⟩)
  · rcases (obstacle_of_identifier hkind).1 hobstacle with ⟨hname, -⟩ | ⟨hname, -⟩
    · exact h hname.single
    · exact h hname.single
  · exact h hcast.name.single

/-- What the recasting relies on: bind variables start with a colon, and there are no obstacles in
the types of casts. -/
structure Regular (ctx : Context) (p : Place) (ts : List Token) : Prop where
  binds : ∀ t ∈ ts, t.kind = .bindVariable → t.text.toList.head? = some ':'
  targets : ∀ value target, CastIn ctx value target p ts → ∀ r, ¬Untranslatable ctx r .start target

theorem Regular.of_append {front : List Token} (h : Regular ctx p (front ++ rest)) :
    Regular ctx (p.after front) rest :=
  ⟨fun t ht => h.binds t (mem_append_right _ ht),
    fun value target hcast => h.targets value target hcast.later_append⟩

theorem mem_rowCountRemarks (r : Remark) :
    r ∈ rowCountRemarks (t.upper == "SQL") t.offset rest ↔
      t.upper = "SQL" ∧ asksRowCount rest ∧ r = ⟨.rowCount, t.offset⟩ := by
  unfold rowCountRemarks
  by_cases hsql : t.upper = "SQL"
  · by_cases hasks : asksRowCount rest
    · simp [hsql, hasks]
    · simp [hasks]
  · simp [hsql]

theorem bareWord?_rowNumber_eq_none :
    bareWord? ctx "ROWNUM" = none ↔
      ∀ template, ctx.mapping.function? "ROWNUM" = some template → template.hasPlaces := by
  have hevent : eventTest? "ROWNUM" = none := rfl
  simp only [bareWord?, hevent]
  cases hfunction : ctx.mapping.function? "ROWNUM" with
  | none => simp
  | some template => simp

/-- A name without brackets is written with at most one more remark. -/
theorem nameStep_eq (ctx : Context) (t : Token) (into : Bool) (remarks : List Remark)
    (rest : List Token) :
    ∃ text more, nameStep ctx [t.text] t.offset into remarks rest =
        .write [replaced text] (remarks ++ more) into rest ∧
      ∀ r, r ∈ more ↔
        t.upper = "ROWNUM" ∧ bareWord? ctx "ROWNUM" = none ∧ r = ⟨.rowNumber, t.offset⟩ := by
  have hname : upper t.text = t.upper := rfl
  simp only [nameStep, join, hname]
  cases hword : bareWord? ctx t.upper with
  | some text =>
    refine ⟨text, [], by rw [append_nil], fun r => iff_of_false not_mem_nil ?_⟩
    rintro ⟨hrow, hnone, -⟩
    rw [hrow, hnone] at hword
    cases hword
  | none =>
    refine ⟨t.text, _, rfl, fun r => ?_⟩
    by_cases hrow : t.upper = "ROWNUM"
    · rw [hrow] at hword
      simp [hrow, hword]
    · simp [hrow]

theorem bracketStep_kept
    (h : (afterInto || ctx.cursors.contains t.upper) ∨ bracketGroup rest = none) :
    bracketStep ctx [t.text] t.offset afterInto into rest =
      .write [replaced t.text] [] into rest := by
  rcases h with htable | hgroup
  · exact if_pos htable
  · simp [bracketStep, join, hgroup]

theorem bracketStep_group (h : (afterInto || ctx.cursors.contains t.upper) = false)
    (hgroup : bracketGroup rest = some (inner, after)) :
    bracketStep ctx [t.text] t.offset afterInto into rest =
      callStep ctx t.upper t.offset (replaced t.text) into rest inner after := by
  have htable : ¬(afterInto || ctx.cursors.contains t.upper) := by
    rw [h]
    exact Bool.false_ne_true
  simp only [bracketStep, join, hgroup]
  exact if_neg htable

section Names

variable (hkind : t.kind = .identifier) (h : Between p (t :: rest))

include hkind h

/-- A name of several segments. -/
theorem identifierStep_fits_of_segments (hmore : (chain rest).1 ≠ [])
    (hregular : Regular ctx p (t :: rest)) (afterInto : Bool) :
    Fits ctx p (t :: rest) (identifierStep ctx afterInto t (chain rest).1 (chain rest).2) := by
  have honward : ∀ {noted : Remark → Prop}, (∀ r, ¬noted r) →
      Onward ctx p (t :: rest) noted (endsInto (t :: (chain rest).1)) (chain rest).2 := by
    intro noted hnoted
    refine onward_name hkind h (fun hnil => absurd hnil hmore) fun r => ?_
    exact iff_of_false (hnoted r) (not_notedAt_of_segments hkind hmore)
  have hsilent : ∀ r : Remark, ¬(r ∈ ([] : List Remark) ∧ r.IsError) :=
    fun r hr => not_mem_nil hr.1
  obtain ⟨u, us, hchain⟩ := exists_cons_of_ne_nil hmore
  have hname : ∀ word : String, '.' ∉ word.toList →
      upper (join "." (texts (t :: (chain rest).1))) ≠ word := by
    intro word hword
    rw [hchain]
    exact upper_join_ne hword _ _ _
  unfold identifierStep
  split
  · exact honward hsilent
  · have hsql : (upper (join "." (texts (t :: (chain rest).1))) == "SQL") = false :=
      beq_eq_false_iff_ne.2 (hname "SQL" (by decide))
    simp only [hsql, Bool.false_eq_true, if_false]
    unfold plainStep
    simp only
    split
    · exact honward hsilent
    · split
      · rename_i hcall
        unfold bracketStep
        simp only
        split
        · exact honward hsilent
        · split
          · exact honward hsilent
          · rename_i inner after hgroup
            have hnoted : ∀ r, ¬NotedAt ctx p t rest r :=
              fun r => not_notedAt_of_segments hkind hmore
            refine callStep_fits hgroup (startsOuterJoin_of_startsCall hcall) (honward hnoted)
              (fun r hr => hnoted r (.inl hr)) (fun value target => ?_) hregular.targets
            exact iff_of_false (fun hc => hmore hc.name.single)
              fun hc => hname "CAST" (by decide) hc.name_eq
      · unfold nameStep
        simp only
        split
        · rename_i heq
          rw [hchain] at heq
          cases heq
        · exact honward hsilent

section Single

variable (hsingle : (chain rest).1 = [])

include hsingle

/-- A name of one segment is passed alone. -/
theorem onward_single_name (hvalue : t.upper = "SQL" → sqlValue? rest = none)
    (hnoted : ∀ r, noted r ↔ NotedAt ctx p t rest r) :
    Onward ctx p (t :: rest) noted (endsInto [t]) rest := by
  have honward := onward_name hkind h (fun _ => hvalue) hnoted
  rwa [chain_snd_of_nil hsingle, hsingle] at honward

theorem isBareName_iff {word : String} : IsBareName word p t rest ↔ t.upper = word := by
  have hdot : p.link ≠ .dot := h.ne_dot (by simp [isSegment, hkind])
  exact ⟨fun hname => hname.text, fun htext => ⟨hkind, htext, hdot, hsingle⟩⟩

/-- What is noted at a name of one segment that no bracket follows. -/
theorem notedAt_name (hcall : startsCall rest = false) :
    NotedAt ctx p t rest r ↔
      (t.upper = "SQL" ∧ asksRowCount rest ∧ r = ⟨.rowCount, t.offset⟩) ∨
      (t.upper = "ROWNUM" ∧ bareWord? ctx "ROWNUM" = none ∧ r = ⟨.rowNumber, t.offset⟩) := by
  have hcast : ¬∃ value target, IsCast ctx p t rest value target ∧
      Untranslatable ctx r .start value := by
    rintro ⟨value, target, hcast, -⟩
    have hstarts := hcast.startsCall
    rw [hcall] at hstarts
    cases hstarts
  rw [NotedAt, or_iff_left hcast, obstacle_of_identifier hkind, isBareName_iff hkind h hsingle,
    isBareName_iff hkind h hsingle, bareWord?_rowNumber_eq_none]
  simp [hcall]

/-- A name of one segment that no bracket follows. -/
theorem nameStep_fits (hcall : startsCall rest = false)
    (hvalue : t.upper = "SQL" → sqlValue? rest = none) :
    Fits ctx p (t :: rest) (nameStep ctx [t.text] t.offset (endsInto [t])
      (rowCountRemarks (t.upper == "SQL") t.offset rest) rest) := by
  have hnoted : ∀ r, NotedAt ctx p t rest r ↔ _ := fun r => notedAt_name hkind h hsingle hcall
  obtain ⟨text, more, hstep, hmore⟩ := nameStep_eq ctx t (endsInto [t])
    (rowCountRemarks (t.upper == "SQL") t.offset rest) rest
  rw [hstep]
  refine onward_single_name hkind h hsingle hvalue fun r => ?_
  rw [hnoted, mem_append, mem_rowCountRemarks, hmore]
  refine and_iff_left_of_imp ?_
  rintro (⟨-, -, rfl⟩ | ⟨-, -, rfl⟩) <;> rfl

theorem isCast_iff_castCall {inner value target : List Token}
    (htable : (p.into || ctx.cursors.contains t.upper) = false)
    (hgroup : bracketGroup rest = some (inner, after)) :
    IsCast ctx p t rest value target ↔ CastCall ctx t.upper inner value target := by
  constructor
  · intro hcast
    obtain ⟨inner', after', hsome, hsides⟩ := hcast.sides
    rw [hgroup] at hsome
    cases hsome
    rw [hcast.name.text]
    exact ⟨rfl, hcast.noTemplate, hsides, hcast.type⟩
  · rintro ⟨hname, hfunction, hsides, htype⟩
    rw [hname] at hfunction htable
    obtain ⟨hinto, hcursor⟩ := Bool.or_eq_false_iff.1 htable
    exact ⟨(isBareName_iff hkind h hsingle).2 hname, hfunction, hcursor, hinto,
      ⟨inner, after, hgroup, hsides⟩, htype⟩

/-- A name of one segment with a bracket behind it. -/
theorem bracketStep_fits (hcall : startsCall rest) (hregular : Regular ctx p (t :: rest)) :
    Fits ctx p (t :: rest) (bracketStep ctx [t.text] t.offset p.into (endsInto [t]) rest) := by
  have hvalue : t.upper = "SQL" → sqlValue? rest = none :=
    fun _ => (attributes_of_startsCall hcall).2
  have hobstacle : ∀ r, ¬Obstacle ctx p t rest r := by
    simp [obstacle_of_identifier hkind, hcall, (attributes_of_startsCall hcall).1]
  have hkept : (∀ value target, ¬IsCast ctx p t rest value target) →
      Fits ctx p (t :: rest) (.write [replaced t.text] [] (endsInto [t]) rest) := by
    intro hnone
    refine onward_single_name hkind h hsingle hvalue fun r => ?_
    refine iff_of_false (fun hr => not_mem_nil hr.1) ?_
    rintro (hr | ⟨value, target, hr, -⟩)
    · exact hobstacle r hr
    · exact hnone value target hr
  by_cases htable : (p.into || ctx.cursors.contains t.upper)
  · rw [bracketStep_kept (.inl htable)]
    refine hkept fun value target hcast => ?_
    rw [hcast.name.text, hcast.noTable, hcast.noCursor] at htable
    cases htable
  · rw [Bool.not_eq_true] at htable
    cases hgroup : bracketGroup rest with
    | none =>
      rw [bracketStep_kept (.inr hgroup)]
      refine hkept fun value target hcast => ?_
      obtain ⟨inner, after, hsome, -⟩ := hcast.sides
      rw [hgroup] at hsome
      cases hsome
    | some group =>
      obtain ⟨inner, after⟩ := group
      rw [bracketStep_group htable hgroup]
      refine callStep_fits hgroup (startsOuterJoin_of_startsCall hcall)
        (onward_single_name hkind h hsingle hvalue fun r => Iff.rfl) hobstacle
        (fun value target => ?_) hregular.targets
      exact isCast_iff_castCall hkind h hsingle htable hgroup

end Single

theorem identifierStep_fits (hregular : Regular ctx p (t :: rest)) :
    Fits ctx p (t :: rest) (identifierStep ctx p.into t (chain rest).1 (chain rest).2) := by
  by_cases hsingle : (chain rest).1 = []
  · rw [hsingle, chain_snd_of_nil hsingle]
    have hsequence : sequenceCall? (texts [t]) = none := by simp [sequenceCall?, texts]
    have hplain : (t.upper = "SQL" → sqlValue? rest = none) →
        Fits ctx p (t :: rest) (plainStep ctx p.into (t.upper == "SQL") t [] rest) := by
      intro hvalue
      have hcolumn : bareColumn? ctx (texts [t]) = none := rfl
      unfold plainStep
      simp only [hcolumn]
      by_cases hcall : startsCall rest
      · rw [if_pos hcall]
        exact bracketStep_fits hkind h hsingle hcall hregular
      · rw [if_neg hcall]
        exact nameStep_fits hkind h hsingle (by simpa using hcall) hvalue
    unfold identifierStep
    simp only [hsequence]
    have hname : upper (join "." (texts [t])) = t.upper := rfl
    rw [hname]
    by_cases hsql : t.upper = "SQL"
    · cases hvalue : sqlValue? rest with
      | some found =>
        obtain ⟨text, after⟩ := found
        obtain ⟨percent, asked, rfl, hpercent, hasked⟩ := sqlValue?_eq_some hvalue
        rw [if_pos (beq_iff_eq.2 hsql)]
        refine onward_attribute hkind hsql h hpercent hasked (fun hbind => ?_)
          fun r hr => not_mem_nil hr.1
        exact head?_ne_colon_of_attribute hasked (hregular.binds asked (by simp) hbind)
      | none =>
        rw [if_pos (beq_iff_eq.2 hsql)]
        exact hplain fun _ => hvalue
    · rw [if_neg (by simpa using hsql)]
      exact hplain fun hthis => absurd hthis hsql
  · exact identifierStep_fits_of_segments hkind h hsingle hregular p.into

end Names

theorem step_fits (h : Between p (t :: rest)) (hregular : Regular ctx p (t :: rest)) :
    Fits ctx p (t :: rest) (step ctx p.into t rest) := by
  have hsilent (hother : t.kind ∉ [.bindVariable, .identifier, .punctuation]) :
      Onward ctx p (t :: rest) (fun r => r ∈ [] ∧ r.IsError) (t.isKeyword "INTO") rest :=
    onward_single (by simp_all) h fun r => silent_iff hother
  have hinto : t.kind ≠ .keyword → t.isKeyword "INTO" = false :=
    fun hkind => isKeyword_eq_false_of_kind hkind _
  unfold step
  split
  · rename_i hkind
    have hnoted : ∀ r, r ∈ (bind ctx t).2 ∧ r.IsError ↔ Obstacle ctx p t rest r :=
      fun r => mem_bind_iff hkind
    have honward := onward_single (by simp [hkind]) h hnoted
    rwa [hinto (by simp [hkind])] at honward
  · rename_i hkind
    have honward := hsilent (by simp [hkind])
    rwa [hinto (by simp [hkind])] at honward
  · rename_i hkind
    have honward := hsilent (by simp [hkind])
    rwa [hinto (by simp [hkind])] at honward
  · rename_i hkind
    exact keywordStep_fits hkind h
  · rename_i hkind
    exact identifierStep_fits hkind h hregular
  · rename_i hkind
    exact onward_single (by simp [hkind]) h fun r => mem_outerJoin_iff hkind
  · rename_i hbind _ _ _ hname hmark
    exact hsilent (by simpa using ⟨hbind, hname, hmark⟩)

/-! ### Whole lists -/

/-- The errors of a call are those of its arguments, if its function notes none. -/
theorem finishCall_errors {arguments : List (List Token)} {finish : List String → Ending}
    (hfinish : ∀ texts, ∀ r ∈ (finish texts).remarks, ¬r.IsError)
    (harguments : ∀ argument ∈ arguments, r ∈ (recast ctx false argument).remarks ∧ r.IsError ↔
      Untranslatable ctx r .start argument) :
    r ∈ (finishCall ctx arguments finish).remarks ∧ r.IsError ↔
      ∃ argument ∈ arguments, Untranslatable ctx r .start argument := by
  simp only [finishCall, mem_append, mem_flatMap, mem_map]
  constructor
  · rintro ⟨⟨result, ⟨argument, hargument, rfl⟩, hr⟩ | hr, herror⟩
    · exact ⟨argument, hargument, (harguments argument hargument).1 ⟨hr, herror⟩⟩
    · exact absurd herror (hfinish _ r hr)
  · rintro ⟨argument, hargument, hr⟩
    obtain ⟨hremark, herror⟩ := (harguments argument hargument).2 hr
    exact ⟨.inl ⟨_, ⟨argument, hargument, rfl⟩, hremark⟩, herror⟩

theorem recast_errors (h : Between p ts) (hregular : Regular ctx p ts) (r : Remark) :
    r ∈ (recast ctx p.into ts).remarks ∧ r.IsError ↔ Untranslatable ctx r p ts := by
  induction ts using shorterInduction generalizing p r with
  | shorter ts ih =>
    cases ts with
    | nil =>
      rw [recast_nil]
      exact ⟨fun hr => absurd hr.1 not_mem_nil, fun hr => by cases hr⟩
    | cons t rest =>
      have hfits := step_fits h hregular
      have hpending := step_pending ctx p.into t rest
      cases hstep : step ctx p.into t rest with
      | write pieces remarks into after =>
        rw [hstep] at hfits hpending
        obtain ⟨front, happend, hbetween, rfl, hiff⟩ := hfits
        have hlater := ih after (hpending after (by simp [Step.pending])) hbetween
          (happend ▸ hregular).of_append r
        rw [recast_write hstep, Result.after, mem_append, or_and_right, hlater, hiff]
      | call arguments finish after name into bracket =>
        rw [hstep] at hfits hpending
        obtain ⟨hfinish, harguments, hafter, hbracket⟩ := hfits
        have hcall := finishCall_errors hfinish fun argument hargument => by
          obtain ⟨hsubset, hcasts⟩ := harguments argument hargument
          have hinside : Regular ctx .start argument :=
            ⟨fun u hu => hregular.binds u (hsubset hu),
              fun value target hcast => hregular.targets value target (hcasts _ _ hcast)⟩
          exact ih argument (hpending argument (by simp [Step.pending, hargument]))
            (between_of_apart rfl argument) hinside r
        have hgoes : ∀ {rest' into'}, rest'.length < (t :: rest).length →
            Onward ctx p (t :: rest) (fun r => ∃ argument ∈ arguments,
              Untranslatable ctx r .start argument) into' rest' →
            (r ∈ (finishCall ctx arguments finish).remarks ++ (recast ctx into' rest').remarks ∧
              r.IsError ↔ Untranslatable ctx r p (t :: rest)) := by
          rintro rest' into' hlt ⟨front, happend, hbetween, rfl, hiff⟩
          have hlater := ih rest' hlt hbetween (happend ▸ hregular).of_append r
          rw [mem_append, or_and_right, hcall, hlater, hiff]
        rw [recast_call hstep]
        simp only
        split
        · exact hgoes (hpending after (by simp [Step.pending])) hafter
        · exact hgoes (hpending bracket (by simp [Step.pending])) hbracket

/-- The errors noted while the tokens of a source are recast are the obstacles among them, provided
that there is none in the type of a `CAST`. -/
theorem error_iff_untranslatable (hlexed : Lexed ts)
    (htargets : ∀ value target, CastIn ctx value target .start ts →
      ∀ r, ¬Untranslatable ctx r .start target) (r : Remark) :
    r ∈ (tokens ctx ts).2 ∧ r.cause.key.severity = .error ↔ Untranslatable ctx r .start ts :=
  recast_errors (between_of_apart rfl ts) ⟨hlexed.binds, htargets⟩ r

/-- A value that is recast on its own, a call that is kept after its arguments were recast, and a
qualified name, which is no row number. -/
def nestedObstacles : List Token :=
  (lex "NVL(CAST(:x AS DATE), DECODE(ROWNUM, a.id(+))) + t.ROWNUM - SQL%ROWCOUNT".toList).tokens

/-- A context with one template. -/
def templateContext : Context := .plain (.extend .empty [] [("NVL", "COALESCE({0}, {1})")] [])

/-- What cannot be recast in it. -/
def nestedErrors : List Remark :=
  [⟨.hostBind ":x", 9⟩, ⟨.rowNumber, 29⟩, ⟨.outerJoin, 41⟩, ⟨.rowCount, 60⟩]

theorem error_iff_untranslatable_nested :
    Lexed nestedObstacles ∧
    (∀ value target, CastIn templateContext value target .start nestedObstacles →
      ∀ r, ¬Untranslatable templateContext r .start target) ∧
    ∀ r, Untranslatable templateContext r .start nestedObstacles ↔ r ∈ nestedErrors := by
  have hlexed : Lexed nestedObstacles := lexed_of_ofSource (ofSource_eq_ok (by decide +kernel))
  have htargets : ∀ value target, CastIn templateContext value target .start nestedObstacles →
      ∀ r, ¬Untranslatable templateContext r .start target := by
    intro value target hcast r hr
    have hplain : ∀ target ∈ castTargets nestedObstacles, ∀ t ∈ target,
        ¬(t.kind = .bindVariable ∨ t.isPunct '(' = true ∨ t.upper ∈ ["SQL", "ROWNUM", "CAST"]) := by
      decide +kernel
    obtain ⟨t, ht, hobstacle⟩ := hr.exists_mem
    exact hplain target hcast.target_mem t ht hobstacle
  refine ⟨hlexed, htargets, fun r => ?_⟩
  have hremarks : (tokens templateContext nestedObstacles).2 =
      [⟨.hostBind ":x", 9⟩, ⟨.unmappedType "DATE" "DATE", 4⟩, ⟨.rowNumber, 29⟩, ⟨.outerJoin, 41⟩,
        ⟨.rowNumber, 29⟩, ⟨.outerJoin, 41⟩, ⟨.rowCount, 60⟩] := by
    decide +kernel
  have hnoted : ∀ r ∈ (tokens templateContext nestedObstacles).2,
      r.cause.key.severity = .error → r ∈ nestedErrors := by
    rw [hremarks]
    decide
  have herrors : ∀ r ∈ nestedErrors,
      r ∈ (tokens templateContext nestedObstacles).2 ∧ r.cause.key.severity = .error := by
    rw [hremarks]
    decide
  rw [← error_iff_untranslatable hlexed htargets]
  exact ⟨fun hr => hnoted r hr.1 hr.2, herrors r⟩

end TriggerDialect.Recast
