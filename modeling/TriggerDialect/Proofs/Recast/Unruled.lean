import Mathlib.Tactic.MkIffOfInductiveProp
import TriggerDialect.Proofs.Lexing.Rendering
import TriggerDialect.Proofs.Reading.Declared
import TriggerDialect.Proofs.Recast.Arguments
import TriggerDialect.Proofs.Recast.Obstacles

/-!
# Texts without a rule

Recasting changes nothing that it has no rule for: `Unruled` says where no rule applies, and there
the tokens are written as they stand (`tokens_unruled`). A dotted name is written as one piece and a
call is tried before it is kept, so the pieces are not those of the source, and it has to be seen
that they are printed alike. Spacing looks at the piece before a sign, but it does not tell one name
from another (`Piece.renderAfter_name`), and it puts nothing around dots (`renderAfter_chain`).
-/

namespace TriggerDialect

open List Text Piece

variable {ts : List Token}

/-! ### Names in spacing -/

namespace Piece

/-- A name as spacing sees it: nothing that a sign may stand behind. -/
def IsName (p : Piece) : Prop := p.kind = .identifier ∧ p.text ≠ "(" ∧ p.text ≠ ","

variable {before before' : Option Piece} {p q r s : Piece}

/-- A name is an identifier, no mark and no operator. -/
theorem IsName.kind_beq (h : p.IsName) :
    p.kind == .identifier ∧ (p.kind == .punctuation) = false ∧ (p.kind == .operator) = false := by
  rw [h.1]
  decide

theorem spaced_name_right (h : p.IsName) :
    spaced before r p = !(r.attachesRight || r.bindsRight || isSign before r) := by
  simp [spaced, attachesLeft, bindsLeft, opensArguments, h.kind_beq]

theorem spaced_name_left (h : p.IsName) :
    spaced before p r = !(r.attachesLeft || r.bindsLeft || r.isPunct '(') := by
  simp [spaced, attachesRight, bindsRight, isSign, opensArguments, isPunct, h.kind_beq]

theorem isSign_name_before (h : p.IsName) : isSign (some p) r = false := by
  obtain ⟨hkind, hopen, hcomma⟩ := h
  have hoperator : p.kind ≠ .operator := by rw [hkind]; decide
  have hkeyword : p.kind ≠ .keyword := by rw [hkind]; decide
  simp [isSign, hoperator, hkeyword, hopen, hcomma]

/-- What follows a name is printed alike after any other name. -/
theorem renderAfter_name (hp : p.IsName) (hq : q.IsName) (ps : List Piece) :
    renderAfter before p ps = renderAfter before' q ps := by
  cases ps with
  | nil => rfl
  | cons r ps =>
    rw [renderAfter, renderAfter, spaced_name_left hp, spaced_name_left hq]
    congr 1
    cases ps with
    | nil => rfl
    | cons s ps =>
      rw [renderAfter, renderAfter, spaced, spaced, isSign_name_before hp, isSign_name_before hq]

end Piece

/-! ### Names of a source -/

/-- The names among the tokens are names for spacing too. -/
def NamesIn (ts : List Token) : Prop := ∀ t ∈ ts, t.kind = .identifier → t.IsName

theorem NamesIn.of_isSuffix {rest : List Token} (h : NamesIn ts) (hrest : rest <:+ ts) :
    NamesIn rest :=
  fun t ht => h t (hrest.subset ht)

theorem isName_of_munches {c : Char} {xs rest : List Char}
    (h : Scan.Munches .identifier c xs rest) :
    Piece.IsName ⟨.identifier, String.ofList (c :: xs)⟩ := by
  have hmark : ∀ mark : Char, Scan.isMark mark → mark ≠ '.' →
      String.ofList (c :: xs) ≠ String.ofList [mark] := by
    intro mark hmark hpoint htext
    cases String.ofList_injective htext
    have hpunctuation : Scan.Munches .punctuation c [] rest :=
      (Scan.munches_mark_iff hmark).2 fun hp => absurd hp hpoint
    rw [Scan.Munches] at h hpunctuation
    rw [h] at hpunctuation
    cases hpunctuation
  exact ⟨rfl, hmark '(' rfl (by decide), hmark ',' rfl (by decide)⟩

theorem Lexed.namesIn (h : Lexed ts) : NamesIn ts := by
  intro t ht hkind
  obtain ⟨c, xs, rest, htext, hmunches⟩ := h.scanned t ht (by rw [hkind]; decide)
  rw [hkind] at hmunches
  have hname := isName_of_munches hmunches
  rw [← htext, String.ofList_toList] at hname
  exact ⟨hkind, hname.2⟩

namespace Recast

variable {names : List String} {offset : Nat} {into : Bool} (afterInto : Bool)

/-! ### Where no rule applies -/

/-- The names that have rules of their own. -/
def ruledNames : List String :=
  ["NEXTVAL", "CURRVAL", "SQL", "INSERTING", "UPDATING", "DELETING", "CAST", "DECODE"]

/-- No rule applies to `t`, with `rest` behind it. -/
@[mk_iff]
structure UnruledAt (m : Mapping) (t : Token) (rest : List Token) : Prop where
  noBind : t.kind ≠ .bindVariable
  noOperator : t.kind = .operator → t.text ∉ ["!=", "^=", "~=", "**"]
  plainLiteral : t.kind = .stringLiteral → t.text.toList.head? = some '\''
  noMinus : t.isKeyword "MINUS" = false
  noDual : t.isKeyword "FROM" → rest.head?.any (fun next => next.isWord "DUAL") = false
  noReserved : t.isPunct '.' → rest.head?.any (fun next => next.kind == .keyword) = false
  noName : t.kind = .identifier → t.upper ∉ ruledNames
  noTemplate : t.kind = .identifier →
    m.function? (join "." (texts (t :: (chain rest).1))) = none

instance (m : Mapping) (t : Token) (rest : List Token) : Decidable (UnruledAt m t rest) :=
  decidable_of_iff _ (unruledAt_iff m t rest).symm

/-- No rule applies anywhere among the tokens. -/
def Unruled (m : Mapping) : List Token → Prop
  | [] => True
  | t :: rest => UnruledAt m t rest ∧ Unruled m rest

instance (m : Mapping) : (ts : List Token) → Decidable (Unruled m ts)
  | [] => inferInstanceAs (Decidable True)
  | t :: rest =>
    have := instDecidableUnruled m rest
    inferInstanceAs (Decidable (UnruledAt m t rest ∧ Unruled m rest))

variable {m : Mapping} {ctx : Context} {t : Token} {ts more rest : List Token}

theorem Unruled.of_isSuffix (h : Unruled m ts) (hrest : rest <:+ ts) : Unruled m rest := by
  induction ts with
  | nil => rwa [suffix_nil.1 hrest]
  | cons t ts ih =>
    rcases suffix_cons_iff.1 hrest with rfl | hrest
    · exact h
    · exact ih h.2 hrest

/-! ### Dotted names -/

/-- The text of a name and the segments after it. -/
def dotted (t : Token) (more : List Token) : String := join "." (texts (t :: more))

theorem dotted_nil (t : Token) : dotted t [] = t.text := rfl

theorem dotted_cons (t s : Token) (more : List Token) :
    dotted t (s :: more) = t.text ++ "." ++ dotted s more := rfl

/-- A name of several segments is none of the ruled names, which have no dots. -/
theorem upper_dotted_not_mem (h : t.upper ∉ ruledNames) (more : List Token) :
    upper (dotted t more) ∉ ruledNames := by
  cases more with
  | nil => exact h
  | cons s more =>
    have hdots : ∀ name ∈ ruledNames, '.' ∉ name.toList := by decide
    intro hmem
    exact upper_join_ne (hdots _ hmem) t.text s.text (texts more) rfl

theorem isName_dotted (h : t.IsName) (more : List Token) : (replaced (dotted t more)).IsName := by
  cases more with
  | nil => exact ⟨rfl, h.2⟩
  | cons s more =>
    have hpoint : '.' ∈ (dotted t (s :: more)).toList := point_mem_join _ _ _
    refine ⟨rfl, ?_, ?_⟩
    all_goals
      intro htext
      rw [show dotted t (s :: more) = _ from htext] at hpoint
      simp at hpoint

theorem chain_isSuffix (ts : List Token) : (chain ts).2 <:+ ts := by
  fun_induction chain ts with
  | case1 dot segment rest _ later ih =>
    exact ih.trans ((suffix_cons _ _).trans (suffix_cons _ _))
  | case2 => exact suffix_refl _
  | case3 => exact suffix_refl _

/-- The segments behind a name are names without a rule. -/
theorem chain_unruled (h : Unruled m rest) (hnames : NamesIn rest) :
    ∀ s ∈ (chain rest).1, s.IsName ∧ s.upper ∉ ruledNames := by
  fun_induction chain rest with
  | case1 dot segment rest hdot later ih =>
    obtain ⟨hpoint, hsegment⟩ := Bool.and_eq_true_iff.1 hdot
    have hkind : segment.kind = .identifier := by
      have := h.1.noReserved hpoint
      simp_all [isSegment]
    refine forall_mem_cons.2 ⟨⟨hnames segment (by simp) hkind, h.2.1.noName hkind⟩, ?_⟩
    exact ih h.2.2 (hnames.of_isSuffix ((suffix_cons _ _).trans (suffix_cons _ _)))
  | case2 => simp
  | case3 => simp

/-- A name is printed alike in one piece and by its segments. -/
theorem renderAfter_chain {before before' : Option Piece} (ht : t.IsName)
    (h : ∀ s ∈ (chain rest).1, s.IsName) :
    t.text.toList ++ renderAfter before t.toPiece (pieces rest) =
      (dotted t (chain rest).1).toList ++
        renderAfter before' (replaced (dotted t (chain rest).1)) (pieces (chain rest).2) := by
  fun_induction chain rest generalizing t before before' with
  | case1 dot segment rest hdot later =>
    rename_i ih
    obtain ⟨hpoint, -⟩ := Bool.and_eq_true_iff.1 hdot
    obtain ⟨-, htext⟩ := isPunct_iff.1 hpoint
    obtain ⟨hsegment, hlater⟩ := forall_mem_cons.1 h
    have hrest : segment.text.toList ++
          renderAfter (some dot.toPiece) segment.toPiece (pieces rest) =
        (dotted segment (chain rest).1).toList ++ renderAfter before'
          (replaced (dotted segment (chain rest).1)) (pieces (chain rest).2) := ih hsegment hlater
    have hname : (replaced (dotted segment (chain rest).1)).IsName := isName_dotted hsegment _
    calc t.text.toList ++ renderAfter before t.toPiece (pieces (dot :: segment :: rest))
        = t.text.toList ++ (dot.text.toList ++ (segment.text.toList ++
            renderAfter (some dot.toPiece) segment.toPiece (pieces rest))) := by
          simp only [pieces, map_cons]
          rw [renderAfter_of_not_spaced (spaced_of_point_right hpoint),
            renderAfter_of_not_spaced (spaced_of_point_left hpoint)]
      _ = (dotted t (segment :: (chain rest).1)).toList ++
            renderAfter before' (replaced (dotted segment (chain rest).1))
              (pieces (chain rest).2) := by
          rw [hrest, dotted_cons, htext]
          simp
      _ = _ := by rw [renderAfter_name hname (isName_dotted ht (segment :: (chain rest).1))]
  | case2 dot segment rest hdot =>
    rw [dotted_nil]
    congr 1
    exact renderAfter_name ht (isName_dotted ht []) _
  | case3 ts =>
    rw [dotted_nil]
    congr 1
    exact renderAfter_name ht (isName_dotted ht []) _

/-! ### Steps -/

theorem sequenceCall?_unruled (h : ∀ name ∈ names, upper name ∉ ruledNames) :
    sequenceCall? names = none := by
  unfold sequenceCall?
  split
  · rfl
  · rename_i last hlast
    have hruled := h last (mem_of_getLast? hlast)
    refine if_neg ?_
    rintro ⟨-, hnext | hcurrent⟩
    · rw [hnext] at hruled
      exact hruled (by decide)
    · rw [hcurrent] at hruled
      exact hruled (by decide)

/-- A call without a rule is kept. -/
theorem callStep_unruled {name : String} {written : Piece} {bracket inner rest : List Token}
    (hname : name ∉ ruledNames) (hfunction : ctx.mapping.function? name = none) :
    ∃ remarks, callStep ctx name offset written into bracket inner rest =
      .write [written] remarks into bracket := by
  have hruled : ∀ word ∈ ruledNames, name ≠ word := fun word hword heq => hname (heq ▸ hword)
  simp only [callStep, hfunction, if_neg (hruled "CAST" (by decide)),
    if_neg (hruled "DECODE" (by decide)), if_neg (hruled "UPDATING" (by decide))]
  split
  · exact ⟨_, rfl⟩
  · exact ⟨_, rfl⟩

/-- A bracket behind a name without a rule changes nothing. -/
theorem bracketStep_unruled {afterInto : Bool} (hname : upper (join "." names) ∉ ruledNames)
    (hfunction : ctx.mapping.function? (upper (join "." names)) = none) :
    ∃ remarks, bracketStep ctx names offset afterInto into rest =
      .write [replaced (join "." names)] remarks into rest := by
  unfold bracketStep
  simp only
  split
  · exact ⟨_, rfl⟩
  · split
    · exact ⟨_, rfl⟩
    · exact callStep_unruled hname hfunction

theorem nameStep_unruled {remarks : List Remark} (hname : upper (join "." names) ∉ ruledNames)
    (hfunction : ctx.mapping.function? (upper (join "." names)) = none) :
    ∃ remarks', nameStep ctx names offset into remarks rest =
      .write [replaced (join "." names)] remarks' into rest := by
  have hruled : ∀ word ∈ ruledNames, upper (join "." names) ≠ word :=
    fun word hword heq => hname (heq ▸ hword)
  have hbare : bareWord? ctx (upper (join "." names)) = none := by
    simp only [bareWord?, eventTest?, hfunction, if_neg (hruled "INSERTING" (by decide)),
      if_neg (hruled "UPDATING" (by decide)), if_neg (hruled "DELETING" (by decide))]
  unfold nameStep
  simp only [hbare]
  split
  · exact ⟨_, rfl⟩
  · exact ⟨_, rfl⟩

/-- A name without a rule is written in one piece. -/
theorem step_name (hbare : ctx.bareRows = false) (hkind : t.kind = .identifier)
    (h : UnruledAt ctx.mapping t rest) (hsegments : ∀ s ∈ (chain rest).1, s.upper ∉ ruledNames) :
    ∃ remarks into, step ctx afterInto t rest =
      .write [replaced (dotted t (chain rest).1)] remarks into (chain rest).2 := by
  have hname : upper (dotted t (chain rest).1) ∉ ruledNames :=
    upper_dotted_not_mem (h.noName hkind) _
  have hfunction : ctx.mapping.function? (upper (dotted t (chain rest).1)) = none :=
    (Mapping.function?_upper _ _).trans (h.noTemplate hkind)
  have hsequence : sequenceCall? (texts (t :: (chain rest).1)) = none := by
    refine sequenceCall?_unruled fun name hmem => ?_
    obtain ⟨s, hs, rfl⟩ := mem_map.1 hmem
    rcases mem_cons.1 hs with rfl | hs
    · exact h.noName hkind
    · exact hsegments s hs
  have hsql : (upper (join "." (texts (t :: (chain rest).1))) == "SQL") = false :=
    beq_eq_false_iff_ne.2 fun heq => hname (show upper (dotted t _) ∈ _ from heq ▸ by decide)
  have hcolumn : bareColumn? ctx (texts (t :: (chain rest).1)) = none := by
    unfold bareColumn?
    split
    · rw [hbare]
      rfl
    · rfl
  unfold step
  rw [hkind]
  simp only [identifierStep, hsequence, hsql, Bool.false_eq_true, if_false, plainStep, hcolumn]
  split
  · obtain ⟨remarks, hstep⟩ := bracketStep_unruled hname hfunction
    exact ⟨remarks, _, hstep⟩
  · obtain ⟨remarks, hstep⟩ := nameStep_unruled hname hfunction
    exact ⟨remarks, _, hstep⟩

theorem keywordStep_unruled (h : UnruledAt m t rest) :
    keywordStep t rest = .write [t.toPiece] [] (t.isKeyword "INTO") rest := by
  have hdual : (if t.isKeyword "FROM" then afterDual? rest else none) = none := by
    split
    · rename_i hfrom
      have hnext := h.noDual hfrom
      cases rest with
      | nil => rfl
      | cons next rest =>
        rw [head?_cons, Option.any_some] at hnext
        simp [afterDual?, hnext]
    · rfl
  simp [keywordStep, hdual, h.noMinus, keepStep]

/-- Any other token without a rule is written as it stands. -/
theorem step_other (hkind : t.kind ≠ .identifier) (h : UnruledAt ctx.mapping t rest) :
    ∃ remarks into, step ctx afterInto t rest = .write [t.toPiece] remarks into rest := by
  obtain ⟨⟨kind, text⟩, offset⟩ := t
  cases kind with
  | identifier => exact absurd rfl hkind
  | bindVariable => exact absurd rfl h.noBind
  | operator =>
    have hoperator : operator text = text := by
      have := h.noOperator rfl
      simp_all [operator]
    exact ⟨[], false, by rw [step, hoperator]⟩
  | stringLiteral =>
    have hmarked : isMarkedLiteral text = false := by
      obtain ⟨cs, htext⟩ := head?_eq_some_iff.1 (h.plainLiteral rfl)
      simp only [isMarkedLiteral, show text.toList = _ from htext]
      rfl
    have hliteral : literal text = text := by
      rw [literal, hmarked]
      rfl
    exact ⟨[], false, by rw [step, hliteral]⟩
  | keyword => exact ⟨[], _, keywordStep_unruled h⟩
  | punctuation => exact ⟨_, _, rfl⟩
  | numericLiteral => exact ⟨_, _, rfl⟩
  | trailing => exact ⟨_, _, rfl⟩

/-! ### Whole texts -/

/-- The first piece that is written stands for the first tokens: it is spaced as their first one,
and whatever follows is printed alike. -/
theorem recast_kept (hbare : ctx.bareRows = false) (h : Unruled ctx.mapping (t :: rest))
    (hnames : NamesIn (t :: rest)) :
    ∃ p into after,
      (recast ctx afterInto (t :: rest)).pieces = p :: (recast ctx into after).pieces ∧
      after <:+ rest ∧
      (∀ before r, spaced before r p = spaced before r t.toPiece) ∧
      ∀ before, p.text.toList ++ renderAfter before p (pieces after) =
        t.text.toList ++ renderAfter before t.toPiece (pieces rest) := by
  by_cases hkind : t.kind = .identifier
  · have hsegments := chain_unruled h.2 (hnames.of_isSuffix (suffix_cons _ _))
    have hname : t.IsName := hnames t (by simp) hkind
    obtain ⟨remarks, into, hstep⟩ := step_name afterInto hbare hkind h.1
      fun s hs => (hsegments s hs).2
    refine ⟨replaced (dotted t (chain rest).1), into, (chain rest).2, ?_, chain_isSuffix rest, ?_,
      ?_⟩
    · rw [recast_write hstep]
      rfl
    · intro before r
      rw [spaced_name_right (isName_dotted hname _), spaced_name_right hname]
    · intro before
      exact (renderAfter_chain hname fun s hs => (hsegments s hs).1).symm
  · obtain ⟨remarks, into, hstep⟩ := step_other afterInto hkind h.1
    refine ⟨t.toPiece, into, rest, ?_, suffix_refl _, fun _ _ => rfl, fun _ => rfl⟩
    rw [recast_write hstep]
    rfl

theorem renderAfter_unruled (hbare : ctx.bareRows = false) (h : Unruled ctx.mapping ts)
    (hnames : NamesIn ts) (before : Option Piece) (r : Piece) :
    renderAfter before r (recast ctx afterInto ts).pieces =
      renderAfter before r (pieces ts) := by
  -- A name takes its segments along, so the induction is on the number of tokens.
  induction ts using shorterInduction generalizing afterInto before r with
  | shorter ts ih =>
    cases ts with
    | nil => rw [recast_nil]; rfl
    | cons t rest =>
      obtain ⟨p, into, after, hpieces, hsuffix, hspaced, hprinted⟩ :=
        recast_kept afterInto hbare h hnames
      have hlt := Nat.lt_succ_of_le hsuffix.length_le
      have hlater := ih after hlt into (h.2.of_isSuffix hsuffix)
        (hnames.of_isSuffix (hsuffix.trans (suffix_cons _ _))) (some r) p
      rw [hpieces, renderAfter, hlater, hspaced, append_assoc, hprinted]
      simp [pieces, renderAfter]

/-- Where no rule applies, the tokens of a source are written as they stand. -/
theorem tokens_unruled (hlexed : Lexed ts) (hbare : ctx.bareRows = false)
    (h : Unruled ctx.mapping ts) : (tokens ctx ts).1 = render ts := by
  have hnames := hlexed.namesIn
  simp only [tokens, render, Piece.render]
  congr 1
  cases ts with
  | nil => rw [recast_nil]; rfl
  | cons t rest =>
    obtain ⟨p, into, after, hpieces, hsuffix, -, hprinted⟩ :=
      recast_kept false hbare h hnames
    have hlater := renderAfter_unruled into hbare (h.2.of_isSuffix hsuffix)
      (hnames.of_isSuffix (hsuffix.trans (suffix_cons _ _))) none p
    rw [hpieces, Piece.renderChars, hlater, hprinted]
    rfl

/-- Dotted names, signs behind names and behind marks, and calls that are tried and kept. -/
def unruledText : String := "a.b  := -f(c . d.e, -1)-(-g('it''s')) || h.k(+)"

theorem tokens_unruled_signed :
    Lexed (lex unruledText.toList).tokens ∧
      Unruled Mapping.oracle (lex unruledText.toList).tokens ∧
      (tokens (.plain Mapping.oracle) (lex unruledText.toList).tokens).1 =
        "a.b := -f(c.d.e, -1) - (-g('it''s')) || h.k(+)" := by
  have hlexed : Lexed (lex unruledText.toList).tokens :=
    lexed_of_ofSource (ofSource_eq_ok (by decide +kernel))
  have hunruled : Unruled Mapping.oracle (lex unruledText.toList).tokens := by decide +kernel
  have hkept : (tokens (.plain Mapping.oracle) (lex unruledText.toList).tokens).1 =
      render (lex unruledText.toList).tokens := tokens_unruled hlexed rfl hunruled
  refine ⟨hlexed, hunruled, hkept.trans ?_⟩
  decide +kernel

end Recast

end TriggerDialect
