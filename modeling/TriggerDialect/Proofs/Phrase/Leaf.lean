import TriggerDialect.Grammar.Simple
import TriggerDialect.Proofs.Nesting.Brackets

/-!
# Leaves

A leaf is a token span that holds no statements: an expression, a name, the text of an SQL command.
Its brackets and its `CASE ... END` expressions are balanced, each on its own, and no semicolon
stands outside of them. A cut sees nothing of a leaf but its tokens at depth zero
(`IsExpression.neutral`), and a search for a closing bracket sees nothing of it at all
(`bracketGroup_of_balanced`).
-/

namespace TriggerDialect

open List

variable {closing t : Token} {p : Piece} {ts : List Token}

namespace Piece

/-- The words that open or close a construct. -/
def nestingWords : List String := ["BEGIN", "IF", "CASE", "LOOP", "END"]

theorem IsInline.of_isKeyword {word : String} (h : p.isKeyword word)
    (hword : ∀ other ∈ nestingWords, Text.upper word ≠ Text.upper other) : p.IsInline := by
  have hkind : p.kind ≠ .punctuation := by simp [kind_of_isKeyword h]
  have hother : ∀ other ∈ nestingWords, p.isKeyword other = false :=
    fun other hmem => isKeyword_eq_false h (hword other hmem)
  refine ⟨isPunct_eq_false_of_kind hkind _, isPunct_eq_false_of_kind hkind _, ?_,
    hother "END" (by decide)⟩
  simp [Piece.opens, hother "BEGIN" (by decide), hother "IF" (by decide), hother "CASE" (by decide),
    hother "LOOP" (by decide)]

theorem IsInline.of_kind (hword : p.kind ≠ .keyword) (hmark : p.kind ≠ .punctuation) : p.IsInline :=
  ⟨isPunct_eq_false_of_kind hmark _, isPunct_eq_false_of_kind hmark _,
    by simp [Piece.opens, isKeyword_eq_false_of_kind hword], isKeyword_eq_false_of_kind hword _⟩

theorem IsInline.of_isPunct {mark : Char} (h : p.isPunct mark)
    (hopening : mark ≠ '(') (hclosing : mark ≠ ')') : p.IsInline := by
  have hkind : p.kind ≠ .keyword := by simp [kind_of_isPunct h]
  exact ⟨isPunct_eq_false h hopening, isPunct_eq_false h hclosing,
    by simp [Piece.opens, isKeyword_eq_false_of_kind hkind], isKeyword_eq_false_of_kind hkind _⟩

end Piece

namespace Phrase

/-- A token that satisfies `p`. -/
structure TokenOf (p : Piece → Bool) where
  token : Token
  holds : p token.toPiece

/-- A given reserved word, in any letter case. -/
abbrev Word (word : String) := TokenOf (·.isKeyword word)

/-- A given punctuation mark. -/
abbrev Mark (mark : Char) := TokenOf (·.isPunct mark)

/-- A given operator. -/
abbrev Sign (op : String) := TokenOf (·.isOp op)

/-- A plain or quoted name of one part. -/
abbrev Identifier := TokenOf Piece.isIdentifier

/-- A reserved word at an offset, in capitals. -/
abbrev Word.placed {word : String} (offset : Nat) : Word word :=
  ⟨⟨⟨.keyword, word⟩, offset⟩, by simp [Piece.isKeyword]⟩

/-- A punctuation mark at an offset. -/
abbrev Mark.placed {mark : Char} (offset : Nat) : Mark mark :=
  ⟨⟨⟨.punctuation, mark.toString⟩, offset⟩, by simp [Piece.isPunct]⟩

/-! ### Depth -/

/-- The number of open brackets and of open `CASE` expressions. -/
structure Depth where
  brackets : Nat
  cases : Nat
deriving Repr, DecidableEq

namespace Depth

variable {d d' : Depth}

/-- Nothing is open. -/
def zero : Depth := ⟨0, 0⟩

/-- The depth after a piece, unless it closes what is not open. -/
def after (d : Depth) (p : Piece) : Option Depth :=
  if p.isPunct '(' then some { d with brackets := d.brackets + 1 }
  else if p.isPunct ')' then
    if d.brackets = 0 then none else some { d with brackets := d.brackets - 1 }
  else if p.isKeyword "CASE" then some { d with cases := d.cases + 1 }
  else if p.isKeyword "END" then
    if d.cases = 0 then none else some { d with cases := d.cases - 1 }
  else some d

/-- The depth after a token span, unless it closes what is not open. -/
def run (d : Depth) : List Token → Option Depth
  | [] => some d
  | t :: rest => (d.after t.toPiece).bind fun d => run d rest

/-- The tokens of a span that stand at depth zero. The token that opens a group is one of them, the
one that closes it is not. -/
def outer (d : Depth) : List Token → List Token
  | [] => []
  | t :: rest =>
    let later := outer ((d.after t.toPiece).getD d) rest
    if d = zero then t :: later else later

theorem mem_of_mem_outer (h : t ∈ d.outer ts) : t ∈ ts := by
  induction ts generalizing d with
  | nil => exact h
  | cons u ts ih =>
    simp only [outer] at h
    split at h
    · rcases mem_cons.1 h with rfl | h
      · exact mem_cons_self
      · exact mem_cons_of_mem u (ih h)
    · exact mem_cons_of_mem u (ih h)

/-- What stands at depth zero behind a token does so together with it. -/
theorem outer_subset (h : d.after t.toPiece = some d') : d'.outer ts ⊆ d.outer (t :: ts) := by
  intro u hu
  simp only [outer, h, Option.getD_some]
  split
  · exact mem_cons_of_mem _ hu
  · exact hu

theorem mem_outer_zero : t ∈ zero.outer (t :: ts) := by
  simp [outer]

/-- The nesting of a span at this depth inside `base`. -/
def atop (d : Depth) (base : Nesting) : Nesting :=
  ⟨base.brackets + d.brackets, replicate d.cases .selection ++ base.frames⟩

theorem eq_zero_of_atop {base : Nesting} (h : d.atop base = base) : d = zero := by
  have hbrackets : base.brackets + d.brackets = base.brackets := congrArg Nesting.brackets h
  have hframes : (replicate d.cases Frame.selection ++ base.frames).length =
      base.frames.length := congrArg (fun n => n.frames.length) h
  rw [length_append, length_replicate] at hframes
  cases d
  simp only [zero, Depth.mk.injEq] at hbrackets hframes ⊢
  omega

theorem run_append (d : Depth) (ts us : List Token) :
    d.run (ts ++ us) = (d.run ts).bind fun d => d.run us := by
  induction ts generalizing d with
  | nil => rfl
  | cons t ts ih =>
    simp only [cons_append, run]
    cases d.after t.toPiece with
    | none => rfl
    | some d => exact ih d

/-- The pieces that a depth goes by. -/
theorem after_cases (h : d.after p = some d') :
    (p.isPunct '(' = true ∧ d' = { d with brackets := d.brackets + 1 }) ∨
      p.isPunct '(' = false ∧
        ((p.isPunct ')' = true ∧ d = { d' with brackets := d'.brackets + 1 }) ∨
          p.isPunct ')' = false ∧
            ((p.isKeyword "CASE" ∧ d' = { d with cases := d.cases + 1 }) ∨
              p.isKeyword "CASE" = false ∧
                ((p.isKeyword "END" ∧ d = { d' with cases := d'.cases + 1 }) ∨
                  p.isKeyword "END" = false ∧ d' = d))) := by
  obtain ⟨brackets, cases⟩ := d
  obtain ⟨brackets', cases'⟩ := d'
  simp only [after, Depth.mk.injEq] at h ⊢
  repeat' split at h
  all_goals grind

/-- The walk through the nesting agrees with the depth, at a token that starts no statement. -/
theorem enter_atop (h : d.after p = some d') (hbegin : p.isKeyword "BEGIN" = false)
    (hif : p.isKeyword "IF" = false) (hloop : p.isKeyword "LOOP" = false) (base : Nesting) :
    (d.atop base).enter p = d'.atop base := by
  obtain ⟨hopening, rfl⟩ | ⟨hopening, ⟨hclosing, rfl⟩ | ⟨hclosing, ⟨hcase, rfl⟩ | ⟨hcase,
    ⟨hend, rfl⟩ | ⟨hend, rfl⟩⟩⟩⟩ := after_cases h
  · rw [Nesting.enter_of_opening hopening]
    rfl
  · simp [Nesting.enter, hopening, hclosing, atop, ← Nat.add_assoc]
  · have hopens : p.opens = some .selection := by simp [Piece.opens, hbegin, hif, hcase]
    rw [Nesting.enter_of_opens hopens]
    rfl
  all_goals
    have hopens : p.opens = none := by simp [Piece.opens, hbegin, hif, hcase, hloop]
  · simp [Nesting.enter, hopening, hclosing, hopens, hend, atop, replicate_succ]
  · exact Nesting.enter_of_inline ⟨hopening, hclosing, hopens, hend⟩ _

theorem after_of_inline (h : p.IsInline) (d : Depth) : d.after p = some d := by
  have hcase := (Piece.opens_eq_none_iff.1 h.opens).2.2.1
  simp [after, h.opening, h.closing, hcase, h.ends]

/-- Depth zero is not reached at a semicolon inside a group. -/
theorem not_semicolon (h : d.after p = some zero) (hzero : d = zero → p.isPunct ';' = false) :
    p.isPunct ';' = false := by
  cases hmark : p.isPunct ';' with
  | false => rfl
  | true =>
    rw [after_of_inline (.of_isPunct hmark (by decide) (by decide)), Option.some.injEq] at h
    rw [hzero h] at hmark
    cases hmark

end Depth

/-! ### Expressions and leaves -/

/-- The words that start or divide statements and so never stand in a leaf. -/
def structureWords : List String := ["BEGIN", "IF", "LOOP", "DECLARE", "EXCEPTION"]

/-- Whether no `END` is directly followed by `CASE`. -/
def endsApart : List Token → Bool
  | t :: u :: rest => !(t.isKeyword "END" && u.isKeyword "CASE") && endsApart (u :: rest)
  | _ => true

/-- Whether a token span, which may be empty, holds no statements. -/
structure IsExpression (ts : List Token) : Prop where
  balanced : Depth.zero.run ts = some .zero
  plain : ∀ t ∈ ts, ∀ word ∈ structureWords, t.isKeyword word = false
  apart : endsApart ts
  unbroken : ∀ t ∈ Depth.zero.outer ts, t.isPunct ';' = false

instance (ts : List Token) : Decidable (IsExpression ts) :=
  decidable_of_iff (Depth.zero.run ts = some .zero ∧
      (∀ t ∈ ts, ∀ word ∈ structureWords, t.isKeyword word = false) ∧ endsApart ts ∧
      ∀ t ∈ Depth.zero.outer ts, t.isPunct ';' = false)
    ⟨fun h => ⟨h.1, h.2.1, h.2.2.1, h.2.2.2⟩, fun h => ⟨h.balanced, h.plain, h.apart, h.unbroken⟩⟩

/-- A token span that holds no statements. -/
structure Expression where
  tokens : List Token
  isExpression : IsExpression tokens

/-- A non-empty span that holds no statements. -/
structure Leaf extends Expression where
  nonempty : tokens ≠ []

/-- A leaf with no token at depth zero at which `stop` holds. -/
structure LeafWithout (stop : Piece → Bool) extends Leaf where
  clear : ∀ t ∈ Depth.zero.outer tokens, stop t.toPiece = false

namespace Leaf

/-- The text of the leaf. -/
def fragment (leaf : Leaf) : Fragment := .ofTokens leaf.tokens

/-- Whether the leaf starts with a token that satisfies `p`. -/
def StartsWith (p : Piece → Bool) (leaf : Leaf) : Prop :=
  ∀ t ∈ leaf.tokens.head?, p t.toPiece

end Leaf

theorem endsApart_tail (h : endsApart (t :: ts)) : endsApart ts := by
  cases ts with
  | nil => rfl
  | cons u ts =>
    rw [endsApart, Bool.and_eq_true] at h
    exact h.2

/-- In an expression no word closes anything together with the next. -/
theorem closesWith_of_endsApart {u : Token} (happart : endsApart (t :: u :: ts))
    (hplain : ∀ word ∈ structureWords, u.isKeyword word = false) :
    t.closesWith u.toPiece = none := by
  unfold Piece.closesWith
  split
  · rename_i hend
    have hcase : u.isKeyword "CASE" = false := by
      simp only [endsApart, hend, Bool.true_and, Bool.and_eq_true, Bool.not_eq_true'] at happart
      exact happart.1
    simp [Piece.closesAfterEnd, hplain "IF" (by decide), hplain "LOOP" (by decide), hcase]
  · rfl

section

variable {start : Option Piece → Prop} {visit : Option Piece → Piece → Prop} {base : Nesting}
  {rest : List Token}

/-- The walk from any depth over the rest of an expression. -/
theorem Depth.passage (hstart : ∀ p : Piece, p.isPunct ';' = false → start (some p)) :
    ∀ (ts : List Token) (d : Depth) (previous : Option Piece), d.run ts = some .zero →
      (∀ t ∈ ts, ∀ word ∈ structureWords, t.isKeyword word = false) → endsApart ts →
      (∀ t ∈ d.outer ts, t.isPunct ';' = false) →
      (∀ p, start p → ∀ t ∈ d.outer ts, visit p t.toPiece) →
      (d = zero → start previous) → Apart ts rest →
      Passage (fun n p t => base.Within n ∧ (n = base → visit p t)) rest (d.atop base) previous ts
        base (lastPiece previous ts)
  | [], d, previous, hrun, _, _, _, _, _, _ => by
    cases hrun
    exact .done base previous
  | t :: ts, d, previous, hrun, hplain, happart, hunbroken, hvisit, hzero, hrest => by
    obtain ⟨d', hafter, hrun'⟩ := Option.bind_eq_some_iff.1 hrun
    have hword := hplain t mem_cons_self
    have hlater : d'.outer ts ⊆ d.outer (t :: ts) := outer_subset hafter
    refine .step ⟨⟨Nat.le_add_right _ _, suffix_append _ _⟩, fun hbase => ?_⟩ ?_ ?_
    · obtain rfl := eq_zero_of_atop hbase
      exact hvisit previous (hzero rfl) t mem_outer_zero
    · cases ts with
      | nil => exact hrest t.toPiece rfl
      | cons u ts =>
        intro u' hu
        cases hu
        exact closesWith_of_endsApart happart (hplain u (by simp))
    · rw [enter_atop hafter (hword _ (by decide)) (hword _ (by decide)) (hword _ (by decide))]
      refine Depth.passage hstart ts d' _ hrun' (fun u hu => hplain u (mem_cons_of_mem _ hu))
        (endsApart_tail happart) (fun u hu => hunbroken u (hlater hu))
        (fun p hp u hu => hvisit p hp u (hlater hu)) (fun hd => ?_) (fun p hp => ?_)
      · subst hd
        refine hstart _ (not_semicolon hafter ?_)
        rintro rfl
        exact hunbroken t mem_outer_zero
      · refine hrest p ?_
        cases ts with
        | nil => cases hp
        | cons u ts => exact hp

theorem IsExpression.neutral (h : IsExpression ts)
    (hstart : ∀ p : Piece, p.isPunct ';' = false → start (some p))
    (hvisit : ∀ p, start p → ∀ t ∈ Depth.zero.outer ts, visit p t.toPiece) :
    Neutral start visit ts := by
  intro base previous rest hprevious hrest
  exact Depth.passage hstart ts .zero previous h.balanced h.plain h.apart h.unbroken hvisit
    (fun _ => hprevious) hrest

theorem IsExpression.passes (h : IsExpression ts) : Passes ts :=
  h.neutral (fun _ _ => trivial) fun _ _ _ _ => trivial

end

/-- A semicolon is not the last token of an expression. -/
theorem Depth.lastPiece_of_run : ∀ (ts : List Token) (d : Depth) (previous : Option Piece),
    d.run ts = some .zero → (∀ t ∈ d.outer ts, t.isPunct ';' = false) →
    (d = zero → ∀ p ∈ previous, p.isPunct ';' = false) →
    ∀ p ∈ lastPiece previous ts, p.isPunct ';' = false
  | [], d, previous, hrun, _, hprevious => by
    cases hrun
    exact hprevious rfl
  | t :: ts, d, previous, hrun, hunbroken, _ => by
    obtain ⟨d', hafter, hrun'⟩ := Option.bind_eq_some_iff.1 hrun
    refine Depth.lastPiece_of_run ts d' _ hrun' (fun u hu => hunbroken u (outer_subset hafter hu))
      fun hd p hp => ?_
    cases hp
    subst hd
    refine not_semicolon hafter ?_
    rintro rfl
    exact hunbroken t mem_outer_zero

theorem IsExpression.lastPiece (h : IsExpression ts) {previous : Option Piece}
    (hprevious : ∀ p ∈ previous, p.isPunct ';' = false) :
    ∀ p ∈ lastPiece previous ts, p.isPunct ';' = false :=
  Depth.lastPiece_of_run ts .zero previous h.balanced h.unbroken fun _ => hprevious

/-- What stands behind a first token that opens nothing. -/
theorem IsExpression.tail (h : IsExpression (t :: ts)) (hinline : t.IsInline) :
    IsExpression ts where
  balanced := by
    have hbalanced := h.balanced
    rwa [Depth.run, Depth.after_of_inline hinline, Option.bind_some] at hbalanced
  plain u hu := h.plain u (mem_cons_of_mem t hu)
  apart := endsApart_tail h.apart
  unbroken u hu := by
    refine h.unbroken u ?_
    simp [Depth.outer, Depth.after_of_inline hinline, hu]

/-! ### Brackets -/

theorem bracketsAfter_of_run {d d' : Depth} (h : d.run ts = some d') :
    bracketsAfter d.brackets ts = some d'.brackets := by
  induction ts generalizing d with
  | nil =>
    cases h
    rfl
  | cons t ts ih =>
    obtain ⟨middle, hafter, hlater⟩ := Option.bind_eq_some_iff.1 h
    have hbehind : bracketsBehind d.brackets t = some middle.brackets := by
      grind [Depth.after, bracketsBehind]
    rw [bracketsAfter_cons, hbehind, Option.bind_some, ih hlater]

/-- The bracket that closes a group is found behind its inside. -/
theorem bracketGroup_of_balanced {opening : Token} {inner : List Token}
    (hopening : opening.isPunct '(' = true) (hinner : Depth.zero.run inner = some .zero)
    (hclosing : closing.isPunct ')') (rest : List Token) :
    bracketGroup (opening :: inner ++ closing :: rest) = some (inner, rest) :=
  bracketGroup_iff.2 ⟨opening, closing, hopening, hclosing, rfl, bracketsAfter_of_run hinner⟩

end Phrase

end TriggerDialect
