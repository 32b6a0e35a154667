import TriggerDialect.Proofs.Sections.Division

/-!
# Sections of well-nested blocks

In a well-nested list of tokens every group is closed by the words that belong to it. `Nested` is
such a list with its groups made visible. The search for the end of a block sees nothing of the
groups directly inside it but the words that open them, however deep they are (`splitBody_items`).
So a well-nested block is cut at its own `END`, and before that at the `EXCEPTION` that starts its
handlers, if it has one (`split_wellNested`).
-/

namespace TriggerDialect

open Phrase List Text Piece Sections

variable {rest tail : List Token} {ending word : Token} {declaring : Bool}

/-- Whether a piece neither opens nor closes a group. -/
def Piece.isPlain (p : Piece) : Bool :=
  !p.isPunct '(' && !p.isPunct ')' && nestingWords.all fun word => !p.isKeyword word

theorem Piece.IsInline.of_isPlain {p : Piece} (h : p.isPlain) : p.IsInline := by
  simp only [isPlain, nestingWords, all_cons, all_nil, Bool.and_eq_true,
    Bool.not_eq_true', Bool.and_true] at h
  obtain ⟨⟨hopening, hclosing⟩, hbegin, hif, hcase, hloop, hend⟩ := h
  exact ⟨hopening, hclosing, opens_eq_none_iff.2 ⟨hbegin, hif, hcase, hloop⟩, hend⟩

/-- The tokens around a group. -/
inductive Fence where
  | brackets (opening : Mark '(') (closing : Mark ')')
  | block (opening : Word "BEGIN") (closing : Word "END")
  | conditional (opening : Word "IF") (closing : Word "END") (word : Word "IF")
  | iteration (opening : Word "LOOP") (closing : Word "END") (word : Word "LOOP")
  | selection (opening : Word "CASE") (closing : Word "END") (word : Option (Word "CASE"))

namespace Fence

/-- The token before a group. -/
def opening : Fence → Token
  | .brackets opening _ => opening.token
  | .block opening _ => opening.token
  | .conditional opening _ _ => opening.token
  | .iteration opening _ _ => opening.token
  | .selection opening _ _ => opening.token

/-- The tokens after a group. -/
def closing : Fence → List Token
  | .brackets _ closing => [closing.token]
  | .block _ closing => [closing.token]
  | .conditional _ closing word => [closing.token, word.token]
  | .iteration _ closing word => [closing.token, word.token]
  | .selection _ closing word => closing.token :: optional word

/-- Whether the group is a block. -/
def isBlock : Fence → Bool
  | .block _ _ => true
  | _ => false

/-- Whether a bare `END` closes the group. -/
def isBare : Fence → Bool
  | .block _ _ => true
  | .selection _ _ none => true
  | _ => false

end Fence

/-- A plain token, or a group with all that is inside it. -/
inductive Nested where
  | plain (t : TokenOf isPlain)
  | group (fence : Fence) (inner : List Nested)

variable {front items : List Nested} {item : Nested}

namespace Nested

mutual

/-- The tokens of an item. -/
def tokens : Nested → List Token
  | .plain t => [t.token]
  | .group fence inner => fence.opening :: tokensOf inner ++ fence.closing

/-- The tokens of a list of items. -/
def tokensOf : List Nested → List Token
  | [] => []
  | item :: items => item.tokens ++ tokensOf items

end

/-- The first token of an item. -/
def head : Nested → Token
  | .plain t => t.token
  | .group fence _ => fence.opening

/-- Whether the item ends in a bare `END`. -/
def isBare : Nested → Bool
  | .plain _ => false
  | .group fence _ => fence.isBare

/-- Whether the item is a block. -/
def isBlock : Nested → Bool
  | .plain _ => false
  | .group fence _ => fence.isBlock

mutual

/-- No bare `END` inside the item is directly followed by `IF`, `LOOP` or `CASE`. -/
def Spaced : Nested → Prop
  | .plain _ => True
  | .group _ inner => AllSpaced inner

/-- No bare `END` of the items is directly followed by `IF`, `LOOP` or `CASE`. One that ends a group
is followed by a word or mark that closes the group around it. -/
def AllSpaced : List Nested → Prop
  | [] => True
  | item :: items =>
    item.Spaced ∧ (item.isBare → StartsApart (tokensOf items)) ∧ AllSpaced items

end

/-! ### Groups are passed -/

theorem AllSpaced.of_append {others : List Nested} (h : AllSpaced (items ++ others)) :
    AllSpaced others := by
  induction items with
  | nil => exact h
  | cons item items ih =>
    rw [cons_append, AllSpaced] at h
    exact ih h.2.2

/-- What stands after an item is read apart from it. -/
theorem apart (h : item.isBare → StartsApart rest) : Apart item.tokens rest := by
  have hword : ∀ {word : String}, upper word ≠ upper "END" → ∀ (w : Word word)
      (opening closing : Token) (inner : List Token),
      Apart (opening :: inner ++ [closing, w.token]) rest := by
    intro word hne w opening closing inner
    simpa using Apart.of_last (isKeyword_eq_false w.holds hne) (opening :: inner ++ [closing])
      rest
  cases item with
  | plain t => exact Apart.of_last (Piece.IsInline.of_isPlain t.holds).ends [] rest
  | group fence inner =>
    rw [tokens]
    cases fence with
    | brackets opening closing =>
      have hkind : closing.token.kind ≠ .keyword := by simp [kind_of_isPunct closing.holds]
      exact Apart.of_last (isKeyword_eq_false_of_kind hkind _) _ rest
    | block opening closing => exact (h rfl).apart _
    | conditional _ _ word => exact hword (by decide) word _ _ _
    | iteration _ _ word => exact hword (by decide) word _ _ _
    | selection opening closing word =>
      cases word with
      | none => exact (h rfl).apart _
      | some word => exact hword (by decide) word _ _ _

theorem isGroup (fence : Fence) {inner : List Token} (h : Passes inner) :
    IsGroup fence.opening (inner ++ fence.closing) := by
  have hopens : ∀ (frame : Frame) (w : Word frame.word), w.token.opens = some frame :=
    fun frame w => opens_of_isKeyword frame w.holds
  have hcloses : ∀ (frame : Frame) (closing : Word "END") (w : Word frame.word), frame ≠ .block →
      closing.token.closesWith w.token.toPiece = some frame :=
    fun frame closing w hframe =>
      closesWith_of_isKeyword frame hframe closing.holds w.holds
  cases fence with
  | brackets opening closing => exact .brackets opening.holds h closing.holds
  | block opening closing => exact .closed (hopens .block opening) h closing.holds
  | conditional opening closing word =>
    exact .construct (hopens .conditional opening) h closing.holds
      (hcloses .conditional closing word (by decide))
  | iteration opening closing word =>
    exact .construct (hopens .iteration opening) h closing.holds
      (hcloses .iteration closing word (by decide))
  | selection opening closing word =>
    cases word with
    | none => exact .closed (hopens .selection opening) h closing.holds
    | some word =>
      exact .construct (hopens .selection opening) h closing.holds
        (hcloses .selection closing word (by decide))

mutual

/-- From around an item only its first token is seen. -/
theorem neutral (visit : Option Piece → Piece → Prop) : (item : Nested) → item.Spaced →
    (∀ p, visit p item.head.toPiece) → Neutral (fun _ => True) visit item.tokens
  | .plain t, _, hvisit => Neutral.single (.of_isPlain t.holds) fun p _ => hvisit p
  | .group fence inner, h, hvisit => by
    have hinner : Passes (tokensOf inner) := neutral_tokensOf _ inner h fun _ _ _ => trivial
    rw [tokens]
    exact (isGroup fence hinner).neutral fun p _ => hvisit p

theorem neutral_tokensOf (visit : Option Piece → Piece → Prop) : (items : List Nested) →
    AllSpaced items → (∀ item ∈ items, ∀ p, visit p item.head.toPiece) →
    Neutral (fun _ => True) visit (tokensOf items)
  | [], _, _ => .nil
  | item :: items, h, hvisit => by
    obtain ⟨hitem, hbare, hitems⟩ := h
    have hlater := neutral_tokensOf visit items hitems fun next hnext =>
      hvisit next (mem_cons_of_mem item hnext)
    rw [tokensOf]
    exact (neutral visit item hitem (hvisit item mem_cons_self)).append_any hlater (apart hbare)

end

/-- Well-nested tokens leave the nesting as it was. -/
theorem passes_tokensOf (h : AllSpaced items) : Passes (tokensOf items) :=
  neutral_tokensOf _ items h fun _ _ _ => trivial

/-! ### Where the handlers start -/

/-- After these items, directly inside a block, the declarations of an inner block are being made:
there is a `DECLARE` among them with no `BEGIN` after it. -/
def Declaring (front : List Nested) : Prop :=
  ∃ before t after, front = before ++ .plain t :: after ∧ t.token.isKeyword "DECLARE" ∧
    ∀ item ∈ after, item.isBlock = false

/-- After these items, directly inside a block, a token starts the handlers of that block. -/
def StartsHandlers (front : List Nested) (t : TokenOf isPlain) : Prop :=
  t.token.isKeyword "EXCEPTION" ∧ ¬Declaring front

/-- No handlers start among the items that stand after `front`. -/
def Undivided (front items : List Nested) : Prop :=
  ∀ before t after, items = before ++ .plain t :: after → ¬StartsHandlers (front ++ before) t

/-- Whether declarations are being made after an item, if they are (`declaring`) or are not made
before it. -/
def declaringAfter (declaring : Bool) : Nested → Bool
  | .plain t => t.token.isKeyword "DECLARE" || declaring
  | .group fence _ => !fence.isBlock && declaring

/-- One more item. -/
theorem declaring_snoc_iff (h : declaring ↔ Declaring front) (item : Nested) :
    item.declaringAfter declaring ↔ Declaring (front ++ [item]) := by
  have hsnoc : Declaring (front ++ [item]) ↔
      (∃ t, item = .plain t ∧ t.token.isKeyword "DECLARE") ∨
        (item.isBlock = false ∧ Declaring front) := by
    constructor
    · rintro ⟨before, t, after, hsplit, hword, hafter⟩
      rcases eq_nil_or_concat after with rfl | ⟨later, last, rfl⟩
      · obtain ⟨-, hlast⟩ := append_inj' hsplit rfl
        exact .inl ⟨t, (cons.inj hlast).1, hword⟩
      · rw [concat_eq_append] at hsplit hafter
        rw [← cons_append, ← append_assoc] at hsplit
        obtain ⟨hfront, hlast⟩ := append_inj' hsplit rfl
        obtain rfl := (cons.inj hlast).1
        refine .inr ⟨hafter item (by simp), before, t, later, hfront, hword, fun x hx => ?_⟩
        exact hafter x (mem_append_left _ hx)
    · rintro (⟨t, rfl, hword⟩ | ⟨hblock, before, t, after, rfl, hword, hafter⟩)
      · exact ⟨front, t, [], rfl, hword, by simp⟩
      · refine ⟨before, t, after ++ [item], by simp, hword, fun x hx => ?_⟩
        rcases mem_append.1 hx with hx | hx
        · exact hafter x hx
        · rw [mem_singleton.1 hx]
          exact hblock
  rw [hsnoc]
  cases item with
  | plain t => simp [declaringAfter, isBlock, h]
  | group fence inner => simp [declaringAfter, isBlock, h]

theorem Undivided.cons (hhere : ∀ t, item = .plain t → ¬StartsHandlers front t)
    (h : Undivided (front ++ [item]) items) : Undivided front (item :: items) := by
  intro before t after hsplit
  cases before with
  | nil =>
    rw [append_nil]
    exact hhere t (cons.inj hsplit).1
  | cons first before =>
    obtain ⟨rfl, hitems⟩ := cons.inj hsplit
    have hlater := h before t after hitems
    rwa [append_assoc, singleton_append] at hlater

/-! ### The search for the end of a block -/

/-- The token before a group starts neither handlers nor declarations, and ends declarations only if
the group is a block. -/
theorem opening_keeps (fence : Fence) :
    fence.opening.isKeyword "EXCEPTION" = false ∧ fence.opening.isKeyword "DECLARE" = false ∧
      (fence.isBlock = true ∨ fence.opening.isKeyword "BEGIN" = false) := by
  cases fence with
  | brackets opening closing =>
    have hkind : opening.token.kind ≠ .keyword := by simp [kind_of_isPunct opening.holds]
    have hmark := isKeyword_eq_false_of_kind hkind
    exact ⟨hmark _, hmark _, .inr (hmark _)⟩
  | block word | conditional word | iteration word | selection word =>
    simp only [Fence.opening, Fence.isBlock, isKeyword_eq word.holds]
    decide

/-- The `BEGIN` of an inner block ends its declarations. -/
theorem splitBody_begin (word : Word "BEGIN") (declaring : Bool) (rest : List Token) :
    Sections.splitBody .outerBlock declaring (word.token :: rest) =
      Sections.splitBody .outerBlock false (word.token :: rest) := by
  have hdeclare : word.token.isKeyword "DECLARE" = false := isKeyword_eq word.holds _
  have hexception : word.token.isKeyword "EXCEPTION" = false := isKeyword_eq word.holds _
  have hend : word.token.isKeyword "END" = false := isKeyword_eq word.holds _
  have hcons : ∀ declaring : Bool, Sections.splitBody .outerBlock declaring (word.token :: rest) =
      (Sections.splitBody (Nesting.outerBlock.enter word.token.toPiece) false rest).map
        (word.token :: ·) id := by
    intro declaring
    have hafter : Sections.declaringAfter .outerBlock declaring word.token = false := by
      simp [Sections.declaringAfter, Nesting.inOuterBlock, hdeclare, word.holds]
    rw [splitBody_cons_inside (by simp [Sections.startsHandlers, hexception])
      (by rw [hend, Bool.and_false]) (fun u _ => closesWith_eq_none hend), hafter]
    rfl
  rw [hcons declaring, hcons false]

/-- The search for the end of the statements passes over an item that does not end them. -/
theorem splitBody_item (hspaced : item.Spaced) (hbare : item.isBare → StartsApart rest)
    (hkeeps : ∀ t, item = .plain t → t.token.isKeyword "EXCEPTION" → declaring) :
    splitBody .outerBlock declaring (item.tokens ++ rest) =
      (item.tokens ++ (splitBody .outerBlock (item.declaringAfter declaring) rest).1,
        (splitBody .outerBlock (item.declaringAfter declaring) rest).2) := by
  have hapart := apart hbare
  cases item with
  | plain t =>
    have hinline : t.token.IsInline := .of_isPlain t.holds
    have hhandlers : startsHandlers .outerBlock declaring t.token = false := by
      unfold startsHandlers
      cases hword : t.token.isKeyword "EXCEPTION" with
      | true => simp [hkeeps t rfl hword]
      | false => simp
    have hafter : Sections.declaringAfter .outerBlock declaring t.token =
        declaringAfter declaring (.plain t) := by
      have hbegin := (opens_eq_none_iff.1 hinline.opens).1
      simp only [Sections.declaringAfter, declaringAfter, hbegin]
      cases t.token.isKeyword "DECLARE" <;> rfl
    rw [tokens, singleton_append, splitBody_cons_inside hhandlers
      (by rw [hinline.ends, Bool.and_false]) (fun u _ => closesWith_eq_none hinline.ends),
      Nesting.enter_of_inline hinline, hafter]
    rfl
  | group fence inner =>
    obtain ⟨hexception, hdeclare, hbegin⟩ := opening_keeps fence
    have hstart : splitBody .outerBlock declaring (tokens (.group fence inner) ++ rest) =
        splitBody .outerBlock (declaringAfter declaring (.group fence inner))
          (tokens (.group fence inner) ++ rest) := by
      cases fence with
      | block opening closing => exact splitBody_begin opening declaring _
      | brackets | conditional | iteration | selection => rfl
    have hpassage := neutral (fun _ p => p = fence.opening.toPiece) (.group fence inner) hspaced
      (fun _ => rfl) .outerBlock none rest trivial hapart
    rw [hstart]
    refine Passage.splitBody_keepsSection (hpassage.mono ?_) isOutside_outerBlock
    rintro n p t ⟨hwithin, hbase⟩
    refine ⟨Nesting.isOutside_of_within hwithin isOutside_outerBlock, fun hn => ?_⟩
    rw [hbase (beq_iff_eq.1 hn)]
    refine ⟨.inr hexception, .inr hdeclare, ?_⟩
    rcases hbegin with hblock | hbegin
    · simp [declaringAfter, hblock]
    · exact .inr hbegin

/-- The statements and handlers of a well-nested block: they are cut at the first `EXCEPTION` that
starts handlers. -/
theorem splitBody_items (hend : ending.isKeyword "END") (htail : StartsApart tail) :
    ∀ (items front : List Nested) (declaring : Bool),
    AllSpaced items → (declaring ↔ Declaring front) →
    (Undivided front items ∧
      splitBody .outerBlock declaring (tokensOf items ++ ending :: tail) =
        (tokensOf items, .closed tail)) ∨
    ∃ before t after, items = before ++ .plain t :: after ∧ StartsHandlers (front ++ before) t ∧
      Undivided front before ∧
      splitBody .outerBlock declaring (tokensOf items ++ ending :: tail) =
        (tokensOf before, .handlers (tokensOf after ++ ending :: tail))
  | [], front, declaring, _, _ => by
    have hcloses : ∀ u ∈ tail.head?, ending.closesWith u.toPiece = none :=
      fun u hu => closesWith_eq_none_of_next (htail u hu)
    refine .inl ⟨fun before t after hnil => by simp at hnil, ?_⟩
    exact splitBody_end hend declaring hcloses
  | item :: items, front, declaring, hspaced, hdeclaring => by
    obtain ⟨hitem, hbare, hitems⟩ := hspaced
    by_cases hstarts : ∃ t, item = .plain t ∧ StartsHandlers front t
    · obtain ⟨t, rfl, hword, hfront⟩ := hstarts
      obtain rfl : declaring = false := by simpa [← hdeclaring] using hfront
      refine .inr ⟨[], t, items, rfl, ?_, fun before u after hnil => by simp at hnil, ?_⟩
      · rw [append_nil]
        exact ⟨hword, hfront⟩
      · exact splitBody_exception hword _
    · have hhere : ∀ t, item = .plain t → ¬StartsHandlers front t :=
        fun t ht hfront => hstarts ⟨t, ht, hfront⟩
      have hkeeps : ∀ t, item = .plain t → t.token.isKeyword "EXCEPTION" →
          declaring := fun t ht hword =>
        hdeclaring.2 (Classical.byContradiction fun hfront => hhere t ht ⟨hword, hfront⟩)
      have hapart : item.isBare → StartsApart (tokensOf items ++ ending :: tail) :=
        fun h => (hbare h).append (.cons (closesAfterEnd_of_end hend) tail)
      have hstep := splitBody_item hitem hapart hkeeps
      have hnext := declaring_snoc_iff hdeclaring item
      rw [tokensOf, append_assoc, hstep]
      rcases splitBody_items hend htail items (front ++ [item]) _ hitems hnext with
        ⟨hundivided, hsplit⟩ | ⟨before, t, after, rfl, hword, hundivided, hsplit⟩
      · exact .inl ⟨.cons hhere hundivided, by rw [hsplit]⟩
      · refine .inr ⟨item :: before, t, after, rfl, ?_, .cons hhere hundivided, ?_⟩
        · rwa [append_assoc] at hword
        · rw [hsplit]
          rfl

end Nested

namespace Sections

open Nested

/-- The first `BEGIN` is found behind declarations that have none. -/
theorem splitBegin_append (hword : word.isKeyword "BEGIN") (rest : List Token) :
    ∀ (declared : List Token) (previous : Option Piece),
    (∀ t ∈ declared, t.isKeyword "BEGIN" = false) →
    (∀ front t after, declared = front ++ t :: after → t.isKeyword "EXCEPTION" →
      (lastPiece previous front).any isIdentifier) →
    splitBegin previous (declared ++ word :: rest) = .ok (some (declared, rest))
  | [], previous, _, _ => by rw [nil_append, splitBegin, if_pos hword]
  | t :: declared, previous, hbegin, hexception => by
    have hhere : ¬(t.isKeyword "EXCEPTION" && !previous.any isIdentifier) := by
      cases ht : t.isKeyword "EXCEPTION" with
      | false => simp
      | true =>
        have hname : previous.any isIdentifier := hexception [] t declared rfl ht
        simp [hname]
    have hlater := splitBegin_append hword rest declared (some t.toPiece)
      (fun u hu => hbegin u (mem_cons_of_mem t hu))
      (fun front u after hsplit => hexception (t :: front) u after (by rw [hsplit]; rfl))
    have hnotBegin : ¬t.isKeyword "BEGIN" := by simp [hbegin t mem_cons_self]
    rw [cons_append, splitBegin, if_neg hnotBegin, if_neg hhere, hlater]

theorem takeLabel_subset (ts : List Token) : (takeLabel ts).2 ⊆ ts := by
  obtain ⟨name, hts, _⟩ := takeLabel_eq ts
  exact fun t ht => hts ▸ mem_append_right _ ht

theorem dropOne_subset (p : Piece → Bool) (ts : List Token) :
    dropOne (fun t => p t.toPiece) ts ⊆ ts := by
  obtain ⟨mark, hts⟩ := dropOne_eq p ts
  intro t ht
  rw [hts]
  exact mem_append_right _ ht

/-- The parts of a block with no `DECLARE` behind its final `END` can be put together. -/
theorem exists_assemble {after : List Token} (h : ∀ t ∈ after, t.isKeyword "DECLARE" = false)
    (ts before statements : List Token) (handlers : Option (List Token)) :
    ∃ s, assemble ts before statements handlers (some after) = .ok s := by
  have htrailing : ∀ t ∈ dropOne (fun t => t.isOp "/")
      (dropOne (fun t => t.isPunct ';') (takeLabel after).2), ¬t.isKeyword "DECLARE" := by
    intro t ht
    have hleft := dropOne_subset (·.isPunct ';') _ (dropOne_subset (·.isOp "/") _ ht)
    simp [h t (takeLabel_subset after hleft)]
  unfold assemble
  simp only [Option.getD_some, find?_eq_none.2 htrailing]
  exact ⟨_, rfl⟩

/-- The searches after `BEGIN` find these statements and handlers, before `tail`. -/
def Finds (rest statements : List Token) (handlers : Option (List Token)) (tail : List Token) :
    Prop :=
  match handlers with
  | none => splitBody .outerBlock false rest = (statements, .closed tail)
  | some inner => ∃ after, splitBody .outerBlock false rest = (statements, .handlers after) ∧
      splitEnd .outerBlock after = (inner, some tail)

/-- A block whose statements and handlers are found is cut into sections. -/
theorem exists_split {declared statements : List Token} {handlers : Option (List Token)}
    (hword : word.isKeyword "BEGIN") (hbegin : ∀ t ∈ declared, t.isKeyword "BEGIN" = false)
    (hexception : ∀ front t after, declared = front ++ t :: after →
      t.isKeyword "EXCEPTION" → (lastPiece none front).any isIdentifier)
    (hdeclare : ∀ t ∈ tail, t.isKeyword "DECLARE" = false)
    (hrest : Finds rest statements handlers tail) :
    ∃ s, split (declared ++ word :: rest) = .ok s ∧ s.warnings = [] ∧
      s.declarations = declarationsOf declared ∧ s.statements = statements ∧
      s.handlers = handlers := by
  obtain ⟨s, hs⟩ := exists_assemble hdeclare (declared ++ word :: rest) declared statements handlers
  obtain ⟨hdeclarations, hstatements, hhandlers, _, _, hwarnings⟩ := assemble_ok hs
  have hsplit : split (declared ++ word :: rest) =
      assemble (declared ++ word :: rest) declared statements handlers (some tail) := by
    rw [split, splitBegin_append hword rest declared none hbegin hexception]
    cases handlers with
    | none =>
      have hbody : splitBody .outerBlock false rest = _ := hrest
      simp only [hbody]
    | some inner =>
      obtain ⟨after, hbody, hinner⟩ := hrest
      simp only [hbody, hinner]
  exact ⟨s, hsplit.trans hs, hwarnings, hdeclarations, hstatements, hhandlers⟩

/-- The statements and handlers are the items, cut at the first token that starts handlers. -/
def CutAtHandlers (items : List Nested) (statements : List Token)
    (handlers : Option (List Token)) : Prop :=
  (Undivided [] items ∧ statements = tokensOf items ∧ handlers = none) ∨
    ∃ before t after, items = before ++ .plain t :: after ∧ StartsHandlers before t ∧
      Undivided [] before ∧ statements = tokensOf before ∧ handlers = some (tokensOf after)

theorem exists_finds (hitems : AllSpaced items) (hend : ending.isKeyword "END")
    (htail : StartsApart tail) :
    ∃ statements handlers, CutAtHandlers items statements handlers ∧
      Finds (tokensOf items ++ ending :: tail) statements handlers tail := by
  rcases splitBody_items hend htail items [] false hitems (by simp [Declaring]) with
    ⟨hundivided, hbody⟩ | ⟨before, t, after, rfl, hstarts, hundivided, hbody⟩
  · exact ⟨tokensOf items, none, .inl ⟨hundivided, rfl, rfl⟩, hbody⟩
  · refine ⟨tokensOf before, some (tokensOf after),
      .inr ⟨before, t, after, rfl, hstarts, hundivided, rfl, rfl⟩, _, hbody, ?_⟩
    obtain ⟨_, _, hafter⟩ := hitems.of_append
    have happart : Apart (tokensOf after) (ending :: tail) :=
      (StartsApart.cons (closesAfterEnd_of_end hend) tail).apart _
    rw [(passes_tokensOf hafter).splitEnd_append happart,
      splitEnd_end hend fun u hu => closesWith_eq_none_of_next (htail u hu), append_nil]

/-- A well-nested block is cut at its own boundaries, however deep the groups inside it are. What
stands before its `BEGIN` are the declarations, less one leading `DECLARE`. -/
theorem split_wellNested (declared : List Token) (word : Word "BEGIN") (items : List Nested)
    (ending : Word "END") (tail : List Token)
    (hbegin : ∀ t ∈ declared, t.isKeyword "BEGIN" = false)
    (hexception : ∀ front t after, declared = front ++ t :: after →
      t.isKeyword "EXCEPTION" = true → ∃ name ∈ front.getLast?, name.isIdentifier = true)
    (hitems : AllSpaced items)
    (htail : ∀ t ∈ tail.head?, ∀ next ∈ ["IF", "LOOP", "CASE"], t.isKeyword next = false)
    (hdeclare : ∀ t ∈ tail, t.isKeyword "DECLARE" = false) :
    ∃ s, split (declared ++ word.token :: (tokensOf items ++ ending.token :: tail)) = .ok s ∧
      s.warnings = [] ∧ (declared = [] → s.declarations = none) ∧
      (∀ t rest, declared = t :: rest →
        s.declarations = some (if t.isKeyword "DECLARE" then rest else declared)) ∧
      CutAtHandlers items s.statements s.handlers := by
  have hfollows : StartsApart tail := by
    intro t ht
    have hnext := htail t ht
    simp [closesAfterEnd, hnext "IF", hnext "LOOP", hnext "CASE"]
  have hnames : ∀ front t after, declared = front ++ t :: after →
      t.isKeyword "EXCEPTION" → (lastPiece none front).any isIdentifier := by
    intro front t after hsplit hword
    obtain ⟨name, hlast, hname⟩ := hexception front t after hsplit hword
    rw [lastPiece_eq, Option.or_none, Option.mem_def.1 hlast]
    exact hname
  obtain ⟨statements, handlers, hcut, hfinds⟩ := exists_finds hitems ending.holds hfollows
  obtain ⟨s, hsplit, hwarnings, hdeclarations, rfl, rfl⟩ :=
    exists_split word.holds hbegin hnames hdeclare hfinds
  refine ⟨s, hsplit, hwarnings, ?_, ?_, hcut⟩
  · rintro rfl
    exact hdeclarations
  · rintro t rest rfl
    rw [hdeclarations, declarationsOf]
    split <;> rfl

/-- `DECLARE f EXCEPTION; BEGIN CASE x END; EXCEPTION y; END; EXCEPTION LOOP (END_DATE) END LOOP;`
-/
def innerHandlers : List Nested :=
  [.plain ⟨⟨⟨.keyword, "DECLARE"⟩, 21⟩, by decide⟩, .plain ⟨⟨⟨.identifier, "f"⟩, 29⟩, by decide⟩,
    .plain ⟨⟨⟨.keyword, "EXCEPTION"⟩, 31⟩, by decide⟩,
    .plain ⟨⟨⟨.punctuation, ";"⟩, 40⟩, by decide⟩,
    .group (.block (.placed 42) (.placed 74))
      [.group (.selection (.placed 48) (.placed 55) none)
          [.plain ⟨⟨⟨.identifier, "x"⟩, 53⟩, by decide⟩],
        .plain ⟨⟨⟨.punctuation, ";"⟩, 58⟩, by decide⟩,
        .plain ⟨⟨⟨.keyword, "EXCEPTION"⟩, 60⟩, by decide⟩,
        .plain ⟨⟨⟨.identifier, "y"⟩, 70⟩, by decide⟩,
        .plain ⟨⟨⟨.punctuation, ";"⟩, 71⟩, by decide⟩],
    .plain ⟨⟨⟨.punctuation, ";"⟩, 77⟩, by decide⟩,
    .plain ⟨⟨⟨.keyword, "EXCEPTION"⟩, 79⟩, by decide⟩,
    .group (.iteration (.placed 89) (.placed 105) (.placed 109))
      [.group (.brackets (.placed 94) (.placed 103))
        [.plain ⟨⟨⟨.identifier, "END_DATE"⟩, 95⟩, by decide⟩]],
    .plain ⟨⟨⟨.punctuation, ";"⟩, 113⟩, by decide⟩]

/-- The inner declarations and the inner block have an `EXCEPTION` each. The handlers of the outer
block start at the third one. -/
theorem split_wellNested_innerHandlers :
    AllSpaced innerHandlers ∧
      ∃ s, split ((Token.recover "e EXCEPTION; ").1 ++ ⟨⟨.keyword, "BEGIN"⟩, 13⟩ ::
          (tokensOf innerHandlers ++ ⟨⟨.keyword, "END"⟩, 115⟩ :: [⟨⟨.punctuation, ";"⟩, 118⟩])) =
          .ok s ∧
        s.warnings = [] ∧ s.declarations = some (Token.recover "e EXCEPTION; ").1 ∧
        s.handlers = some (tokensOf (innerHandlers.drop 7)) ∧
        CutAtHandlers innerHandlers s.statements s.handlers := by
  have hspaced : AllSpaced innerHandlers := by
    simp only [innerHandlers, AllSpaced, Spaced, isBare, Fence.isBare, true_and, and_true,
      reduceCtorEq, false_imp_iff, forall_const]
    exact ⟨.cons (by decide) _, .cons (by decide) _⟩
  have hdeclared : (Token.recover "e EXCEPTION; ").1 = [⟨⟨.identifier, "e"⟩, 0⟩,
      ⟨⟨.keyword, "EXCEPTION"⟩, 2⟩, ⟨⟨.punctuation, ";"⟩, 11⟩] := by
    decide +kernel
  have hnames : ∀ front t after, (Token.recover "e EXCEPTION; ").1 = front ++ t :: after →
      t.isKeyword "EXCEPTION" → ∃ name ∈ front.getLast?, name.isIdentifier := by
    intro front t after hsplit hword
    rw [hdeclared] at hsplit
    rcases front with _ | ⟨a, _ | ⟨b, _ | ⟨c, front⟩⟩⟩
    · obtain ⟨rfl, -⟩ := cons.inj hsplit
      exact absurd hword (by decide)
    · obtain ⟨rfl, -⟩ := cons.inj hsplit
      exact ⟨_, rfl, by decide⟩
    · obtain ⟨-, hsplit⟩ := cons.inj hsplit
      obtain ⟨-, hsplit⟩ := cons.inj hsplit
      obtain ⟨rfl, -⟩ := cons.inj hsplit
      exact absurd hword (by decide)
    · simp at hsplit
  obtain ⟨s, hsplit, hwarnings, _, hdeclarations, hcut⟩ := split_wellNested
    (Token.recover "e EXCEPTION; ").1 (.placed 13) innerHandlers
    (.placed 115) [⟨⟨.punctuation, ";"⟩, 118⟩] (by decide +kernel) hnames
    hspaced (by decide) (by decide)
  refine ⟨hspaced, s, hsplit, hwarnings, ?_, ?_, hcut⟩
  · rw [hdeclarations _ _ hdeclared]
    rfl
  · have hread : (split ((Token.recover "e EXCEPTION; ").1 ++ ⟨⟨.keyword, "BEGIN"⟩, 13⟩ ::
        (tokensOf innerHandlers ++ ⟨⟨.keyword, "END"⟩, 115⟩ ::
          [⟨⟨.punctuation, ";"⟩, 118⟩]))).toOption.map handlers =
        some (some (tokensOf (innerHandlers.drop 7))) := by
      decide +kernel
    rw [hsplit] at hread
    exact Option.some.inj hread

end Sections

end TriggerDialect
