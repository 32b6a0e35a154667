import TriggerDialect.Proofs.Positions.Search
import TriggerDialect.Proofs.Sections.WellNested

/-!
# Neutrality of well-nested tokens

`Nesting.reached` is the nesting in which the walk over a token list stands at a position, where the
walk steps onto that position at all. A well-nested list is neutral wherever it stands: the walk
that reaches its start reaches its end, in the same nesting, and a search from its start looks at
nothing in it but the plain tokens and the opening tokens outside all groups (`reached_wellNested`).
-/

namespace TriggerDialect

open List Nesting

/-! ### The nesting at a position -/

namespace Nesting

/-- The nesting at a position, from the steps that lead there; none where a step goes over it. -/
def standing (n : Nesting) : List (Nat × Nesting) → Nat → Option Nesting
  | _, 0 => some n
  | [], _ + 1 => none
  | (size, next) :: steps, i + 1 =>
    if size ≤ i + 1 then next.standing steps (i + 1 - size) else none

/-- The nesting in which the walk from `n` over the tokens stands at a position. -/
def reached (n : Nesting) (ts : List Token) (i : Nat) : Option Nesting := n.standing (n.trace ts) i

variable {n m : Nesting} {ts front : List Token} {t u : Token} {frame : Frame}

@[simp] theorem reached_zero (n : Nesting) (ts : List Token) : n.reached ts 0 = some n := by
  rw [reached, standing]

theorem reached_pair (h : t.closesWith u.toPiece = some frame) (i : Nat) :
    n.reached (t :: u :: ts) (i + 2) = (n.close frame).reached ts i := by
  simp [reached, trace, h, standing]

/-- The second of two tokens that close together is stepped over. -/
theorem reached_pair_one (h : t.closesWith u.toPiece = some frame) :
    n.reached (t :: u :: ts) 1 = none := by
  simp [reached, trace, h, standing]

theorem reached_step (h : ∀ u ∈ ts.head?, t.closesWith u.toPiece = none) (i : Nat) :
    n.reached (t :: ts) (i + 1) = (n.enter t.toPiece).reached ts i := by
  cases ts with
  | nil => simp [reached, trace, standing]
  | cons u ts => simp [reached, trace, h u rfl, standing]

/-- The walk goes on from a position it reaches as it would from there. -/
theorem reached_append (h : n.reached (front ++ ts) front.length = some m) (i : Nat) :
    n.reached (front ++ ts) (front.length + i) = m.reached ts i := by
  fun_induction trace n front with
  | case1 n =>
    obtain rfl : n = m := by simpa using h
    rw [nil_append, length_nil, Nat.zero_add]
  | case2 n t =>
    have hstep : ∀ u ∈ ts.head?, t.closesWith u.toPiece = none := by
      intro u hu
      obtain ⟨rest, rfl⟩ := head?_eq_some_iff.1 hu
      cases hcloses : t.closesWith u.toPiece with
      | none => rfl
      | some frame => simp [reached_pair_one hcloses] at h
    rw [singleton_append, length_singleton] at h ⊢
    rw [reached_step hstep, reached_zero, Option.some_inj] at h
    rw [Nat.add_comm, reached_step hstep, h]
  | case3 n t u front frame hcloses ih =>
    simp only [cons_append, length_cons, Nat.add_right_comm _ _ i, reached_pair hcloses] at h ⊢
    exact ih h
  | case4 n t u front hcloses ih =>
    have hstep : ∀ u' ∈ (u :: front ++ ts).head?, t.closesWith u'.toPiece = none := by
      rintro u' ⟨⟩
      exact hcloses
    rw [cons_append, length_cons, reached_step hstep] at h
    rw [cons_append, length_cons, Nat.add_right_comm, reached_step hstep]
    exact ih h

end Nesting

variable {rest ts all : List Token} {n n' : Nesting} {previous previous' : Option Piece} {i : Nat}

/-- The walk reaches the end of a passage. -/
theorem Passage.reached {visit : Nesting → Option Piece → Piece → Prop}
    (h : Passage visit rest n previous ts n' previous') :
    n.reached (ts ++ rest) ts.length = some n' := by
  induction h with
  | done n previous => exact n.reached_zero _
  | pair _ hcloses _ ih =>
    rw [cons_append, cons_append, length_cons, length_cons, reached_pair hcloses, ih]
  | step _ hcloses _ ih => rw [cons_append, length_cons, reached_step hcloses, ih]

/-! ### Searches in well-nested tokens -/

namespace Positions

variable {stop : Nat → Bool}

theorem At.search_step {t : Token} (h : At all i (t :: rest))
    (hstop : (n.isOutside && stop i) = false)
    (hcloses : ∀ u ∈ rest.head?, t.closesWith u.toPiece = none) :
    search? (fun k => some (stop k)) all n i =
      search? (fun k => some (stop k)) all (n.enter t.toPiece) (i + 1) := by
  have hnone : (rest.head?.bind fun u => t.closesWith u.toPiece) = none :=
    Option.bind_eq_none_iff.2 hcloses
  rw [h.search rfl, hstop, hnone]
  rfl

/-- A search goes over a passage that never stands outside all nesting. -/
theorem search?_passage (h : Passage (fun m _ _ => m.isOutside = false) rest n previous ts n'
    previous') (hat : At all i (ts ++ rest)) :
    search? (fun k => some (stop k)) all n i =
      search? (fun k => some (stop k)) all n' (i + ts.length) := by
  induction h generalizing i with
  | done => rfl
  | @pair n n' previous previous' t u ts frame hvisit hcloses _ ih =>
    have hlength : i + (t :: u :: ts).length = i + 2 + ts.length := by
      simp only [length_cons]
      omega
    rw [cons_append, cons_append] at hat
    rw [hat.search rfl, hvisit, head?_cons, Option.bind_some, hcloses, hlength]
    exact ih hat.cons.cons
  | @step n n' previous previous' t ts hvisit hcloses _ ih =>
    have hlength : i + (t :: ts).length = i + 1 + ts.length := by
      simp only [length_cons]
      omega
    rw [hat.search_step (by rw [hvisit]; rfl) hcloses, hlength, ih hat.cons]

/-- Whether `stop` holds at a position: of its token and of the one before it. -/
def stopsAt (stop : Option Piece → Piece → Bool) (previous : Option Piece) (ts : List Token)
    (k : Nat) : Bool :=
  ts[k]?.any fun t => stop (lastPiece previous (ts.take k)) t.toPiece

theorem sees_stopsAt (stop : Option Piece → Piece → Bool) (previous : Option Piece)
    (front rest : List Token) :
    Sees (fun k => some (stopsAt stop previous (front ++ rest) k)) stop front.length
      (lastPiece previous front) rest := by
  induction rest generalizing front with
  | nil => trivial
  | cons t rest ih =>
    have hlater := ih (front ++ [t])
    rw [append_assoc, lastPiece_append, length_append] at hlater
    exact ⟨by simp [stopsAt], hlater⟩

/-- A list is cut where the search for the same stop ends. -/
theorem spanFrom_eq_of_search? {stop : Option Piece → Piece → Bool} {k : Nat}
    (h : search? (fun k => some (stopsAt stop previous ts k)) ts n 0 = some (some k)) :
    spanFrom stop n previous ts = (ts.take k, ts.drop k) := by
  have hcut := search?_eq (n := n) (at_zero ts) (sees_stopsAt stop previous [] ts)
  rw [nil_append, h, Option.some_inj, foundAt] at hcut
  have hwhole := spanFrom_append stop n previous ts
  rw [lastPiece] at hcut
  generalize spanFrom stop n previous ts = cut at hcut hwhole ⊢
  split at hcut
  · cases hcut
  · obtain rfl : k = cut.1.length := by simpa using hcut
    rw [← hwhole, take_left, drop_left]

end Positions

namespace Nested

open Positions

variable {item : Nested} {items : List Nested} {stop : Nat → Bool}

/-- The positions outside all groups, for items that start at `i`: those of the plain tokens and of
the opening tokens. -/
def tops (i : Nat) : List Nested → List Nat
  | [] => []
  | item :: items => i :: tops (i + item.tokens.length) items

theorem tokens_eq_head (item : Nested) : ∃ others, item.tokens = item.head :: others := by
  cases item with
  | plain t => exact ⟨[], by rw [tokens, head]⟩
  | group fence inner => exact ⟨tokensOf inner ++ fence.closing, by rw [tokens, head]; rfl⟩

/-- What follows items is read apart from them if it is read apart from the last one. -/
theorem apart_tokensOf (h : ∀ item ∈ items.getLast?, item.isBare → StartsApart rest) :
    Apart (tokensOf items) rest := by
  induction items with
  | nil => exact fun p hp => by cases hp
  | cons item items ih =>
    have hlast : (item :: items).getLast? = some (items.getLast?.getD item) := getLast?_cons
    rw [tokensOf]
    refine (ih fun last hmem => h last (by rw [hlast, hmem]; rfl)).append_left fun hnil => ?_
    cases items with
    | nil => exact apart (h item rfl)
    | cons next items =>
      obtain ⟨others, htokens⟩ := next.tokens_eq_head
      simp [tokensOf, htokens] at hnil

/-- A search from outside goes over an item whose first token is no stop. -/
theorem search?_item (hspaced : item.Spaced) (hapart : Apart item.tokens rest)
    (hat : At all i (item.tokens ++ rest)) (hstop : stop i = false) :
    search? (fun k => some (stop k)) all .outside i =
      search? (fun k => some (stop k)) all .outside (i + item.tokens.length) := by
  cases item with
  | plain t =>
    rw [tokens] at hapart hat ⊢
    rw [hat.search_step (by simp [hstop]) (hapart t.token.toPiece rfl),
      enter_of_inline (.of_isPlain t.holds)]
    rfl
  | group fence inner =>
    have hgroup := isGroup fence (passes_tokensOf hspaced)
    obtain ⟨-, hout, hpassage⟩ := hgroup.2 .outside
    have hinside : (outside.enter fence.opening.toPiece).isOutside = false := by
      rw [isOutside, beq_eq_false_iff_ne]
      exact fun heq => hout (by rw [heq]; exact .refl _)
    rw [tokens] at hapart hat ⊢
    rw [hat.search_step (by simp [hstop]) fun u _ => Piece.closesWith_eq_none hgroup.1]
    rw [search?_passage ((hpassage none rest hapart).mono fun m _ _ hm =>
      isOutside_of_within hm hinside) hat.cons]
    simp only [cons_append, length_cons]
    rw [Nat.add_assoc, Nat.add_comm 1]

/-- A search from the start of well-nested tokens looks at their positions outside all groups. -/
theorem search?_tokensOf (hspaced : AllSpaced items) (hapart : Apart (tokensOf items) rest)
    (hat : At all i (tokensOf items ++ rest)) :
    search? (fun k => some (stop k)) all .outside i =
      match (tops i items).find? stop with
      | some k => some (some k)
      | none => search? (fun k => some (stop k)) all .outside (i + (tokensOf items).length) := by
  induction items generalizing i with
  | nil => rfl
  | cons item items ih =>
    obtain ⟨hitem, hbare, hitems⟩ := hspaced
    rw [tokensOf] at hapart hat ⊢
    rw [tops, find?_cons]
    cases hstop : stop i with
    | true =>
      obtain ⟨others, htokens⟩ := item.tokens_eq_head
      rw [htokens] at hat
      rw [hat.search rfl, hstop]
      rfl
    | false =>
      rw [append_assoc] at hat
      have hnext := (apart hbare).append_right hapart
      rw [search?_item hitem hnext hat hstop, ih hitems hapart.right hat.append, length_append,
        Nat.add_assoc]

/-- Well-nested tokens are neutral wherever they stand. The walk that stands at their start in some
nesting stands at their end in the same. A search from their start ends at the first of their
positions outside all groups at which its stop holds, if there is one: a search by position, for any
stop, and the cut of a list for one that looks at a token and the one before it. -/
theorem reached_wellNested (items : List Nested) (front rest : List Token)
    (hspaced : AllSpaced items)
    (hrest : ∀ item ∈ items.getLast?, item.isBare = true → StartsApart rest) :
    (∀ n base : Nesting,
      n.reached (front ++ (tokensOf items ++ rest)) front.length = some base →
      n.reached (front ++ (tokensOf items ++ rest)) (front.length + (tokensOf items).length) =
        some base) ∧
    (∀ (stop : Nat → Bool) (k : Nat), (tops front.length items).find? stop = some k →
      search? (fun i => some (stop i)) (front ++ (tokensOf items ++ rest)) .outside front.length =
        some (some k)) ∧
    ∀ (stop : Option Piece → Piece → Bool) (previous : Option Piece) (k : Nat),
      (tops 0 items).find? (stopsAt stop previous (tokensOf items ++ rest)) = some k →
      spanFrom stop .outside previous (tokensOf items ++ rest) =
        ((tokensOf items ++ rest).take k, (tokensOf items ++ rest).drop k) := by
  have hapart : Apart (tokensOf items) rest := apart_tokensOf hrest
  refine ⟨fun n base hbase => ?_, fun stop k hk => ?_, fun stop previous k hk => ?_⟩
  · rw [reached_append hbase]
    exact (passes_tokensOf hspaced base none rest trivial hapart).reached
  · have hat := (at_zero (front ++ (tokensOf items ++ rest))).append
    rw [Nat.zero_add] at hat
    rw [search?_tokensOf hspaced hapart hat, hk]
  · apply spanFrom_eq_of_search?
    rw [search?_tokensOf hspaced hapart (at_zero _), hk]

/-- `EXCEPTION LOOP (END_DATE) END LOOP; DECLARE f EXCEPTION; BEGIN CASE x END; EXCEPTION y; END` -/
def handlersFirst : List Nested := Sections.innerHandlers.drop 6 ++ Sections.innerHandlers.take 5

/-- Inside a bracket and an `IF`, and before a semicolon. -/
theorem reached_wellNested_handlersFirst :
    outside.reached ((Token.recover "(IF ").1 ++
        (tokensOf handlersFirst ++ (Token.recover ";").1)) (2 + 21) = some ⟨1, [.conditional]⟩ ∧
    search? (fun i => some (decide (5 ≤ i))) ((Token.recover "(IF ").1 ++
        (tokensOf handlersFirst ++ (Token.recover ";").1)) .outside 2 = some (some 9) ∧
    spanAtDepth (·.isPunct ';') (tokensOf handlersFirst ++ (Token.recover ";").1) =
      ((tokensOf handlersFirst ++ (Token.recover ";").1).take 7,
        (tokensOf handlersFirst ++ (Token.recover ";").1).drop 7) := by
  have hspaced : AllSpaced handlersFirst := by
    simp only [handlersFirst, Sections.innerHandlers, drop, take, cons_append, nil_append,
      AllSpaced, Spaced, isBare, Fence.isBare, true_and, and_true, reduceCtorEq, false_imp_iff,
      forall_const]
    exact ⟨.cons (by decide) _, .nil⟩
  have hfront : (Token.recover "(IF ").1.length = 2 := by decide +kernel
  have hlength : (tokensOf handlersFirst).length = 21 := by decide +kernel
  have hrest : (Token.recover ";").1 = [⟨⟨.punctuation, ";"⟩, 0⟩] := by decide +kernel
  obtain ⟨hreached, hsearch, hspan⟩ := reached_wellNested handlersFirst (Token.recover "(IF ").1
    (Token.recover ";").1 hspaced fun _ _ _ => hrest ▸ .cons (by decide) []
  rw [hfront, hlength] at hreached
  rw [hfront] at hsearch
  exact ⟨hreached .outside ⟨1, [.conditional]⟩ (by decide +kernel),
    hsearch (fun i => decide (5 ≤ i)) 9 (by decide +kernel),
    hspan (fun _ p => p.isPunct ';') none 7 (by decide +kernel)⟩

end Nested

end TriggerDialect
