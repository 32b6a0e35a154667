import TriggerDialect.Proofs.Nesting.Neutrality

/-!
# Splitting at commas

The parts into which a token list is split are the list again once commas are put between them, and
none of them can be split any further. Well-nested spans without commas of their own that stand
between commas are the parts (`splitCommas_exact`).
-/

namespace TriggerDialect

open Nesting

variable {ts : List Token} {t : Token} {n : Nesting} {k : Nat}

/-- No stop stands outside all nesting in the first part of a cut, as seen from its own start. -/
theorem not_stop_of_reached {stop : Piece → Bool} {previous : Option Piece}
    (hk : (spanFrom (fun _ p => stop p) n previous ts).1[k]? = some t)
    (hreached : n.reached (spanFrom (fun _ p => stop p) n previous ts).1 k = some .outside) :
    stop t.toPiece = false := by
  have hhere : ∀ {n : Nesting} {us : List Token} {u : Token},
      ¬(n.isOutside && stop u.toPiece) → n.reached us 0 = some .outside →
      some u = some t → stop t.toPiece = false := by
    rintro n us u hstop hzero ⟨⟩
    rw [reached_zero] at hzero
    cases hzero
    simpa [isOutside] using hstop
  fun_induction spanFrom (fun _ p => stop p) n previous ts generalizing k with
  | case1 => cases hk
  | case2 => cases hk
  | case3 n previous u hstop =>
    cases k with
    | zero => exact hhere hstop hreached hk
    | succ k => cases hk
  | case4 => cases hk
  | case5 n previous u v rest hstop frame hcloses =>
    rename_i ih
    rcases k with _ | _ | k
    · exact hhere hstop hreached hk
    · rw [reached_pair_one hcloses] at hreached
      cases hreached
    · rw [reached_pair hcloses] at hreached
      exact ih hk hreached
  | case6 n previous u v rest hstop hcloses =>
    rename_i ih
    cases k with
    | zero => exact hhere hstop hreached hk
    | succ k =>
      have hwhole := spanFrom_append (fun _ p => stop p) (n.enter u.toPiece) (some u.toPiece)
        (v :: rest)
      rw [reached_step] at hreached
      · exact ih hk hreached
      · intro w hw
        obtain ⟨front, hfront⟩ := List.head?_eq_some_iff.1 hw
        rw [hfront, List.cons_append] at hwhole
        rwa [(List.cons.inj hwhole).1]

/-- The parts are the tokens between the commas. -/
theorem joined_splitCommas (ts : List Token) : Joined (splitCommas ts) ts := by
  fun_induction splitCommas ts with
  | case1 ts hcut =>
    have hwhole := spanAtDepth_append (·.isPunct ',') ts
    rw [hcut, List.append_nil] at hwhole
    rw [hwhole]
    exact .last ts
  | case2 ts comma rest hcut hlt ih =>
    have hwhole := spanAtDepth_append (·.isPunct ',') ts
    obtain ⟨-, hcomma⟩ := stop_of_spanFrom (Prod.ext rfl hcut)
    have hjoined := Joined.cons (spanAtDepth (·.isPunct ',') ts).1 hcomma ih
    rwa [← hcut, hwhole] at hjoined

/-- No comma stands outside all nesting in a part. -/
theorem not_comma_of_mem_splitCommas {part : List Token} (hpart : part ∈ splitCommas ts)
    (hk : part[k]? = some t) (hreached : outside.reached part k = some .outside) :
    t.isPunct ',' = false := by
  fun_induction splitCommas ts with
  | case1 ts hcut =>
    obtain rfl := List.mem_singleton.1 hpart
    exact not_stop_of_reached hk hreached
  | case2 ts comma rest hcut hlt ih =>
    rcases List.mem_cons.1 hpart with rfl | hlater
    · exact not_stop_of_reached hk hreached
    · exact ih hlater

namespace Nested

/-- Well-nested items none of which is a comma. -/
def Uncut (items : List Nested) : Prop :=
  AllSpaced items ∧ ∀ item ∈ items, item.head.isPunct ',' = false

end Nested

/-- Splitting at commas is exact. With commas between them the parts are the list again. No comma
stands at a position of a part where the walk from its start is outside all nesting. Well-nested
spans without commas of their own come back as the parts. -/
theorem splitCommas_exact :
    (∀ ts : List Token, Joined (splitCommas ts) ts ∧
      ∀ part ∈ splitCommas ts, ∀ (k : Nat) (t : Token), part[k]? = some t →
        outside.reached part k = some .outside → t.isPunct ',' = false) ∧
    ∀ (spans : List (List Nested)) (ts : List Token), (∀ span ∈ spans, Nested.Uncut span) →
      Joined (spans.map Nested.tokensOf) ts → splitCommas ts = spans.map Nested.tokensOf := by
  refine ⟨fun ts => ⟨joined_splitCommas ts, fun part hpart k t hk hreached => ?_⟩,
    fun spans ts hspans hjoined => ?_⟩
  · exact not_comma_of_mem_splitCommas hpart hk hreached
  · refine hjoined.splitCommas fun part hpart => ?_
    obtain ⟨span, hspan, rfl⟩ := List.mem_map.1 hpart
    obtain ⟨hspaced, hhead⟩ := hspans span hspan
    exact Nested.neutral_tokensOf _ span hspaced fun item hitem _ => hhead item hitem

/-- `f(b, c), CASE d END` -/
def callAndCase : List (List Nested) :=
  [[.plain ⟨⟨⟨.identifier, "f"⟩, 0⟩, by decide⟩,
      .group (.brackets (.placed 1) (.placed 6))
        [.plain ⟨⟨⟨.identifier, "b"⟩, 2⟩, by decide⟩,
          .plain ⟨⟨⟨.punctuation, ","⟩, 3⟩, by decide⟩,
          .plain ⟨⟨⟨.identifier, "c"⟩, 5⟩, by decide⟩]],
    [.group (.selection (.placed 9) (.placed 16) none)
      [.plain ⟨⟨⟨.identifier, "d"⟩, 14⟩, by decide⟩]]]

/-- The bracket of the call stands outside all nesting, the comma behind it does not. -/
theorem splitCommas_exact_callAndCase :
    splitCommas (Token.recover "f(b, c), CASE d END").1 = callAndCase.map Nested.tokensOf ∧
    ∃ part ∈ splitCommas (Token.recover "f(b, c), CASE d END").1,
      outside.reached part 1 = some .outside ∧
      outside.reached part 3 = some ⟨1, []⟩ ∧
      ∃ t, part[1]? = some t ∧ t.isPunct ',' = false := by
  have huncut : ∀ span ∈ callAndCase, Nested.Uncut span := by
    simp [callAndCase, Nested.Uncut, Nested.AllSpaced, Nested.Spaced, Nested.isBare, Fence.isBare,
      Nested.head, Fence.opening, Nested.tokensOf, StartsApart, Piece.isPunct]
  have hjoined : Joined (callAndCase.map Nested.tokensOf)
      (Token.recover "f(b, c), CASE d END").1 := by
    have htokens : (Token.recover "f(b, c), CASE d END").1 =
        Nested.tokensOf (callAndCase.headD []) ++ ⟨⟨.punctuation, ","⟩, 7⟩ ::
          Nested.tokensOf (callAndCase.getLastD []) := by decide +kernel
    rw [htokens]
    exact .cons _ (by decide) (.last _)
  obtain ⟨hparts, hspans⟩ := splitCommas_exact
  have hsplit := hspans callAndCase _ huncut hjoined
  have hfirst : Nested.tokensOf (callAndCase.headD []) ∈
      splitCommas (Token.recover "f(b, c), CASE d END").1 := by
    rw [hsplit]
    exact List.mem_cons_self
  exact ⟨hsplit, _, hfirst, by decide +kernel, by decide +kernel, ⟨⟨.punctuation, "("⟩, 1⟩,
    by decide, (hparts _).2 _ hfirst 1 _ (by decide) (by decide +kernel)⟩

end TriggerDialect
