import TriggerDialect.Proofs.Header.Readers
import TriggerDialect.Proofs.Lexing.Rendering

/-!
# Headers and their grammar

A header is read exactly if the tokens up to the block are a heading, and then for what the heading
means. All else is skipped with one warning (`readHeader_grammar`).
-/

namespace TriggerDialect

open Phrase (TokenOf)

open List Heading Clause

variable {body rest ts : List Token} {header header' : Header} {t : Token} {h : Heading}

namespace Grammar

/-! ### The clauses up to the block -/

theorem withAliases_eq (header : Header) (list : List Alias) :
    withAliases header list = { header with
      newAlias := (Alias.last .new list).or header.newAlias
      oldAlias := (Alias.last .old list).or header.oldAlias } := by
  induction list generalizing header with
  | nil => rfl
  | cons a list ih =>
    have hstep : withAliases header (a :: list) =
        withAliases (withAlias header a.row.row a.name.token.text) list := rfl
    rw [hstep, ih, Alias.last_cons, Alias.last_cons]
    cases a.row.row <;> simp [withAlias]

/-- The words that start a clause or the block. -/
def clauseWords : List String :=
  ["REFERENCING", "FOR", "FOLLOWS", "PRECEDES", "ENABLE", "DISABLE", "WHEN", "DECLARE", "BEGIN"]

/-- What the reader of a word takes is a clause. -/
theorem clause_of_optionReader? {reader : Header → List Token → Reading Header}
    (hreader : optionReader? t = some reader) (h : reader header ts = .ok (header', rest)) :
    ∃ c : Clause, t :: ts = c.tokens ++ rest ∧
      amend [c] header = header' := by
  unfold optionReader? at hreader
  split at hreader
  · rename_i hword
    cases hreader
    obtain ⟨list, rfl, rfl⟩ := (referencing_takes header).sound h
    exact ⟨.referencing ⟨t, hword⟩ list.1 list.2, rfl, by rw [amend_single, withAliases_eq]⟩
  · split at hreader
    · rename_i hword
      cases hreader
      obtain ⟨words, rfl, rfl⟩ := (eachRow_takes header).sound h
      exact ⟨.eachRow ⟨t, hword⟩ words.1 words.2, rfl, amend_single header _⟩
    · split at hreader
      · rename_i hword
        cases hreader
        obtain ⟨names, rfl, rfl⟩ := (skipNames_takes header).sound h
        exact ⟨.order ⟨t, hword⟩ names, rfl, amend_single header _⟩
      · split at hreader
        · rename_i hword
          cases hreader
          cases h
          exact ⟨.enabling ⟨t, hword⟩, rfl, amend_single header _⟩
        · split at hreader
          · rename_i hword
            cases hreader
            obtain ⟨group, rfl, rfl⟩ := (condition_takes header).sound h
            exact ⟨.condition ⟨t, hword⟩ group, rfl, amend_single header _⟩
          · cases hreader

/-- The words that start the block. -/
def blockWords : List String := ["DECLARE", "BEGIN"]

theorem opens_blockWords_iff : Opens blockWords ts ↔
    ∃ t rest, ts = t :: rest ∧ (t.isWord "DECLARE" || t.isWord "BEGIN") := by
  simp [Opens, blockWords]

/-- The clauses end where the block starts. -/
theorem options_sound (h : options header ts = .ok (header', rest)) :
    ∃ clauses : List Clause,
      ts = clauses.flatMap Clause.tokens ++ rest ∧
      amend clauses header = header' ∧ Opens blockWords rest := by
  induction ts using shorterInduction generalizing header with
  | shorter ts ih =>
    cases ts with
    | nil => simp [options] at h
    | cons t left =>
      rw [options_cons] at h
      split at h
      · rename_i reader hreader
        split at h
        · cases h
        · rename_i found hread
          have hshort := optionReader?_length hreader hread
          obtain ⟨c, htokens, rfl⟩ := clause_of_optionReader? hreader hread
          obtain ⟨clauses, hleft, hheader, hstarts⟩ := ih _ (Nat.lt_succ_of_le hshort) h
          refine ⟨c :: clauses, ?_, ?_, hstarts⟩
          · rw [htokens, hleft, flatMap_cons, append_assoc]
          · rw [amend_cons, hheader]
      · split at h
        · rename_i hstarts
          cases h
          exact ⟨[], rfl, amend_nil _,
            opens_blockWords_iff.2 ⟨t, left, rfl, hstarts⟩⟩
        · cases h

theorem orReplace_takes :
    Takes orReplace replacingTokens Option.isSome
      (Opens ["EDITIONABLE", "NONEDITIONABLE", "TRIGGER"]) where
  sound {ts rest found} h := by
    unfold orReplace at h
    split at h
    · cases h
      exact ⟨none, rfl, rfl⟩
    · rename_i left hor
      obtain ⟨left', hreplace, hpair⟩ := of_map_ok h
      cases hpair
      obtain ⟨orWord, rfl⟩ := eq_of_eatWord? hor
      obtain ⟨word, rfl⟩ := eq_of_expectWord hreplace
      exact ⟨some (orWord, word), rfl, rfl⟩
  complete replacing rest hrest := by
    cases replacing with
    | none =>
      have hor := eatWord?_eq_none (hrest.isWord_eq_false
        (show ∀ word ∈ ["EDITIONABLE", "NONEDITIONABLE", "TRIGGER"], _ ≠ Text.upper "OR" by decide))
      simp [orReplace, replacingTokens, hor]
    | some words => simp [orReplace, replacingTokens, Except.map]

theorem skipEdition_eq (ts : List Token) :
    ∃ edition : Option (Choice "EDITIONABLE" "NONEDITIONABLE"),
      ts = (edition.map TokenOf.token).toList ++ skipEdition ts := by
  unfold skipEdition
  cases hword : eatWord? "EDITIONABLE" ts with
  | some rest =>
    obtain ⟨word, rfl⟩ := eq_of_eatWord? hword
    exact ⟨some ⟨word.token, by simp [word.holds]⟩, rfl⟩
  | none =>
    cases hother : eatWord? "NONEDITIONABLE" ts with
    | some rest =>
      obtain ⟨word, rfl⟩ := eq_of_eatWord? hother
      exact ⟨some ⟨word.token, by simp [word.holds]⟩, rfl⟩
    | none => exact ⟨none, rfl⟩

/-- What is read as a header is a heading before a block. -/
theorem triggerHeader_sound {found : Header} (h : triggerHeader ts = .ok (found, rest)) :
    ∃ h : Heading, ts = h.tokens ++ rest ∧ h.header = found ∧ Opens blockWords rest := by
  unfold triggerHeader at h
  obtain ⟨_, hcreate, h⟩ := of_bind_ok h
  obtain ⟨⟨_, _⟩, hreplace, h⟩ := of_bind_ok h
  obtain ⟨_, htrigger, h⟩ := of_bind_ok h
  obtain ⟨⟨_, _⟩, hname, h⟩ := of_bind_ok h
  obtain ⟨⟨_, _⟩, htiming, h⟩ := of_bind_ok h
  obtain ⟨⟨_, _⟩, hevents, h⟩ := of_bind_ok h
  obtain ⟨_, hon, h⟩ := of_bind_ok h
  obtain ⟨⟨_, _⟩, htable, h⟩ := of_bind_ok h
  obtain ⟨word, rfl⟩ := eq_of_expectWord hcreate
  obtain ⟨replacing, rfl, rfl⟩ := orReplace_takes.sound hreplace
  obtain ⟨trigger, hskip⟩ := eq_of_expectWord htrigger
  obtain ⟨edition, hedition⟩ := skipEdition_eq _
  rw [hskip] at hedition
  obtain ⟨name, rfl, rfl⟩ := qualifiedName_takes.sound hname
  obtain ⟨moment, rfl, rfl⟩ := timing_takes.sound htiming
  obtain ⟨occasions, rfl, rfl⟩ := events_takes.sound hevents
  obtain ⟨onWord, rfl⟩ := eq_of_expectWord hon
  obtain ⟨table, rfl, rfl⟩ := qualifiedName_takes.sound htable
  obtain ⟨clauses, rfl, rfl, hstarts⟩ := options_sound h
  refine ⟨⟨word, replacing, edition, trigger, name, moment, occasions, onWord, table, clauses⟩,
    ?_, (Heading.amend_plainHeader _).symm, hstarts⟩
  rw [hedition]
  simp [Heading.tokens]

end Grammar

/-! ### Names in a source -/

namespace Heading

end Heading

namespace Grammar

/-- The block starts somewhere in the tokens and takes all that follow. -/
theorem readHeader_isSuffix (ts : List Token) : (readHeader ts).body <:+ ts := by
  unfold readHeader
  split
  · exact suffix_refl _
  · split
    · split
      · rename_i header body hheader
        obtain ⟨_, htokens, -⟩ := triggerHeader_sound hheader
        exact ⟨_, htokens.symm⟩
      · exact dropWhile_suffix _
    · exact suffix_refl _

end Grammar

end TriggerDialect
