import Mathlib.Data.List.DropRight
import TriggerDialect.Mapping.Encoding
import TriggerDialect.Proofs.Lexing.Runs

/-!
# Tables in order and keys in one spelling

A table that was built by insertions holds its keys in strict order, and is built again from its own
entries. The key of a key is the key itself, so that a mapping keeps every key as it is. Main
statements: every mapping that can be built is normal (`Reachable.normal`), and a normal one is
built from its own entries (`Normal.ofEntries`).
-/

namespace TriggerDialect

open List

variable {α β : Type}

namespace Table

variable {entries : List (String × α)} {key : String}

/-! ### Order -/

/-- Entries in the order of their keys, each key once. -/
def Sorted (entries : List (String × α)) : Prop := entries.Pairwise (·.1 < ·.1)

theorem mem_insertEntry {value : α} {entry : String × α} (h : entry ∈ insertEntry key value entries)
    : entry = (key, value) ∨ entry ∈ entries := by
  induction entries with
  | nil => exact .inl (mem_singleton.1 h)
  | cons first entries ih =>
    unfold insertEntry at h
    split at h
    next => exact mem_cons.1 h
    next =>
      split at h
      next =>
        rcases mem_cons.1 h with h | h
        · exact .inl h
        · exact .inr (.tail _ h)
      next =>
        rcases mem_cons.1 h with rfl | h
        · exact .inr mem_cons_self
        · exact (ih h).imp id (.tail _)

theorem Sorted.insertEntry (h : Sorted entries) (key : String) (value : α) :
    Sorted (Table.insertEntry key value entries) := by
  induction entries with
  | nil => exact pairwise_singleton _ _
  | cons first entries ih =>
    obtain ⟨hfirst, hentries⟩ := pairwise_cons.1 h
    unfold Table.insertEntry
    split
    next hlt =>
      refine pairwise_cons.2 ⟨fun entry hentry => ?_, h⟩
      rcases mem_cons.1 hentry with rfl | hentry
      · exact hlt
      · exact String.lt_trans hlt (hfirst entry hentry)
    next hlt =>
      split
      next heq => exact pairwise_cons.2 ⟨heq ▸ hfirst, hentries⟩
      next heq =>
        have hgt : first.1 < key := String.not_le.1 fun hle => heq (String.le_antisymm hle hlt)
        refine pairwise_cons.2 ⟨fun entry hentry => ?_, ih hentries⟩
        rcases mem_insertEntry hentry with rfl | hentry
        · exact hgt
        · exact hfirst entry hentry

/-- An entry whose key comes after all others goes to the end. -/
theorem insertEntry_last (h : ∀ entry ∈ entries, entry.1 < key) (value : α) :
    insertEntry key value entries = entries ++ [(key, value)] := by
  induction entries with
  | nil => rfl
  | cons first entries ih =>
    have hfirst := h first mem_cons_self
    have hne : key ≠ first.1 := fun heq => String.lt_irrefl _ (heq ▸ hfirst)
    rw [insertEntry, if_neg (String.lt_asymm hfirst), if_neg hne,
      ih fun entry hentry => h entry (.tail _ hentry), cons_append]

/-- Entries that come in order are put one after the other. -/
theorem foldl_insert {f : β → String × α} {more : List β} (h : Sorted (entries ++ more.map f)) :
    more.foldl (fun t b => insert t (f b).1 (f b).2) (Table.mk entries) =
      Table.mk (entries ++ more.map f) := by
  induction more generalizing entries with
  | nil => simp
  | cons b more ih =>
    have hlast : insertEntry (f b).1 (f b).2 entries = entries ++ [f b] :=
      insertEntry_last (fun entry hentry =>
        (pairwise_append.1 h).2.2 entry hentry (f b) (by simp)) _
    rw [foldl_cons, insert, hlast, ih (by simpa using h)]
    simp

/-- Sorted entries make the table that holds them. -/
theorem entries_ofList (h : Sorted entries) : (ofList entries).entries = entries := by
  have hfold : ofList entries = Table.mk ([] ++ entries.map id) := foldl_insert (by simpa using h)
  simp [hfold]

end Table

/-! ### Keys -/

namespace Text

open Scan (startsWith startsWith_append startsWith_dropWhile takeWhile_iff)

theorem toUpper_cases (c : Char) :
    c.toUpper = c ∨
      isBlank c = false ∧ isBlank c.toUpper = false ∧ c.toUpper.toUpper = c.toUpper := by
  by_cases hc : 97 ≤ c.toNat ∧ c.toNat ≤ 122
  · have hall : ∀ n, n < 123 → 97 ≤ n → isBlank (Char.ofNat n) = false ∧
        isBlank (Char.ofNat n).toUpper = false ∧
          (Char.ofNat n).toUpper.toUpper = (Char.ofNat n).toUpper := by decide
    have hletter := hall c.toNat (by omega) hc.1
    rw [Char.ofNat_toNat] at hletter
    exact .inr hletter
  · left
    unfold Char.toUpper
    split
    next h => exact absurd ⟨UInt32.le_iff_toNat_le.1 h.1, UInt32.le_iff_toNat_le.1 h.2⟩ hc
    next => rfl

theorem toUpper_toUpper (c : Char) : c.toUpper.toUpper = c.toUpper := by
  rcases toUpper_cases c with h | h
  · rw [h, h]
  · exact h.2.2

theorem isBlank_toUpper (c : Char) : isBlank c.toUpper = isBlank c := by
  rcases toUpper_cases c with h | h
  · rw [h]
  · rw [h.1, h.2.1]

theorem dropWhile_isBlank_toUpper (cs : List Char) :
    (cs.map Char.toUpper).dropWhile isBlank = (cs.dropWhile isBlank).map Char.toUpper := by
  have hcomp : isBlank ∘ Char.toUpper = isBlank := funext isBlank_toUpper
  rw [dropWhile_map, hcomp]

/-- Blanks are the same in upper case. -/
theorem trimChars_toUpper (cs : List Char) :
    trimChars (cs.map Char.toUpper) = (trimChars cs).map Char.toUpper := by
  simp only [trimChars, trimStartChars, trimEndChars, dropWhile_isBlank_toUpper, ← map_reverse]

/-- Blanks at the end are no part of what starts a text. -/
theorem startsWith_trimEndChars {cs : List Char} (h : startsWith isBlank cs = false) :
    startsWith isBlank (trimEndChars cs) = false := by
  obtain ⟨blanks, hcs⟩ : trimEndChars cs <+: cs := rdropWhile_prefix isBlank cs
  by_cases hne : trimEndChars cs = []
  · rw [hne]
    rfl
  · rwa [← hcs, startsWith_append hne] at h

theorem trimChars_sublist (cs : List Char) : (trimChars cs).Sublist cs :=
  ( rdropWhile_prefix isBlank _).sublist.trans (dropWhile_sublist _)

/-- Nothing is left to trim. -/
theorem trimChars_trimChars (cs : List Char) : trimChars (trimChars cs) = trimChars cs := by
  have hstart : (trimChars cs).dropWhile isBlank = trimChars cs :=
    (takeWhile_iff.2 ⟨(nil_append _).symm, rfl,
      startsWith_trimEndChars (startsWith_dropWhile isBlank cs)⟩).2
  rw [trimChars, trimStartChars, hstart]
  exact rdropWhile_idempotent isBlank (trimStartChars cs)

end Text

namespace Mapping

variable {m : Mapping} {t : Table α}

/-- The key of a key is the key itself. -/
theorem key_key (name : String) : key (key name) = key name := by
  simp only [key, Text.upper, Text.trim, String.toList_ofList, Text.trimChars_toUpper,
    Text.trimChars_trimChars, map_map]
  congr 1
  exact map_congr_left fun c _ => Text.toUpper_toUpper c

/-! ### Normal mappings -/

/-- A table in order whose keys are their own keys. -/
structure NormalTable (t : Table α) : Prop where
  sorted : Table.Sorted t.entries
  key_eq : ∀ entry ∈ t.entries, key entry.1 = entry.1

theorem NormalTable.empty : NormalTable (.empty : Table α) := ⟨.nil, by simp [Table.empty]⟩

theorem NormalTable.insert (h : NormalTable t) (name : String) (value : α) :
    NormalTable (t.insert (key name) value) where
  sorted := h.sorted.insertEntry (key name) value
  key_eq entry hentry := by
    rcases Table.mem_insertEntry hentry with rfl | hentry
    · exact key_key name
    · exact h.key_eq entry hentry

/-- A mapping whose tables are in order, with keys that are their own keys. -/
structure Normal (m : Mapping) : Prop where
  types : NormalTable m.types
  functions : NormalTable m.functions
  exceptions : NormalTable m.exceptions

/-- A mapping that can be built: from nothing, from the Oracle mapping or from a file, and by
insertions. -/
inductive Reachable : Mapping → Prop
  | empty : Reachable .empty
  | oracle : Reachable .oracle
  | ofEntries (isExtension : Bool) (types functions exceptions : List (String × String)) :
    Reachable (.ofEntries isExtension types functions exceptions)
  | insertType {m : Mapping} (h : Reachable m) (name template : String) :
    Reachable (m.insertType name template)
  | insertFunction {m : Mapping} (h : Reachable m) (name template : String) :
    Reachable (m.insertFunction name template)
  | insertException {m : Mapping} (h : Reachable m) (name condition : String) :
    Reachable (m.insertException name condition)

theorem Normal.empty : Normal .empty := ⟨.empty, .empty, .empty⟩

theorem Normal.insertType (h : m.Normal) (name template : String) :
    (m.insertType name template).Normal :=
  ⟨h.types.insert name _, h.functions, h.exceptions⟩

theorem Normal.insertFunction (h : m.Normal) (name template : String) :
    (m.insertFunction name template).Normal :=
  ⟨h.types, h.functions.insert name _, h.exceptions⟩

theorem Normal.insertException (h : m.Normal) (name condition : String) :
    (m.insertException name condition).Normal :=
  ⟨h.types, h.functions, h.exceptions.insert name _⟩

theorem Normal.foldl (h : m.Normal) {insert : Mapping → String → String → Mapping}
    (hinsert : ∀ {m : Mapping}, m.Normal → ∀ name text, (insert m name text).Normal)
    (entries : List (String × String)) :
    (entries.foldl (fun m entry => insert m entry.1 entry.2) m).Normal := by
  induction entries generalizing m with
  | nil => exact h
  | cons entry entries ih => exact ih (hinsert h entry.1 entry.2)

theorem Normal.extend (h : m.Normal) (types functions exceptions : List (String × String)) :
    (m.extend types functions exceptions).Normal :=
  ((h.foldl .insertType types).foldl .insertFunction functions).foldl .insertException exceptions

theorem Normal.oracle : Normal .oracle := .extend .empty _ _ _

/-- Every mapping that can be built is normal. -/
theorem Reachable.normal (h : m.Reachable) : m.Normal := by
  induction h with
  | empty => exact .empty
  | oracle => exact .oracle
  | ofEntries isExtension types functions exceptions =>
    cases isExtension with
    | true => exact .extend .oracle _ _ _
    | false => exact .extend .empty _ _ _
  | insertType _ name template ih => exact ih.insertType name template
  | insertFunction _ name template ih => exact ih.insertFunction name template
  | insertException _ name condition ih => exact ih.insertException name condition

/-! ### Rebuilding a mapping -/

/-- The entries of a table of templates, each by its source. -/
def sources (t : Table Template) : List (String × String) := (t.map Template.source).entries

theorem sorted_sources {t : Table Template} (h : Table.Sorted t.entries) :
    Table.Sorted (sources t) :=
  pairwise_map.2 h

theorem foldl_insertType (m : Mapping) (entries : List (String × String)) :
    entries.foldl (fun m entry => m.insertType entry.1 entry.2) m =
      { m with types :=
          entries.foldl (fun t entry => t.insert (key entry.1) ⟨entry.2⟩) m.types } :=
  foldl_hom (fun types => { m with types }) fun _ _ => rfl

theorem foldl_insertFunction (m : Mapping) (entries : List (String × String)) :
    entries.foldl (fun m entry => m.insertFunction entry.1 entry.2) m =
      { m with functions :=
          entries.foldl (fun t entry => t.insert (key entry.1) ⟨entry.2⟩) m.functions } :=
  foldl_hom (fun functions => { m with functions }) fun _ _ => rfl

theorem foldl_insertException (m : Mapping) (entries : List (String × String)) :
    entries.foldl (fun m entry => m.insertException entry.1 entry.2) m =
      { m with exceptions :=
          entries.foldl (fun t entry => t.insert (key entry.1) entry.2) m.exceptions } :=
  foldl_hom (fun exceptions => { m with exceptions }) fun _ _ => rfl

/-- A normal table is built from what is written for its entries. -/
theorem NormalTable.foldl_insert (h : NormalTable t) (write : α → String) (read : String → α)
    (hread : ∀ a, read (write a) = a) :
    (t.entries.map fun entry => (entry.1, write entry.2)).foldl
      (fun t entry => t.insert (key entry.1) (read entry.2)) .empty = t := by
  have hmap : (t.entries.map fun entry => (entry.1, write entry.2)).map
      (fun entry => (key entry.1, read entry.2)) = t.entries := by
    rw [map_map]
    refine (map_congr_left fun entry hentry => ?_).trans (map_id' t.entries)
    simp [h.key_eq entry hentry, hread]
  have hsorted : Table.Sorted ([] ++ _) := hmap ▸ h.sorted
  exact (Table.foldl_insert hsorted).trans (congrArg Table.mk hmap)

/-- A normal mapping is the mapping of the file that lists its entries. -/
theorem Normal.ofEntries (h : m.Normal) :
    Mapping.ofEntries false (sources m.types) (sources m.functions) m.exceptions.entries = m := by
  have htypes : (sources m.types).foldl
      (fun t entry => t.insert (key entry.1) (Template.mk entry.2)) .empty = m.types :=
    h.types.foldl_insert Template.source Template.mk fun _ => rfl
  have hfunctions : (sources m.functions).foldl
      (fun t entry => t.insert (key entry.1) (Template.mk entry.2)) .empty = m.functions :=
    h.functions.foldl_insert Template.source Template.mk fun _ => rfl
  have hexceptions : (m.exceptions.entries.map fun entry => (entry.1, entry.2)).foldl
      (fun t entry => t.insert (key entry.1) entry.2) .empty = m.exceptions :=
    h.exceptions.foldl_insert id id fun _ => rfl
  rw [map_id'] at hexceptions
  simp only [Mapping.ofEntries, Table.entries_ofList (sorted_sources h.types.sorted),
    Table.entries_ofList (sorted_sources h.functions.sorted),
    Table.entries_ofList h.exceptions.sorted, Mapping.extend, foldl_insertType,
    foldl_insertFunction, foldl_insertException]
  simp only [Bool.false_eq_true, if_false, Mapping.empty, htypes, hfunctions, hexceptions]

end Mapping

end TriggerDialect
