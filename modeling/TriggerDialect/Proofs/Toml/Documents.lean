import TriggerDialect.Proofs.Toml.Strings
import TriggerDialect.Toml.Decoding

/-!
# Written tables read back

A document is read line by line, and its lines are put together to tables. Main statements: the
lines of a table of texts are read as its header and its pairs (`Lines.tableText`), and these make
one table under the header (`buildFrom_tableLines`).
-/

namespace TriggerDialect.Toml

open List

open Scan (startsWith)

variable {expressions : List Expression} {name : String} {entries : List (String × String)}

variable {c : Char} {cs rest : List Char}

/-! ### Lines -/

/-- The expressions on the lines of a text. -/
def Lines (cs : List Char) (expressions : List Expression) : Prop :=
  ∀ fuel, cs.length < fuel → expressions? fuel cs = some expressions

/-- A character that starts an expression: no space, line end or comment. -/
def startsLine (c : Char) : Bool := !isSpace c && c != '\n' && c != '\r' && c != '#'

theorem skipSpaces_cons (h : isSpace c = false) (rest : List Char) :
    skipSpaces (c :: rest) = c :: rest := by
  simp [skipSpaces, h]

theorem Lines.nil : Lines [] [] := by
  intro fuel hfuel
  obtain ⟨fuel, rfl⟩ := Nat.exists_eq_add_one.2 (Nat.zero_lt_of_lt hfuel)
  rfl

theorem Lines.blank (h : Lines rest expressions) : Lines ('\n' :: rest) expressions := by
  intro fuel hfuel
  obtain ⟨fuel, rfl⟩ := Nat.exists_eq_add_one.2 (Nat.zero_lt_of_lt hfuel)
  rw [length_cons] at hfuel
  rw [expressions?, skipSpaces_cons rfl]
  exact h fuel (by omega)

theorem Lines.cons {expression : Expression} (hc : startsLine c)
    (hline : expression? (c :: cs) = some (expression, '\n' :: rest))
    (hlength : rest.length ≤ cs.length) (h : Lines rest expressions) :
    Lines (c :: cs) (expression :: expressions) := by
  intro fuel hfuel
  obtain ⟨fuel, rfl⟩ := Nat.exists_eq_add_one.2 (Nat.zero_lt_of_lt hfuel)
  rw [length_cons] at hfuel
  simp only [startsLine, Bool.and_eq_true, Bool.not_eq_true', bne_iff_ne, ne_eq] at hc
  obtain ⟨⟨⟨hspace, hnewline⟩, hreturn⟩, hmark⟩ := hc
  have hafter : afterLine? (c :: cs) = none := by
    simp [afterLine?, skipSpaces_cons hspace, skipComment, afterNewline?, hnewline, hreturn, hmark]
  have hend : afterLine? ('\n' :: rest) = some rest := rfl
  rw [expressions?, skipSpaces_cons hspace]
  simp [hafter, hline, hend, h fuel (by omega)]

/-! ### Headers and pairs -/

/-- A character that starts a key. -/
def startsKey (c : Char) : Bool := isKeyChar c || c == '"' || c == '\''

theorem startsLine_of_startsKey (h : startsKey c) : startsLine c ∧ c ≠ '[' := by
  have hother : ∀ d, startsKey d = false → c ≠ d := by
    rintro d hd rfl
    rw [h] at hd
    cases hd
  refine ⟨?_, hother '[' (by decide)⟩
  simp [startsLine, isSpace, hother ' ' (by decide), hother '\t' (by decide),
    hother '\n' (by decide), hother '\r' (by decide), hother '#' (by decide)]

theorem exists_keyChars (cs : List Char) : ∃ c more, keyChars cs = c :: more ∧ startsKey c := by
  simp only [keyChars, Bool.and_eq_true, Bool.not_eq_true']
  split
  next h =>
    cases cs with
    | nil => cases h.1
    | cons c cs =>
      have hc : isKeyChar c := all_eq_true.1 h.2 c mem_cons_self
      exact ⟨c, cs, rfl, by simp [startsKey, hc]⟩
  split
  next => exact ⟨_, _, rfl, rfl⟩
  split
  next => exact ⟨_, _, rfl, rfl⟩
  next => exact ⟨_, _, rfl, rfl⟩

theorem exists_stringChars (cs : List Char) :
    ∃ c more, stringChars cs = c :: more ∧ (c = '"' ∨ c = '\'') := by
  simp only [stringChars]
  split
  next => exact ⟨_, _, rfl, .inl rfl⟩
  split
  next => exact ⟨_, _, rfl, .inr rfl⟩
  split
  next => exact ⟨_, _, rfl, .inl rfl⟩
  split
  next => exact ⟨_, _, rfl, .inr rfl⟩
  split
  next => exact ⟨_, _, rfl, .inl rfl⟩
  next => exact ⟨_, _, rfl, .inl rfl⟩

/-- A key of one part, up to what follows the spaces behind it. -/
theorem key?_single (hc : startsKey c) (hkey : keyPart? (c :: cs) = some (name, rest))
    (hdot : startsWith (· == '.') (skipSpaces rest) = false) :
    key? (c :: cs) = some (([], name), skipSpaces rest) := by
  have hspace : isSpace c = false := by
    have hline := (startsLine_of_startsKey hc).1
    simp only [startsLine, Bool.and_eq_true, Bool.not_eq_true'] at hline
    exact hline.1.1.1
  change keyParts? (78 + 1) (c :: cs) = _
  rw [keyParts?, skipSpaces_cons hspace, hkey]
  simp only [Option.bind_eq_bind, Option.bind_some]
  split
  next h => rw [h] at hdot; cases hdot
  next => rfl

theorem expression?_pair {value : Value} {text : List Char} (hc : startsKey c)
    (hkey : keyPart? (c :: cs) = some (name, ' ' :: '=' :: ' ' :: text))
    (htext : startsWith isSpace text = false)
    (hvalue : ∀ fuel, value? 0 (fuel + 1) text = some (value, rest)) :
    expression? (c :: cs) = some (.pair [] name value, rest) := by
  have hspaces : skipSpaces (' ' :: text) = text := by
    cases text with
    | nil => rfl
    | cons d text =>
      have hd : isSpace d = false := htext
      exact skipSpaces_cons hd text
  have hpair : expression? (c :: cs) = pair? (c :: cs) := by
    unfold expression?
    split
    next h => cases h; exact absurd rfl (startsLine_of_startsKey hc).2
    next h => cases h; exact absurd rfl (startsLine_of_startsKey hc).2
    next => rfl
  have hkey' := key?_single hc hkey rfl
  rw [hpair, pair?, hkey']
  simp only [Option.bind_eq_bind, Option.bind_some]
  change (value? 0 _ (skipSpaces (' ' :: text))).bind _ = _
  rw [hspaces, hvalue]
  rfl

/-- The line of a pair is read as the pair. -/
theorem expression?_pairLine (entry : String × String) (rest : List Char) :
    expression? ((pairLine entry).toList ++ rest) =
      some (.pair [] entry.1 (.string entry.2), '\n' :: rest) := by
  obtain ⟨c, more, hkey, hc⟩ := exists_keyChars entry.1.toList
  obtain ⟨q, text, htext, hq⟩ := exists_stringChars entry.2.toList
  have hequals : (" = ").toList = [' ', '=', ' '] := rfl
  have hline : (pairLine entry).toList ++ rest = keyChars entry.1.toList ++
      ' ' :: '=' :: ' ' :: (stringChars entry.2.toList ++ '\n' :: rest) := by
    simp [pairLine, hequals]
  have hpart : keyPart? (keyChars entry.1.toList ++
      ' ' :: '=' :: ' ' :: (stringChars entry.2.toList ++ '\n' :: rest)) = _ :=
    keyPart?_keyChars entry.1.toList rfl
  have hstring : string? (stringChars entry.2.toList ++ '\n' :: rest) = _ :=
    string?_stringChars entry.2.toList rfl rfl
  rw [hline]
  rw [hkey, cons_append] at hpart ⊢
  rw [String.ofList_toList] at hpart
  refine expression?_pair hc hpart ?_ fun fuel => ?_
  · rw [htext]
    rcases hq with rfl | rfl <;> rfl
  · rw [htext, cons_append] at hstring ⊢
    have hscalar : value? 0 (fuel + 1) (q :: (text ++ '\n' :: rest)) =
        scalar? (q :: (text ++ '\n' :: rest)) := by
      rcases hq with rfl | rfl <;> rfl
    rw [hscalar, scalar?, if_pos hq, hstring]
    simp

/-- A header of one bare part. -/
theorem expression?_header (hne : name.toList ≠ []) (hname : name.toList.all isKeyChar)
    (rest : List Char) :
    expression? ('[' :: (name.toList ++ ']' :: rest)) = some (.header [] name, rest) := by
  have hpart : keyPart? (name.toList ++ ']' :: rest) =
      some (String.ofList name.toList, ']' :: rest) := keyPart?_bare hne hname rfl
  cases hcs : name.toList with
  | nil => exact absurd hcs hne
  | cons c cs =>
    rw [hcs] at hname hpart
    rw [cons_append] at hpart ⊢
    have hc : isKeyChar c := all_eq_true.1 hname c mem_cons_self
    have hkey : startsKey c := by simp [startsKey, hc]
    have hbracket := (startsLine_of_startsKey hkey).2
    have hheader : expression? ('[' :: c :: (cs ++ ']' :: rest)) =
        (headerKey? "]" (c :: (cs ++ ']' :: rest))).map
          fun taken => (.header taken.1.1 taken.1.2, taken.2) := by
      simp [expression?, hbracket]
    rw [hheader, headerKey?, key?_single hkey hpart rfl, ← hcs]
    have hlength : "]".length = 1 := rfl
    simp [skipSpaces, isSpace, afterWord?, hlength]

/-- A pair of a bare key and a truth value. -/
theorem expression?_boolean (name : String) (hne : name.toList ≠ [])
    (hname : name.toList.all isKeyChar) (rest : List Char) :
    expression? (name.toList ++ ' ' :: '=' :: ' ' :: ("false".toList ++ rest)) =
      some (.pair [] name (.boolean false), rest) := by
  have hpart : keyPart? (name.toList ++ ' ' :: '=' :: ' ' :: ("false".toList ++ rest)) = _ :=
    keyPart?_bare hne hname rfl
  cases hcs : name.toList with
  | nil => exact absurd hcs hne
  | cons c cs =>
    rw [String.ofList_toList, hcs, cons_append] at hpart
    rw [hcs] at hname
    have hc : isKeyChar c := all_eq_true.1 hname c mem_cons_self
    exact expression?_pair (by simp [startsKey, hc]) hpart rfl fun fuel => rfl

/-! ### Tables -/

/-- The expressions of a table of texts. -/
def tableLines (name : String) (entries : List (String × String)) : List Expression :=
  .header [] name :: entries.map fun entry => .pair [] entry.1 (.string entry.2)

theorem toList_join_empty (texts : List String) :
    (Text.join "" texts).toList = texts.flatMap String.toList := by
  induction texts with
  | nil => rfl
  | cons s texts ih =>
    cases texts with
    | nil => simp [Text.join]
    | cons t texts => rw [Text.join, String.toList_append, ih]; simp

theorem Lines.pairLines (h : Lines rest expressions) (entries : List (String × String)) :
    Lines (entries.flatMap (fun entry => (pairLine entry).toList) ++ rest)
      (entries.map (fun entry => .pair [] entry.1 (.string entry.2)) ++ expressions) := by
  induction entries with
  | nil => exact h
  | cons entry entries ih =>
    rw [flatMap_cons, append_assoc, map_cons, cons_append]
    have hline := expression?_pairLine entry
      (entries.flatMap (fun entry => (pairLine entry).toList) ++ rest)
    obtain ⟨c, more, hkey, hc⟩ := exists_keyChars entry.1.toList
    have hcons : (pairLine entry).toList =
        c :: (more ++ (" = ").toList ++ stringChars entry.2.toList ++ ['\n']) := by
      simp [pairLine, hkey]
    rw [hcons, cons_append] at hline ⊢
    exact .cons (startsLine_of_startsKey hc).1 hline (by simp only [length_append]; omega) ih

/-- A written table reads as its lines. -/
theorem Lines.tableText (h : Lines rest expressions) (name : String) (hne : name.toList ≠ [])
    (hname : name.toList.all isKeyChar) (entries : List (String × String)) :
    Lines ((tableText name entries).toList ++ rest) (tableLines name entries ++ expressions) := by
  have htext : (Toml.tableText name entries).toList ++ rest =
      '[' :: (name.toList ++ ']' :: '\n' ::
        (entries.flatMap (fun entry => (pairLine entry).toList) ++ rest)) := by
    simp [Toml.tableText, toList_join_empty, flatMap_map]
    rfl
  rw [htext, tableLines, cons_append]
  refine .cons rfl (expression?_header hne hname _) ?_ (h.pairLines entries)
  simp only [length_append, length_cons]
  omega

/-! ### Putting tables together -/

section

variable {name : String} {before inner : Entries} (hname : before.lookup name = none)

include hname

theorem replaceEntry_last (item new : Item) :
    replaceEntry name new (before ++ [(name, item)]) = before ++ [(name, new)] := by
  have hbefore : ∀ entry ∈ before, (if entry.1 == name then (name, new) else entry) = entry := by
    intro entry hentry
    have hne := bne_iff_ne.1 (lookup_eq_none_iff.1 hname entry hentry)
    simp [Ne.symm hne]
  rw [replaceEntry, map_append, map_congr_left hbefore]
  simp

/-- A pair goes to the end of the table of the last header. -/
theorem buildFrom_pair {key : String}
    (hkey : inner.lookup key = none) (value : Value) (rest : List Expression) :
    buildFrom [name] (before ++ [(name, .table false false inner)]) (.pair [] key value :: rest) =
      buildFrom [name] (before ++ [(name, .table false false (inner ++ [(key, .value value)]))])
        rest := by
  have hadd : addPair [] key value inner = some (inner ++ [(key, .value value)]) := by
    simp [addPair, change, hkey]
  simp [buildFrom, change, lookup_append, hname, hadd, replaceEntry_last hname]

/-- The items of a table of texts. -/
def textItems (entries : List (String × String)) : Entries :=
  entries.map fun entry => (entry.1, .value (.string entry.2))

theorem buildFrom_pairs (hnew : ∀ entry ∈ entries, inner.lookup entry.1 = none)
    (hentries : entries.Pairwise (·.1 ≠ ·.1)) (rest : List Expression) :
    buildFrom [name] (before ++ [(name, .table false false inner)])
        (entries.map (fun entry => .pair [] entry.1 (.string entry.2)) ++ rest) =
      buildFrom [name] (before ++ [(name, .table false false (inner ++ textItems entries))])
        rest := by
  induction entries generalizing inner with
  | nil => simp [textItems]
  | cons entry entries ih =>
    rw [pairwise_cons] at hentries
    rw [map_cons, cons_append, buildFrom_pair hname (hnew entry mem_cons_self), ih ?_ hentries.2]
    · simp [textItems]
    · intro other hother
      have hne := beq_eq_false_iff_ne.2 (hentries.1 other hother).symm
      simp [lookup_append, hnew other (.tail _ hother), lookup_cons, hne]

/-- The lines of a table of texts with different keys make one table. -/
theorem buildFrom_tableLines
    (hentries : entries.Pairwise (·.1 ≠ ·.1)) (current : List String) (rest : List Expression) :
    buildFrom current before (tableLines name entries ++ rest) =
      buildFrom [name] (before ++ [(name, .table false false (textItems entries))]) rest := by
  have hheader : addHeader [] name before = some (before ++ [(name, .table false false [])]) := by
    simp [addHeader, change, hname]
  rw [tableLines, cons_append, buildFrom, hheader]
  exact buildFrom_pairs hname (fun _ _ => rfl) hentries rest

end

theorem entryValues_eq (entries : Entries) :
    entryValues entries = entries.map fun entry => (entry.1, entry.2.toValue) := by
  induction entries with
  | nil => rfl
  | cons entry entries ih => rw [entryValues, ih, map_cons]

/-- A table of texts holds its texts. -/
theorem texts?_textItems (entries : List (String × String)) :
    (Value.table (entryValues (textItems entries))).texts? = some entries := by
  rw [entryValues_eq, textItems, map_map]
  simp only [Value.texts?, Value.entries?, Option.bind_eq_bind, Option.bind_some]
  induction entries with
  | nil => rfl
  | cons entry entries ih =>
    rw [map_cons, mapM_cons, ih]
    rfl

end TriggerDialect.Toml
