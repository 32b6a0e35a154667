import TriggerDialect.Nesting
import TriggerDialect.Token.Chain

/-!
# Reading names and fixed words

The headers of triggers and cursors are read from left to right, one token at a time. A reading
that fails says why and which tokens were left at that point.
-/

namespace TriggerDialect.Grammar

variable {ts rest : List Token} {word text : String}

/-- Why a reading stopped, and the tokens that were left. -/
structure Stuck where
  reason : String
  rest : List Token
deriving Repr, DecidableEq

/-- What was read and the tokens after it. -/
abbrev Reading (α : Type) := Except Stuck (α × List Token)

/-- The tokens after a leading `word`, in any letter case; `none` if another token leads. -/
def eatWord? (word : String) : List Token → Option (List Token)
  | [] => none
  | t :: rest => if t.isWord word then some rest else none

/-- The tokens after a leading punctuation mark. -/
def eatMark? (mark : Char) : List Token → Option (List Token)
  | [] => none
  | t :: rest => if t.isPunct mark then some rest else none

/-- Requires `word` to lead. -/
def expectWord (word : String) (ts : List Token) : Except Stuck (List Token) :=
  match ts with
  | [] => .error ⟨s!"expected {word}, found end of input", []⟩
  | t :: rest =>
    if t.isWord word then .ok rest else .error ⟨s!"expected {word}, found '{t.text}'", t :: rest⟩

/-- A plain or quoted name. -/
def name (ts : List Token) : Reading String :=
  match ts with
  | [] => .error ⟨"expected a name, found end of input", []⟩
  | t :: rest =>
    if t.isIdentifier then .ok (t.text, rest)
    else .error ⟨s!"expected a name, found '{t.text}'", t :: rest⟩

/-- A qualified name. -/
def qualifiedName (ts : List Token) : Reading String :=
  match name ts with
  | .error stuck => .error stuck
  | .ok (first, rest) =>
    let later := chain rest
    .ok (Text.join "." (first :: later.1.map fun t => t.text), later.2)

/-- Names after a first one, each after a comma. -/
def moreNames : List Token → Reading (List String)
  | [] => .ok ([], [])
  | comma :: rest =>
    if comma.isPunct ',' then
      match rest with
      | [] => .error ⟨"expected a name, found end of input", []⟩
      | t :: rest =>
        if t.isIdentifier then
          match moreNames rest with
          | .error stuck => .error stuck
          | .ok (names, rest) => .ok (t.text :: names, rest)
        else .error ⟨s!"expected a name, found '{t.text}'", t :: rest⟩
    else .ok ([], comma :: rest)

/-- A word that is eaten is gone. -/
theorem eatWord?_length (h : eatWord? word ts = some rest) : rest.length < ts.length := by
  cases ts with
  | nil => cases h
  | cons t ts =>
    simp only [eatWord?] at h
    split at h
    · cases h; simp
    · cases h

/-- A mark that is eaten is gone. -/
theorem eatMark?_length {mark : Char} (h : eatMark? mark ts = some rest) :
    rest.length < ts.length := by
  cases ts with
  | nil => cases h
  | cons t ts =>
    simp only [eatMark?] at h
    split at h
    · cases h; simp
    · cases h

/-- A word that is expected is gone. -/
theorem expectWord_length (h : expectWord word ts = .ok rest) : rest.length < ts.length := by
  cases ts with
  | nil => cases h
  | cons t ts =>
    simp only [expectWord] at h
    split at h
    · cases h; simp
    · cases h

/-- A name is gone after it is read. -/
theorem name_length (h : name ts = .ok (text, rest)) : rest.length < ts.length := by
  cases ts with
  | nil => cases h
  | cons t ts =>
    simp only [name] at h
    split at h
    · cases h; simp
    · cases h

/-- A qualified name is gone after it is read. -/
theorem qualifiedName_length (h : qualifiedName ts = .ok (text, rest)) :
    rest.length < ts.length := by
  unfold qualifiedName at h
  split at h
  · cases h
  · rename_i first left hname
    cases h
    have := name_length hname
    have := chain_length left
    omega

/-- Further names leave no more than was there. -/
theorem moreNames_length {names : List String} (h : moreNames ts = .ok (names, rest)) :
    rest.length ≤ ts.length := by
  fun_induction moreNames ts generalizing names rest with
  | case1 => cases h; exact Nat.le_refl _
  | case2 => cases h
  | case3 => cases h
  | case4 comma _ t ts _ names' rest' hmore ih =>
    cases h
    have := ih hmore
    simp only [List.length_cons]
    omega
  | case5 => cases h
  | case6 => cases h; exact Nat.le_refl _

end TriggerDialect.Grammar
