import TriggerDialect.Text.Ascii
import TriggerDialect.Text.Decimal
import TriggerDialect.Word

/-!
# Templates

A template is a text with places for arguments: a number in braces stands for the argument of that
index, a star in braces for all arguments. Braces of any other form are text. The text is read once
from left to right, and what is put in is not read again.
-/

namespace TriggerDialect

/-- A replacement text. -/
structure Template where
  source : String
deriving Repr, DecidableEq

/-- What a template is made of. -/
inductive Segment where
  | literal (c : Char)
  | argument (index : Nat)
  | allArguments
deriving Repr, DecidableEq

namespace Template

variable {cs rest : List Char} {found : List Segment}

/-- An index and a closing brace, and what follows them. The index has to fit a 64-bit word. -/
def index? (cs : List Char) : Option (Nat × List Char) :=
  match cs.dropWhile Char.isDigit with
  | '\x7d' :: rest =>
    let digits := cs.takeWhile Char.isDigit
    if !digits.isEmpty && decide (Text.value digits < wordBound) then
      some (Text.value digits, rest)
    else none
  | _ => none

/-- A place for arguments after an opening brace, and what follows it. -/
def place? : List Char → Option (Segment × List Char)
  | '*' :: '\x7d' :: rest => some (.allArguments, rest)
  | cs => (index? cs).map fun found => (.argument found.1, found.2)

/-- An index is gone after it is read. -/
theorem index?_length {index : Nat} (h : index? cs = some (index, rest)) :
    rest.length < cs.length := by
  have hle := (List.dropWhile_sublist Char.isDigit (l := cs)).length_le
  unfold index? at h
  split at h
  · rename_i tail heq
    rw [heq, List.length_cons] at hle
    simp only at h
    split at h
    · cases h
      omega
    · cases h
  · cases h

/-- A place is gone after it is read. -/
theorem place?_length {segment : Segment} (h : place? cs = some (segment, rest)) :
    rest.length < cs.length := by
  unfold place? at h
  split at h
  · cases h
    simp only [List.length_cons]
    omega
  · obtain ⟨found, hfound, hpair⟩ := Option.map_eq_some_iff.1 h
    cases hpair
    exact index?_length hfound

/-- The segments of a text. -/
def scan (cs : List Char) : List Segment :=
  match cs with
  | [] => []
  | c :: rest =>
    if c = '\x7b' then
      match h : place? rest with
      | some (segment, after) =>
        have : after.length < (c :: rest).length := Nat.lt_succ_of_lt (place?_length h)
        segment :: scan after
      | none => .literal c :: scan rest
    else .literal c :: scan rest
termination_by cs.length
decreasing_by
  all_goals
    simp only [List.length_cons] at *
    omega

/-! ### The alternatives of a text -/

/-- A place at the start of a text, and what follows it. -/
def placeAt? : List Char → Option (List Segment × List Char)
  | '\x7b' :: rest => (place? rest).map fun found => ([found.1], found.2)
  | _ => none

/-- The text before the next opening brace, if there is any, and what follows it. -/
def textAt? (cs : List Char) : Option (List Segment × List Char) :=
  let text := cs.takeWhile (· != '\x7b')
  if text.isEmpty then none else some (text.map .literal, cs.dropWhile (· != '\x7b'))

/-- An opening brace as text, and what follows it. -/
def braceAt? : List Char → Option (List Segment × List Char)
  | '\x7b' :: rest => some ([.literal '\x7b'], rest)
  | _ => none

/-- The first of the three alternatives that holds at the start of a text. -/
def segmentAt? (cs : List Char) : Option (List Segment × List Char) :=
  (placeAt? cs).or ((textAt? cs).or (braceAt? cs))

/-- The alternatives in the order they are tried. -/
theorem segmentAt?_cases (h : segmentAt? cs = some (found, rest)) :
    (∃ segment after, cs = '\x7b' :: after ∧ place? after = some (segment, rest) ∧
      found = [segment]) ∨
    (∃ text, text ≠ [] ∧ (∀ c ∈ text, c ≠ '\x7b') ∧ cs = text ++ rest ∧
      found = text.map .literal) ∨
    cs = '\x7b' :: rest ∧ place? rest = none ∧ found = [.literal '\x7b'] := by
  cases cs with
  | nil => simp [segmentAt?, placeAt?, textAt?, braceAt?] at h
  | cons c after =>
    by_cases hbrace : c = '\x7b'
    · subst hbrace
      cases hplace : place? after with
      | some result =>
        simp [segmentAt?, placeAt?, hplace] at h
        exact .inl ⟨result.1, after, rfl, by rw [hplace, ← h.2], h.1.symm⟩
      | none =>
        simp [segmentAt?, placeAt?, textAt?, braceAt?, hplace] at h
        exact .inr (.inr ⟨by rw [h.2], h.2 ▸ hplace, h.1.symm⟩)
    · have hplace : placeAt? (c :: after) = none := by
        unfold placeAt?
        split
        · rename_i heq
          exact absurd (List.cons.inj heq).1 hbrace
        · rfl
      have htext : textAt? (c :: after) = some (found, rest) := by
        simpa [segmentAt?, hplace, textAt?, hbrace] using h
      simp only [textAt?] at htext
      split at htext
      · cases htext
      · rename_i hne
        cases htext
        refine .inr (.inl ⟨_, by simpa using hne, fun d hd => ?_,
          List.takeWhile_append_dropWhile.symm, rfl⟩)
        simpa using List.all_eq_true.1 List.all_takeWhile d hd

/-- A segment is gone after it is read. -/
theorem segmentAt?_length (h : segmentAt? cs = some (found, rest)) : rest.length < cs.length := by
  obtain ⟨segment, after, rfl, hplace, -⟩ | ⟨text, htext, -, rfl, -⟩ | ⟨rfl, -, -⟩ :=
    segmentAt?_cases h
  · exact Nat.lt_succ_of_lt (place?_length hplace)
  · have hpos := List.length_pos_iff.2 htext
    rw [List.length_append]
    omega
  · exact Nat.lt_succ_self _

/-- The segments of a text as long as an alternative holds, and what is left. -/
def readSegments (cs : List Char) : List Segment × List Char :=
  match h : segmentAt? cs with
  | none => ([], cs)
  | some (found, rest) =>
    have : rest.length < cs.length := segmentAt?_length h
    let later := readSegments rest
    (found ++ later.1, later.2)
termination_by cs.length
decreasing_by exact this

/-- The template of a text, which has to be read to its end. -/
def parse? (source : String) : Option Template :=
  if (readSegments source.toList).2.isEmpty then some ⟨source⟩ else none

/-- The segments of a template. -/
def segments (t : Template) : List Segment := scan t.source.toList

/-- Whether a segment is a place for arguments. -/
def isPlace : Segment → Bool
  | .literal _ => false
  | _ => true

/-- Whether the template has places for arguments. -/
def hasPlaces (t : Template) : Bool := t.segments.any isPlace

/-- The text of a segment, if its argument is there. -/
def fill? (arguments : List String) : Segment → Option (List Char)
  | .literal c => some [c]
  | .argument index => arguments[index]?.map String.toList
  | .allArguments => some (Text.join ", " arguments).toList

/-- The template with arguments put in; `none` when it asks for one that is not there. -/
def expand? (t : Template) (arguments : List String) : Option String :=
  (t.segments.mapM (fill? arguments)).map fun parts => String.ofList parts.flatten

/-- Drops every empty pair of brackets. -/
def dropEmptyBrackets : List Char → List Char
  | '(' :: ')' :: rest => dropEmptyBrackets rest
  | c :: rest => c :: dropEmptyBrackets rest
  | [] => []

/-- The template with the modifiers of a type put in. Those that are not there leave nothing, and
brackets left empty go. -/
def expandModifiers (t : Template) (modifiers : List String) : String :=
  String.ofList (dropEmptyBrackets
    (t.segments.flatMap fun segment => (fill? modifiers segment).getD []))

end Template

end TriggerDialect
