import TriggerDialect.Total

/-!
# Places in a text

Offsets and columns count bytes of the UTF-8 form. Lines and columns start at one.
-/

namespace TriggerDialect.Text

/-- The number of bytes of the characters in UTF-8. -/
def byteLength (cs : List Char) : Nat := total Char.utf8Size cs

/-- A line and a column, both counted from one. -/
structure Position where
  line : Nat
  column : Nat
deriving Repr, DecidableEq

/-- Walks to `offset`, where `here` is the offset reached, `line` its line and `lineStart` the
offset at which that line starts. -/
def positionFrom (offset : Nat) (here line lineStart : Nat) : List Char → Position
  | [] => ⟨line, min offset here - lineStart + 1⟩
  | c :: cs =>
    if offset ≤ here then ⟨line, offset - lineStart + 1⟩
    else if c = '\n' then positionFrom offset (here + 1) (line + 1) (here + 1) cs
    else positionFrom offset (here + c.utf8Size) line lineStart cs

/-- The line and column of a byte offset; an offset past the end counts as the end. -/
def position (source : String) (offset : Nat) : Position :=
  positionFrom offset 0 1 0 source.toList

/-- An empty text has no bytes. -/
@[simp] theorem byteLength_nil : byteLength [] = 0 := rfl

/-- The bytes of the first character come first. -/
@[simp] theorem byteLength_cons (c : Char) (cs : List Char) :
    byteLength (c :: cs) = c.utf8Size + byteLength cs := rfl

/-- The bytes of joined texts add up. -/
@[simp] theorem byteLength_append (cs ds : List Char) :
    byteLength (cs ++ ds) = byteLength cs + byteLength ds :=
  total_append _ cs ds

end TriggerDialect.Text
