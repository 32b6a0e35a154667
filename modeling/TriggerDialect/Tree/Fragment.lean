import TriggerDialect.Token.Spacing
import TriggerDialect.Token.Stream

/-!
# Fragments

Expressions and embedded SQL are kept as text in canonical spacing, with the byte offset of the
first token.
-/

namespace TriggerDialect

/-- A text and the byte offset at which it starts in the source. -/
structure Fragment where
  text : String
  offset : Nat
deriving Repr, DecidableEq

namespace Fragment

/-- The offset of the first token, zero when there is none. -/
def startOf (ts : List Token) : Nat :=
  match ts with
  | [] => 0
  | t :: _ => t.offset

/-- The text of a token span. -/
def ofTokens (ts : List Token) : Fragment := ⟨render ts, startOf ts⟩

/-- The tokens of the text, at offsets that count from the start of the fragment. -/
def tokens (f : Fragment) : List Token :=
  (Token.recover f.text).1.map fun t => { t with offset := t.offset + f.offset }

/-- Whether the text is empty. -/
def isEmpty (f : Fragment) : Bool := f.text.isEmpty

end Fragment

end TriggerDialect
