import TriggerDialect.Token.Basic

/-!
# Dotted chains

The segments of a qualified name after its first one, each behind a dot. They may be reserved words.
-/

namespace TriggerDialect

/-- The segments that follow a name, and the tokens after them. -/
def chain : List Token → List Token × List Token
  | dot :: segment :: rest =>
    if dot.isPunct '.' && segment.isSegment then
      let later := chain rest
      (segment :: later.1, later.2)
    else ([], dot :: segment :: rest)
  | ts => ([], ts)

/-- A chain leaves no more than was there. -/
theorem chain_length (ts : List Token) : (chain ts).2.length ≤ ts.length := by
  fun_induction chain ts with
  | case1 dot segment rest _ later ih =>
    exact Nat.le_trans ih (by simp only [List.length_cons]; omega)
  | case2 => exact Nat.le_refl _
  | case3 => exact Nat.le_refl _

end TriggerDialect
