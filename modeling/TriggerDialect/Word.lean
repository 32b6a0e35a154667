/-!
# Words

Offsets, indices and the widths of indentations are numbers of 64 bits.
-/

namespace TriggerDialect

/-- The bound below which a natural number fits a word of 64 bits. -/
def wordBound : Nat := Nat.pow 2 64

end TriggerDialect
