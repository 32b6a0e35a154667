/-!
# Totals

The sum of a count over a list.
-/

namespace TriggerDialect

variable {α : Type}

/-- The sum of `count` over a list. -/
def total (count : α → Nat) : List α → Nat
  | [] => 0
  | a :: rest => count a + total count rest

/-- An empty list has no total. -/
@[simp] theorem total_nil (count : α → Nat) : total count [] = 0 := rfl

/-- The first count comes first. -/
@[simp] theorem total_cons (count : α → Nat) (a : α) (rest : List α) :
    total count (a :: rest) = count a + total count rest := rfl

/-- Totals of joined lists add up. -/
@[simp] theorem total_append (count : α → Nat) (xs ys : List α) :
    total count (xs ++ ys) = total count xs + total count ys := by
  induction xs with
  | nil => simp
  | cons x xs ih => simp only [List.cons_append, total_cons, ih, Nat.add_assoc]

end TriggerDialect
