/-!
# Decimal numerals

Natural numbers in decimal, without leading zeros, and the value of a run of digits.
Main statement: the value of a numeral is the number it was written for (`value_decimalChars`).
-/

namespace TriggerDialect.Text

/-- The digit of a number below ten. -/
def digitChar (d : Nat) : Char := Char.ofNat (48 + d)

/-- The number that a digit stands for. -/
def digitValue (c : Char) : Nat := c.toNat - 48

/-- The digits of a number. -/
def decimalChars (n : Nat) : List Char :=
  if n < 10 then [digitChar n] else decimalChars (n / 10) ++ [digitChar (n % 10)]
termination_by n
decreasing_by omega

/-- A number in decimal. -/
def decimal (n : Nat) : String := String.ofList (decimalChars n)

/-- The number that a run of digits stands for. -/
def value (digits : List Char) : Nat := digits.foldl (fun n c => 10 * n + digitValue c) 0

/-- A digit has its value. -/
theorem digitValue_digitChar {d : Nat} (h : d < 10) : digitValue (digitChar d) = d := by
  revert d
  decide

/-- A digit is one. -/
theorem isDigit_digitChar {d : Nat} (h : d < 10) : (digitChar d).isDigit := by
  revert d
  decide

/-- Digits are read from left to right. -/
theorem value_append (ds es : List Char) :
    value (ds ++ es) = es.foldl (fun n c => 10 * n + digitValue c) (value ds) := by
  simp [value, List.foldl_append]

/-- Reading a numeral gives the number back. -/
theorem value_decimalChars (n : Nat) : value (decimalChars n) = n := by
  induction n using decimalChars.induct with
  | case1 n h =>
    unfold decimalChars
    simp [h, value, digitValue_digitChar h]
  | case2 n h ih =>
    unfold decimalChars
    rw [if_neg h, value_append, ih]
    simp only [List.foldl_cons, List.foldl_nil]
    rw [digitValue_digitChar (Nat.mod_lt n (by omega))]
    omega

/-- Every number has digits. -/
theorem decimalChars_ne_nil (n : Nat) : decimalChars n ≠ [] := by
  unfold decimalChars
  split <;> simp

/-- A numeral has digits only. -/
theorem isDigit_of_mem_decimalChars {n : Nat} {c : Char} (h : c ∈ decimalChars n) : c.isDigit := by
  induction n using decimalChars.induct with
  | case1 n hn =>
    unfold decimalChars at h
    rw [if_pos hn, List.mem_singleton] at h
    exact h ▸ isDigit_digitChar hn
  | case2 n hn ih =>
    unfold decimalChars at h
    rw [if_neg hn, List.mem_append, List.mem_singleton] at h
    rcases h with h | h
    · exact ih h
    · exact h ▸ isDigit_digitChar (Nat.mod_lt n (by omega))

end TriggerDialect.Text
