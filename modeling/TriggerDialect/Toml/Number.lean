import TriggerDialect.Text.Decimal
import TriggerDialect.Text.Hexadecimal
import TriggerDialect.Toml.Value

/-!
# Numbers and dates of TOML

Digits may be grouped by single underscores. Integers fit 64 bits with a sign. A date or a time has
to exist, and is given in one spelling: a `T` stands between the two, the fraction of a second has
at most nine digits and no zeros at its end, and the distance to universal time is `Z` or has a
sign, which is `+` for no distance.
-/

namespace TriggerDialect.Toml

/-- A grouped run of digits after its first one: the digits and what follows. -/
def digitsAfter (isDigit : Char → Bool) : List Char → List Char × List Char
  | '_' :: c :: rest =>
    if isDigit c then
      let later := digitsAfter isDigit rest
      (c :: later.1, later.2)
    else ([], '_' :: c :: rest)
  | c :: rest =>
    if isDigit c then
      let later := digitsAfter isDigit rest
      (c :: later.1, later.2)
    else ([], c :: rest)
  | [] => ([], [])

/-- A grouped run of digits. -/
def digits? (isDigit : Char → Bool) : List Char → Option (List Char × List Char)
  | [] => none
  | c :: rest =>
    if isDigit c then
      let later := digitsAfter isDigit rest
      some (c :: later.1, later.2)
    else none

/-- The digits of a decimal integer, which starts with zero only if it is zero. -/
def decimalDigits? : List Char → Option (List Char × List Char)
  | '0' :: rest => some (['0'], rest)
  | cs => digits? Char.isDigit cs

/-- Whether an integer fits 64 bits with a sign. -/
def fitsWord (n : Int) : Bool :=
  decide (-9223372036854775808 ≤ n ∧ n < 9223372036854775808)

/-- An integer that fits, as a value. -/
def integerValue (n : Int) (rest : List Char) : Option (Value × List Char) :=
  if fitsWord n then some (.integer n, rest) else none

/-- The sign before a number, and what follows. -/
def sign : List Char → List Char × List Char
  | '-' :: rest => (['-'], rest)
  | '+' :: rest => (['+'], rest)
  | cs => ([], cs)

/-- The integer with these digits and this sign. -/
def signed (mark digits : List Char) : Int :=
  if mark = ['-'] then -(Text.value digits : Int) else Text.value digits

/-- A digit of a base. -/
def digitOf? (base : Nat) (c : Char) : Option Nat :=
  (Text.hexValue? c).bind fun d => if d < base then some d else none

/-- An integer in a base other than ten, after its mark. -/
def basedInteger? (base : Nat) (cs : List Char) : Option (Value × List Char) := do
  let (digits, rest) ← digits? (fun c => (digitOf? base c).isSome) cs
  let n ← Text.number? base (digitOf? base) digits
  integerValue n rest

/-- The part of a text before its rest. -/
def before (cs rest : List Char) : String := String.ofList (cs.take (cs.length - rest.length))

/-- The digits of a fraction after an integer, if there is one. -/
def fraction : List Char → Option (Option (List Char) × List Char)
  | '.' :: rest => (digits? Char.isDigit rest).map fun (digits, rest) => (some digits, rest)
  | cs => some (none, cs)

/-- An exponent after a number, if there is one. -/
def exponent (cs : List Char) : Option (Option Int × List Char) :=
  match cs with
  | [] => some (none, [])
  | c :: rest =>
    if c = 'e' ∨ c = 'E' then
      let (mark, rest) := sign rest
      (digits? Char.isDigit rest).map fun (digits, rest) => (some (signed mark digits), rest)
    else some (none, c :: rest)

/-- Whether the number with these digits and power of ten rounds to infinity in the binary format of
64 bits. -/
def isTooLarge (digits : List Char) (power : Int) : Bool :=
  let n := Text.value digits
  let bound := Nat.pow 2 1024 - Nat.pow 2 970
  match power with
  | .ofNat k => n != 0 && (309 < k || bound ≤ n * Nat.pow 10 k)
  | .negSucc k => k < digits.length && bound * Nat.pow 10 (k + 1) ≤ n

/-- A decimal number after its sign. Of the numbers that round to infinity only negative ones are
taken. -/
def decimal? (mark cs : List Char) : Option (Value × List Char) := do
  let (digits, rest) ← decimalDigits? cs
  let (fractionDigits, rest) ← fraction rest
  let (power, rest) ← exponent rest
  match fractionDigits, power with
  | none, none => integerValue (signed mark digits) rest
  | _, _ =>
    let decimals := fractionDigits.getD []
    guard (mark = ['-'] ∨ !isTooLarge (digits ++ decimals) (power.getD 0 - decimals.length))
    return (.float (String.ofList mark ++ before cs rest), rest)

/-- A number, after checking for its mark. -/
def number? (cs : List Char) : Option (Value × List Char) :=
  match cs with
  | '0' :: 'x' :: rest => basedInteger? 16 rest
  | '0' :: 'o' :: rest => basedInteger? 8 rest
  | '0' :: 'b' :: rest => basedInteger? 2 rest
  | cs =>
    let (mark, rest) := sign cs
    match rest with
    | 'i' :: 'n' :: 'f' :: after => some (.float (String.ofList (mark ++ "inf".toList)), after)
    | 'n' :: 'a' :: 'n' :: after => some (.float (String.ofList (mark ++ "nan".toList)), after)
    | _ => decimal? mark rest

/-! ### Dates and times -/

/-- A number of exactly `count` digits between two bounds. -/
def field? (count low high : Nat) (cs : List Char) : Option (Nat × List Char) :=
  let digits := cs.take count
  let n := Text.value digits
  if digits.length = count ∧ digits.all Char.isDigit ∧ low ≤ n ∧ n ≤ high then
    some (n, cs.drop count)
  else none

/-- The text after a fixed character. -/
def after? (c : Char) : List Char → Option (List Char)
  | [] => none
  | d :: rest => if d = c then some rest else none

/-- The number of days of a month. -/
def daysOf (year month : Nat) : Nat :=
  if month = 2 then
    if year % 4 = 0 ∧ (year % 100 ≠ 0 ∨ year % 400 = 0) then 29 else 28
  else if month = 4 ∨ month = 6 ∨ month = 9 ∨ month = 11 then 30
  else 31

/-- The text after a date. -/
def afterDate? (cs : List Char) : Option (List Char) := do
  let (year, rest) ← field? 4 0 9999 cs
  let rest ← after? '-' rest
  let (month, rest) ← field? 2 1 12 rest
  let rest ← after? '-' rest
  let (_, rest) ← field? 2 1 (daysOf year month) rest
  return rest

/-- A fraction of a second, if there is one. -/
def secondFraction (cs : List Char) : String × List Char :=
  match cs with
  | '.' :: rest =>
    let digits := rest.takeWhile Char.isDigit
    if digits.isEmpty then ("", cs)
    else
      let kept := ((digits.take 9).reverse.dropWhile (· == '0')).reverse
      (if kept.isEmpty then "" else String.ofList ('.' :: kept), rest.dropWhile Char.isDigit)
  | cs => ("", cs)

/-- The text after hours and minutes. -/
def afterHoursMinutes? (cs : List Char) : Option (List Char) := do
  let (_, rest) ← field? 2 0 23 cs
  let rest ← after? ':' rest
  let (_, rest) ← field? 2 0 59 rest
  return rest

/-- A time. -/
def time? (cs : List Char) : Option (String × List Char) := do
  let rest ← afterHoursMinutes? cs
  let rest ← after? ':' rest
  let (_, rest) ← field? 2 0 60 rest
  let (fraction, after) := secondFraction rest
  return (before cs rest ++ fraction, after)

/-- A distance to universal time, if there is one. -/
def offset (cs : List Char) : String × List Char :=
  match cs with
  | [] => ("", [])
  | c :: rest =>
    if c = 'Z' ∨ c = 'z' then ("Z", rest)
    else if c = '+' ∨ c = '-' then
      match afterHoursMinutes? rest with
      | none => ("", cs)
      | some after =>
        let distance := before rest after
        (if distance == "00:00" then "+00:00" else c.toString ++ distance, after)
    else ("", cs)

/-- A time that follows a date, if there is one. -/
def timeOfDate (cs : List Char) : String × List Char :=
  match cs with
  | [] => ("", [])
  | c :: rest =>
    if c = 'T' ∨ c = 't' ∨ c = ' ' then
      match time? rest with
      | none => ("", cs)
      | some (time, rest) =>
        let (distance, rest) := offset rest
        ("T" ++ time ++ distance, rest)
    else ("", cs)

/-- A date, a time or both. -/
def dateTime? (cs : List Char) : Option (Value × List Char) :=
  match afterDate? cs with
  | some rest =>
    let (time, after) := timeOfDate rest
    some (.dateTime (before cs rest ++ time), after)
  | none => (time? cs).map fun (time, rest) => (.dateTime time, rest)

end TriggerDialect.Toml
