/-!
Numerals: digits and the numbers they spell.
-/

namespace RecordQuery.Numeral

/-- The value of a digit; letters of either case follow the nine. -/
def digit? (base : Nat) (c : Char) : Option Nat :=
  let value :=
    if '0' ≤ c ∧ c ≤ '9' then some (c.toNat - '0'.toNat)
    else if 'a' ≤ c ∧ c ≤ 'z' then some (c.toNat - 'a'.toNat + 10)
    else if 'A' ≤ c ∧ c ≤ 'Z' then some (c.toNat - 'A'.toNat + 10)
    else none
  value.filter (· < base)

/-- The number that a sequence of digits spells. -/
def ofDigits? (base : Nat) (cs : List Char) : Option Nat :=
  cs.foldlM (fun n c => (digit? base c).map (base * n + ·)) 0

/-- Adds digits to a number for as long as it stays below a bound. Also gives the digits that are
left, from the first one on that is not added. -/
def extend (base bound n : Nat) : List Char → Nat × List Char
  | [] => (n, [])
  | c :: cs =>
    match digit? base c with
    | none => (n, c :: cs)
    | some d =>
      if base * n + d < bound then extend base bound (base * n + d) cs else (n, c :: cs)

end RecordQuery.Numeral
