import RecordQuery.Binary64

/-!
The shortest decimal that reads back as a given double, and how it is written out. A decimal reads
back when it lies in the interval of reals that round to the double; the ends of that interval
belong to it exactly when the significand is even.
-/

namespace RecordQuery

/-- The number `d₀.d₁d₂… * 10 ^ leading`. -/
structure Decimal where
  digits : List Char
  leading : Int
  deriving DecidableEq

namespace Decimal

/-- `n * 10 ^ place` without the zeros that end `n`. -/
def ofNat (n : Nat) (place : Int) : Decimal :=
  let digits := Nat.toDigits 10 n
  ⟨(digits.reverse.dropWhile (· == '0')).reverse, place + digits.length - 1⟩

/-- The exponents of the first digit that are written without an exponent mark. -/
structure Layout where
  least : Int
  greatest : Int

private def zeros (n : Nat) : List Char := List.replicate n '0'

private def positional (x : Decimal) : List Char :=
  if x.leading < 0 then '0' :: '.' :: zeros (-x.leading - 1).toNat ++ x.digits
  else
    let whole := x.leading.toNat + 1
    let rest := x.digits.drop whole
    x.digits.take whole ++ zeros (whole - x.digits.length)
      ++ '.' :: (if rest = [] then ['0'] else rest)

private def scientific (x : Decimal) : List Char :=
  let rest := x.digits.drop 1
  let mark := if x.leading < 0 then ['e', '-'] else ['e', '+']
  x.digits.take 1 ++ (if rest = [] then [] else '.' :: rest) ++ mark
    ++ Nat.toDigits 10 x.leading.natAbs

def text (layout : Layout) (x : Decimal) : String :=
  String.ofList <|
    if layout.least ≤ x.leading ∧ x.leading ≤ layout.greatest then positional x
    else scientific x

end Decimal

namespace Binary64

/-- The exponent of the first decimal digit of a number that is not zero. No double is below
`10 ^ -400`, so enough digits are left once the point has moved by 400 places. -/
def leadingExponent (x : Binary64) : Int :=
  ((Nat.toDigits 10 (x.magnitude * Nat.pow 10 400 / unitsPerOne)).length : Int) - 401

/-- The multiple of `10 ^ place` that reads back as `x`, if one of the two around `x` does; of two,
the nearer, and at equal distance the even one. Lengths are in units of `2 ^ -1076`. -/
def onGrid? (x : Binary64) (place : Int) : Option Decimal :=
  let step := 1 <<< x.scale
  let fine := Nat.pow 10 (-place).toNat
  let coarse := 4 * unitsPerOne * Nat.pow 10 place.toNat
  let value := 4 * x.magnitude * fine
  let below := if x.significand = 0x10000000000000 ∧ 0 < x.scale then 1 else 2
  let lower := value - below * step * fine
  let upper := value + 2 * step * fine
  let readsBack := fun n =>
    if x.significand % 2 = 0 then decide (lower ≤ n * coarse ∧ n * coarse ≤ upper)
    else decide (lower < n * coarse ∧ n * coarse < upper)
  let n := value / coarse
  let pick := fun n => some (Decimal.ofNat n place)
  match readsBack n, readsBack (n + 1) with
  | false, false => none
  | true, false => pick n
  | false, true => pick (n + 1)
  | true, true =>
    match compare (2 * value) ((2 * n + 1) * coarse) with
    | .lt => pick n
    | .gt => pick (n + 1)
    | .eq => pick (n + n % 2)

/-- The shortest decimal that reads back as the magnitude of a finite number. Seventeen digits are
always enough. -/
def shortest (x : Binary64) : Decimal :=
  if x.magnitude = 0 then ⟨['0'], 0⟩
  else
    let grid := fun (n : Nat) => x.onGrid? (x.leadingExponent - n)
    ((List.range 17).findSome? grid).getD ⟨['0'], 0⟩

/-- The text of a finite number. -/
def text (layout : Decimal.Layout) (x : Binary64) : String :=
  (if x.isNegative then "-" else "") ++ x.shortest.text layout

end Binary64

end RecordQuery
