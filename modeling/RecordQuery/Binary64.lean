/-!
IEEE 754 double precision numbers, kept as their 64 bits and read exactly. Every finite one is a
whole number of units of `2 ^ -1074`, so order, equality and rounding are questions about integers.
-/

namespace RecordQuery

/-- A double precision number by its bit pattern: sign, 11 exponent bits, 52 fraction bits. -/
structure Binary64 where
  bits : UInt64
  deriving DecidableEq

namespace Binary64

/-! ## The fields of the word -/

def isNegative (x : Binary64) : Bool := decide (0x8000000000000000 ≤ x.bits.toNat)
def biasedExponent (x : Binary64) : Nat := x.bits.toNat / 0x10000000000000 % 0x800
def fraction (x : Binary64) : Nat := x.bits.toNat % 0x10000000000000

def isFinite (x : Binary64) : Bool := x.biasedExponent != 0x7ff
def isNaN (x : Binary64) : Bool := x.biasedExponent == 0x7ff && x.fraction != 0

/-- The fraction with its hidden leading bit; subnormal numbers have none. -/
def significand (x : Binary64) : Nat :=
  if x.biasedExponent = 0 then x.fraction else 0x10000000000000 + x.fraction

/-- The power of two by which the significand is scaled, counted from `2 ^ -1074`. -/
def scale (x : Binary64) : Nat := x.biasedExponent - 1

def magnitude (x : Binary64) : Nat := x.significand <<< x.scale

/-- The exact value of a finite number, in units of `2 ^ -1074`. -/
def units (x : Binary64) : Int :=
  if x.isNegative then -(x.magnitude : Int) else (x.magnitude : Int)

/-- How many units of `2 ^ -1074` make one. -/
def unitsPerOne : Nat := 1 <<< 1074

/-- A finite number without a fractional part. -/
def isWhole (x : Binary64) : Bool := x.isFinite && x.magnitude % unitsPerOne == 0

end Binary64

/-! ## The number line -/

/-- A point of the line with both infinities, the finite ones in units of `2 ^ -1074`. -/
inductive Point where
  | negInfinity
  | finite (units : Int)
  | posInfinity
  deriving DecidableEq

namespace Point

def ofInt (n : Int) : Point := .finite (n * Binary64.unitsPerOne)

protected def compare : Point → Point → Ordering
  | .negInfinity, .negInfinity => .eq
  | .negInfinity, _ => .lt
  | .finite _, .negInfinity => .gt
  | .finite m, .finite n => compare m n
  | .finite _, .posInfinity => .lt
  | .posInfinity, .posInfinity => .eq
  | .posInfinity, _ => .gt

end Point

namespace Binary64

/-- Where a number lies on the line; NaN lies nowhere. -/
def point? (x : Binary64) : Option Point :=
  if x.isFinite then some (.finite x.units)
  else if x.isNaN then none
  else some (if x.isNegative then .negInfinity else .posInfinity)

/-- The order of two numbers; NaN is in no order with anything. -/
def compare? (x y : Binary64) : Option Ordering := do return (← x.point?).compare (← y.point?)

def lt (x y : Binary64) : Bool := x.compare? y == some .lt

def le (x y : Binary64) : Bool := x.compare? y == some .lt || x.compare? y == some .eq

/-! ## Rounding -/

def signed (negative : Bool) (magnitudeBits : Nat) : Binary64 :=
  ⟨UInt64.ofNat (magnitudeBits + if negative then 0x8000000000000000 else 0)⟩

def infinityBits : Nat := 0x7ff0000000000000

/-- The quotient rounded to the nearest whole number, a half going to the even neighbour. -/
def divideToNearest (num den : Nat) : Nat :=
  let quotient := num / den
  let twice := 2 * (num % den)
  if twice < den ∨ (twice = den ∧ quotient % 2 = 0) then quotient else quotient + 1

/-- The number nearest to `num / den`, a half going to the even significand. A significand that
rounds up to `2 ^ 53` carries into the exponent field; past the largest finite number lies infinity,
whose word is the next one. -/
def ofRatio (negative : Bool) (num den : Nat) : Binary64 :=
  let scale := (num * unitsPerOne / den).log2 - 52
  let word := scale <<< 52 + divideToNearest (num * unitsPerOne) (den <<< scale)
  signed negative (min word infinityBits)

/-- The number nearest to a whole one. -/
def ofInt (n : Int) : Binary64 := ofRatio (n < 0) n.natAbs 1

/-! ## Whole numbers of 64 bits -/

/-- The greatest whole number that is not above a number. Infinities and NaN stay as they are. -/
def floor (x : Binary64) : Binary64 :=
  if x.isFinite && !x.isWhole then ofInt (x.units / unitsPerOne) else x

/-- The whole part. What is out of range goes to the end on its side, and NaN to zero. -/
def toInt64 (x : Binary64) : Int64 :=
  match x.point? with
  | some .negInfinity => Int64.minValue
  | some (.finite units) => Int64.ofIntClamp (units.tdiv unitsPerOne)
  | some .posInfinity => Int64.maxValue
  | none => 0

/-- The number `2 ^ 63`, the first one past the whole numbers of 64 bits, or its negative. -/
def int64Bound (negative : Bool) : Binary64 := signed negative 0x43e0000000000000

/-- Orders a whole number against a double without rounding it to one. The double is split at its
floor, which is in range once the numbers past both ends are handled; where the whole parts are
equal the fraction decides. -/
def compareInt (n : Int64) (x : Binary64) : Option Ordering :=
  if x.isNaN then none
  else if (int64Bound false).le x then some .lt
  else if x.lt (int64Bound true) then some .gt
  else
    match compare n x.floor.toInt64 with
    | .eq => if x.floor.lt x then some .lt else some .eq
    | order => some order

/-! ## Products and quotients -/

/-- The product of two finite numbers, rounded once. -/
def times (x y : Binary64) : Binary64 :=
  ofRatio (x.isNegative != y.isNegative) (x.magnitude * y.magnitude) (unitsPerOne * unitsPerOne)

/-- The quotient of two finite numbers, rounded once; the second one is not zero. -/
def dividedBy (x y : Binary64) : Binary64 :=
  ofRatio (x.isNegative != y.isNegative) x.magnitude y.magnitude

/-- The greatest power of ten that is in range. -/
def maxPowerOfTen : Nat := 308

/-- The number nearest to `10 ^ n`. -/
def powerOfTen (n : Nat) : Binary64 := ofRatio false (Nat.pow 10 n) 1

/-- Divides a finite number by `10 ^ n`, by the greatest power at a time and the rest in the end,
with a rounding after every division. -/
def dividedByPowerOfTen (x : Binary64) (n : Nat) : Binary64 :=
  if n ≤ maxPowerOfTen then x.dividedBy (powerOfTen n)
  else if x.magnitude = 0 then x
  else (x.dividedBy (powerOfTen maxPowerOfTen)).dividedByPowerOfTen (n - maxPowerOfTen)
termination_by n
decreasing_by
  simp only [maxPowerOfTen] at *
  omega

/-- A finite number times `10 ^ exponent`, computed with rounded powers of ten. The result is close
to the nearest number, but need not be it. A product out of range is infinite. -/
def scaled (x : Binary64) (exponent : Int) : Binary64 :=
  if exponent < 0 then x.dividedByPowerOfTen exponent.natAbs
  else if x.magnitude = 0 then x
  else if maxPowerOfTen < exponent then signed x.isNegative infinityBits
  else x.times (powerOfTen exponent.natAbs)

end Binary64

end RecordQuery
