import Mathlib.Algebra.Order.Ring.Nat
import RecordQuery.Binary64

/-!
Rounding of whole numbers that need all of 64 bits. From `2 ^ 63` to `2 ^ 64` the doubles are 2048
apart, and such a number becomes the nearest of them; of two that are equally near it becomes the
one with the even significand (`isNearest_ofInt`).
-/

namespace RecordQuery.Binary64

/-- No finite double is nearer to a whole number, and where another one is as near, this one has the
even significand. -/
structure IsNearest (x : Binary64) (n : Int) : Prop where
  finite : x.isFinite = true
  le_dist : ∀ y : Binary64, y.isFinite = true →
    (n * unitsPerOne - x.units).natAbs ≤ (n * unitsPerOne - y.units).natAbs
  even_of_tie : ∀ y : Binary64, y.isFinite = true → y.units ≠ x.units →
    (n * unitsPerOne - x.units).natAbs = (n * unitsPerOne - y.units).natAbs →
      x.significand % 2 = 0

theorem two_pow_add (s : Nat) : 2 ^ (s + 1074) = 2 ^ s * unitsPerOne :=
  (Nat.pow_add 2 s 1074).trans (congrArg (2 ^ s * ·) (Nat.one_shiftLeft 1074).symm)

theorem two_pow_le {e s : Nat} (h : e ≤ s + 1074) : 2 ^ e ≤ 2 ^ s * unitsPerOne :=
  two_pow_add s ▸ Nat.pow_le_pow_right Nat.two_pos h

theorem natAbs_sub_mul (n : Int) (m u : Nat) :
    (n * u - ((m * u : Nat) : Int)).natAbs = (n - (m : Int)).natAbs * u := by
  rw [Int.natCast_mul, ← Int.sub_mul, Int.natAbs_mul, Int.natAbs_natCast]

theorem unitsPerOne_pos : 0 < unitsPerOne :=
  Nat.pos_of_mul_pos_left (two_pow_add 0 ▸ Nat.two_pow_pos (0 + 1074))

theorem log2_mul_unitsPerOne {n s : Nat} (low : 2 ^ s ≤ n) (high : n < 2 ^ (s + 1)) :
    (n * unitsPerOne).log2 = s + 1074 := by
  have hne : n * unitsPerOne ≠ 0 :=
    (Nat.mul_pos ((Nat.two_pow_pos s).trans_le low) unitsPerOne_pos).ne'
  refine (Nat.log2_eq_iff hne).mpr ⟨?_, ?_⟩
  · rw [two_pow_add]
    exact Nat.mul_le_mul_right _ low
  · rw [Nat.add_right_comm, two_pow_add]
    exact Nat.mul_lt_mul_of_pos_right high unitsPerOne_pos

/-! ## The grid of doubles -/

theorem significand_lt (x : Binary64) : x.significand < 2 ^ 53 := by
  unfold significand fraction
  split <;> omega

theorem magnitude_of_scale {x : Binary64} {s : Nat} (h : x.scale = s + 1074) :
    x.magnitude = x.significand * 2 ^ s * unitsPerOne := by
  rw [magnitude, h, Nat.shiftLeft_eq, two_pow_add, Nat.mul_assoc]

/-- Doubles from `2 ^ 63` on are multiples of 2048. -/
theorem units_eq_or_lt (y : Binary64) :
    (∃ k : Nat, y.units = ((k * 2048 * unitsPerOne : Nat) : Int)) ∨
      y.units < ((2 ^ 63 * unitsPerOne : Nat) : Int) := by
  have hpos := unitsPerOne_pos
  unfold units
  split
  · right
    omega
  · by_cases hscale : 1085 ≤ y.scale
    · left
      obtain ⟨s, hs⟩ := Nat.exists_eq_add_of_le' hscale
      refine ⟨y.significand * 2 ^ s, congrArg Nat.cast ?_⟩
      calc y.magnitude
          = y.significand * 2 ^ (s + 11) * unitsPerOne := magnitude_of_scale hs
        _ = y.significand * 2 ^ s * 2048 * unitsPerOne := by
          rw [Nat.pow_add, Nat.mul_assoc _ (2 ^ s)]
    · right
      have hle : 2 ^ y.scale ≤ 2 ^ 10 * unitsPerOne := two_pow_le (by omega)
      refine Int.ofNat_lt.mpr ?_
      calc y.magnitude
          = y.significand * 2 ^ y.scale := Nat.shiftLeft_eq ..
        _ < 2 ^ 53 * 2 ^ y.scale := Nat.mul_lt_mul_of_pos_right y.significand_lt (Nat.two_pow_pos _)
        _ ≤ 2 ^ 53 * (2 ^ 10 * unitsPerOne) := Nat.mul_le_mul_left _ hle
        _ = 2 ^ 63 * unitsPerOne := (Nat.mul_assoc ..).symm

/-! ## The quotient -/

/-- The quotient that is taken is at most a half away, and it is even at a half. -/
theorem dist_divideToNearest (n : Nat) :
    2 * ((n : Int) - (divideToNearest n 2048 * 2048 : Nat)).natAbs ≤ 2048 ∧
      (2 * ((n : Int) - (divideToNearest n 2048 * 2048 : Nat)).natAbs = 2048 →
        divideToNearest n 2048 % 2 = 0) := by
  unfold divideToNearest
  dsimp only
  split <;> omega

/-- A multiple of 2048 is no nearer to a number than the one with the quotient that is taken. -/
theorem dist_divideToNearest_le (n k : Nat) :
    ((n : Int) - (divideToNearest n 2048 * 2048 : Nat)).natAbs ≤
      ((n : Int) - (k * 2048 : Nat)).natAbs ∧
    (((n : Int) - (divideToNearest n 2048 * 2048 : Nat)).natAbs =
      ((n : Int) - (k * 2048 : Nat)).natAbs →
        k = divideToNearest n 2048 ∨ divideToNearest n 2048 % 2 = 0) := by
  have := dist_divideToNearest n
  omega

theorem divideToNearest_mul {u : Nat} (hu : 0 < u) (n d : Nat) :
    divideToNearest (n * u) (d * u) = divideToNearest n d := by
  have hlt : 2 * (n % d * u) < d * u ↔ 2 * (n % d) < d := by
    rw [← Nat.mul_assoc, Nat.mul_lt_mul_right hu]
  have heq : 2 * (n % d * u) = d * u ↔ 2 * (n % d) = d := by
    rw [← Nat.mul_assoc, Nat.mul_left_inj hu.ne']
  simp only [divideToNearest, Nat.mul_div_mul_right _ _ hu, Nat.mul_mod_mul_right, hlt, heq]

/-! ## The nearest double -/

/-- A whole number of more than 52 bits keeps the 53 leading ones, rounded. -/
theorem ofInt_natCast {n s : Nat} (low : 2 ^ (s + 52) ≤ n) (high : n < 2 ^ (s + 53)) :
    ofInt n = signed false
      (min ((s + 1074) <<< 52 + divideToNearest n (2 ^ s)) infinityBits) := by
  have hlog : (n * unitsPerOne).log2 - 52 = s + 1074 := by
    rw [log2_mul_unitsPerOne low high, Nat.add_right_comm, Nat.add_sub_cancel]
  have hnegative : decide ((n : Int) < 0) = false := decide_eq_false (by omega)
  rw [ofInt, ofRatio, Nat.div_one, Int.natAbs_natCast, hlog, Nat.one_shiftLeft, two_pow_add,
    divideToNearest_mul unitsPerOne_pos, hnegative]

section

variable {n : Nat}

theorem divideToNearest_bounds (low : 2 ^ 63 ≤ n) (high : n < 2 ^ 64) :
    2 ^ 52 ≤ divideToNearest n 2048 ∧ divideToNearest n 2048 ≤ 2 ^ 53 := by
  have := (dist_divideToNearest n).1
  omega

theorem bits_ofInt (low : 2 ^ 63 ≤ n) (high : n < 2 ^ 64) :
    (ofInt n).bits.toNat = 1085 * 2 ^ 52 + divideToNearest n 2048 := by
  obtain ⟨hlow, hhigh⟩ := divideToNearest_bounds low high
  have hword : (11 + 1074) <<< 52 + divideToNearest n (2 ^ 11) =
      1085 * 2 ^ 52 + divideToNearest n 2048 :=
    congrArg (· + divideToNearest n 2048) (Nat.shiftLeft_eq 1085 52)
  rw [ofInt_natCast (s := 11) low high, hword, Nat.min_eq_left (by rw [infinityBits]; omega),
    signed, UInt64.toNat_ofNat', if_neg Bool.false_ne_true, Nat.add_zero,
    Nat.mod_eq_of_lt (by omega)]

/-- A quotient of `2 ^ 53` carries into the exponent. -/
theorem significand_ofInt (low : 2 ^ 63 ≤ n) (high : n < 2 ^ 64) :
    (ofInt n).significand = divideToNearest n 2048 ∧ (ofInt n).scale = 11 + 1074 ∨
      (ofInt n).significand = 2 ^ 52 ∧ (ofInt n).scale = 12 + 1074 ∧
        divideToNearest n 2048 = 2 ^ 53 := by
  obtain ⟨hlow, hhigh⟩ := divideToNearest_bounds low high
  have hbits := bits_ofInt low high
  have hexponent : (ofInt n).biasedExponent ≠ 0 := by
    unfold biasedExponent
    omega
  rw [significand, if_neg hexponent, scale, biasedExponent, fraction]
  omega

theorem units_ofInt (low : 2 ^ 63 ≤ n) (high : n < 2 ^ 64) :
    (ofInt n).units = ((divideToNearest n 2048 * 2048 * unitsPerOne : Nat) : Int) := by
  have hnegative : (ofInt n).isNegative = false := by
    have hbits := bits_ofInt low high
    have hhigh := (divideToNearest_bounds low high).2
    unfold isNegative
    exact decide_eq_false (by omega)
  rw [units, if_neg (by rw [hnegative]; exact Bool.false_ne_true)]
  refine congrArg Nat.cast ?_
  rcases significand_ofInt low high with ⟨hsignificand, hscale⟩ | ⟨hsignificand, hscale, hcarry⟩
  · rw [magnitude_of_scale hscale, hsignificand]
    rfl
  · rw [magnitude_of_scale hscale, hsignificand, hcarry]
    exact congrArg (· * unitsPerOne) (by decide)

theorem isFinite_ofInt (low : 2 ^ 63 ≤ n) (high : n < 2 ^ 64) : (ofInt n).isFinite = true := by
  have hbits := bits_ofInt low high
  have hhigh := (divideToNearest_bounds low high).2
  unfold isFinite biasedExponent
  exact bne_iff_ne.mpr (by omega)

/-- No double is nearer, and one that is as near is of the same value or the quotient is even. -/
theorem dist_ofInt (low : 2 ^ 63 ≤ n) (high : n < 2 ^ 64) (y : Binary64) :
    ((n : Int) * unitsPerOne - (ofInt n).units).natAbs ≤
      ((n : Int) * unitsPerOne - y.units).natAbs ∧
    (((n : Int) * unitsPerOne - (ofInt n).units).natAbs =
      ((n : Int) * unitsPerOne - y.units).natAbs →
        y.units = (ofInt n).units ∨ divideToNearest n 2048 % 2 = 0) := by
  rw [units_ofInt low high, natAbs_sub_mul]
  rcases units_eq_or_lt y with ⟨k, hk⟩ | hlt
  · obtain ⟨hle, htie⟩ := dist_divideToNearest_le n k
    rw [hk, natAbs_sub_mul, Nat.mul_left_inj unitsPerOne_pos.ne']
    exact ⟨Nat.mul_le_mul_right _ hle, fun h => (htie h).imp_left fun hk => by rw [hk]⟩
  · -- what lies below `2 ^ 63` is farther away than `2 ^ 63` itself
    have hfar : ((n : Int) - (2 ^ 63 : Nat)).natAbs * unitsPerOne <
        ((n : Int) * unitsPerOne - y.units).natAbs := by
      rw [← natAbs_sub_mul]
      have := Nat.mul_le_mul_right unitsPerOne low
      omega
    have hle := (dist_divideToNearest_le n (2 ^ 52)).1
    have hlt := (Nat.mul_le_mul_right unitsPerOne hle).trans_lt hfar
    exact ⟨hlt.le, fun h => absurd h hlt.ne⟩

theorem isNearest_ofInt_natCast (low : 2 ^ 63 ≤ n) (high : n < 2 ^ 64) :
    IsNearest (ofInt n) n where
  finite := isFinite_ofInt low high
  le_dist y _ := (dist_ofInt low high y).1
  even_of_tie y _ hne htie := by
    have heven := ((dist_ofInt low high y).2 htie).resolve_left hne
    rcases significand_ofInt low high with ⟨hsignificand, -⟩ | ⟨hsignificand, -, -⟩
    · rw [hsignificand, heven]
    · rw [hsignificand]
      rfl

end

theorem isNearest_ofInt {n : Int} (low : 0x8000000000000000 ≤ n) (high : n < 0x10000000000000000) :
    IsNearest (ofInt n) n := by
  obtain ⟨m, rfl⟩ := Int.eq_ofNat_of_zero_le (Int.le_trans (by decide) low)
  exact isNearest_ofInt_natCast (Int.ofNat_le.mp low) (Int.ofNat_lt.mp high)

end RecordQuery.Binary64
