import RecordQuery.Proofs.Rounding

/-!
Whole parts of doubles. Whole numbers of at most 53 bits are doubles (`units_ofInt_of_lt`), and a
double with a fraction lies below `2 ^ 52`, so the floor of a double is never rounded
(`units_floor`). Between `-2 ^ 63` and `2 ^ 63` it is a whole number of 64 bits
(`toInt_toInt64_floor`). So a whole number is compared with a double by their exact values
(`compareInt_eq`).
-/

namespace RecordQuery.Binary64

/-! ## Small whole numbers -/

theorem unitsPerOne_eq_mul {s : Nat} (h : s ≤ 52) :
    unitsPerOne = 2 ^ (52 - s) * 2 ^ (s + 1022) := by
  have hsum : s + 1074 = s + (52 - s + (s + 1022)) := by omega
  refine Nat.eq_of_mul_eq_mul_left (Nat.two_pow_pos s) ?_
  rw [← two_pow_add, hsum, Nat.pow_add, Nat.pow_add]

theorem divideToNearest_one (n : Nat) : divideToNearest n 1 = n := by
  simp [divideToNearest, Nat.mod_one]

/-- A word that is put together from a sign, a scale and a significand with its leading bit has
these three as its fields. -/
theorem fields_signed (negative : Bool) {m e : Nat} (low : 2 ^ 52 ≤ m) (high : m < 2 ^ 53)
    (he : e < 2046) :
    (signed negative (e * 2 ^ 52 + m)).isNegative = negative ∧
      (signed negative (e * 2 ^ 52 + m)).biasedExponent = e + 1 ∧
      (signed negative (e * 2 ^ 52 + m)).fraction = m - 2 ^ 52 := by
  have hsign : (if negative then 0x8000000000000000 else 0) ≤ 0x8000000000000000 := by
    cases negative <;> simp
  have hbits : (signed negative (e * 2 ^ 52 + m)).bits.toNat =
      e * 2 ^ 52 + m + if negative then 0x8000000000000000 else 0 := by
    rw [signed, UInt64.toNat_ofNat', Nat.mod_eq_of_lt (by omega)]
  simp only [isNegative, biasedExponent, fraction, hbits]
  cases negative with
  | true =>
    simp only [if_true, decide_eq_true_eq]
    omega
  | false =>
    simp only [Bool.false_eq_true, if_false, decide_eq_false_iff_not]
    omega

theorem finite_units_signed (negative : Bool) {m e : Nat} (low : 2 ^ 52 ≤ m) (high : m < 2 ^ 53)
    (he : e < 2046) :
    (signed negative (e * 2 ^ 52 + m)).isFinite = true ∧
      (signed negative (e * 2 ^ 52 + m)).units =
        if negative then -((m * 2 ^ e : Nat) : Int) else ((m * 2 ^ e : Nat) : Int) := by
  obtain ⟨hnegative, hexponent, hfraction⟩ := fields_signed negative low high he
  have hmagnitude : (signed negative (e * 2 ^ 52 + m)).magnitude = m * 2 ^ e := by
    have hm : 0x10000000000000 + (m - 2 ^ 52) = m := by omega
    rw [magnitude, significand, scale, hexponent, hfraction, if_neg (by omega), hm,
      Nat.shiftLeft_eq, Nat.add_sub_cancel]
  constructor
  · rw [isFinite, hexponent]
    exact bne_iff_ne.mpr (by omega)
  · rw [units, hnegative, hmagnitude]

/-- Shifted to the place of the leading bit, a whole number of at most 53 bits has 53 bits. -/
theorem shifted_bounds {m s : Nat} (low : 2 ^ s ≤ m) (high : m < 2 ^ (s + 1)) (hs : s ≤ 52) :
    2 ^ 52 ≤ m * 2 ^ (52 - s) ∧ m * 2 ^ (52 - s) < 2 ^ 53 := by
  have hlow : s + (52 - s) = 52 := by omega
  have hhigh : s + 1 + (52 - s) = 53 := by omega
  constructor
  · calc 2 ^ 52 = 2 ^ s * 2 ^ (52 - s) := by rw [← Nat.pow_add, hlow]
      _ ≤ m * 2 ^ (52 - s) := Nat.mul_le_mul_right _ low
  · calc m * 2 ^ (52 - s)
        < 2 ^ (s + 1) * 2 ^ (52 - s) := Nat.mul_lt_mul_of_pos_right high (Nat.two_pow_pos _)
      _ = 2 ^ 53 := by rw [← Nat.pow_add, hhigh]

/-- A whole number of at most 53 bits keeps all its digits. -/
theorem ofInt_eq_signed {n : Int} {s : Nat} (low : 2 ^ s ≤ n.natAbs) (high : n.natAbs < 2 ^ (s + 1))
    (hs : s ≤ 52) :
    ofInt n = signed (n < 0) ((s + 1022) * 2 ^ 52 + n.natAbs * 2 ^ (52 - s)) := by
  have hlog : (n.natAbs * unitsPerOne).log2 - 52 = s + 1022 := by
    rw [log2_mul_unitsPerOne low high]
    omega
  have hquotient : divideToNearest (n.natAbs * unitsPerOne) (2 ^ (s + 1022)) =
      n.natAbs * 2 ^ (52 - s) := by
    have hscaled := divideToNearest_mul (Nat.two_pow_pos (s + 1022)) (n.natAbs * 2 ^ (52 - s)) 1
    rw [Nat.one_mul, Nat.mul_assoc, ← unitsPerOne_eq_mul hs, divideToNearest_one] at hscaled
    exact hscaled
  have hsmall := (shifted_bounds low high hs).2
  rw [ofInt, ofRatio, Nat.div_one, hlog, Nat.shiftLeft_eq, Nat.one_shiftLeft, hquotient,
    Nat.min_eq_left (by rw [infinityBits]; omega)]

/-- Whole numbers of at most 53 bits are doubles. -/
theorem units_ofInt_of_lt {n : Int} (h : n.natAbs < 2 ^ 53) :
    (ofInt n).isFinite = true ∧ (ofInt n).units = n * unitsPerOne := by
  by_cases hn : n = 0
  · subst hn
    exact ⟨by decide +kernel, by decide +kernel⟩
  · have hne : n.natAbs ≠ 0 := by omega
    obtain ⟨low, high⟩ := (Nat.log2_eq_iff hne).mp rfl
    have hs : n.natAbs.log2 ≤ 52 := Nat.lt_succ_iff.mp ((Nat.log2_lt hne).mpr h)
    rw [ofInt_eq_signed low high hs]
    obtain ⟨hlow, hhigh⟩ := shifted_bounds low high hs
    have hscale : n.natAbs.log2 + 1022 < 2046 := by omega
    obtain ⟨hfinite, hunits⟩ := finite_units_signed (n < 0) hlow hhigh hscale
    refine ⟨hfinite, ?_⟩
    rw [hunits, Nat.mul_assoc, ← unitsPerOne_eq_mul hs, Int.natCast_mul]
    by_cases hneg : n < 0
    · have habs : (n.natAbs : Int) = -n := by omega
      rw [if_pos (decide_eq_true hneg), habs, Int.neg_mul, Int.neg_neg]
    · have habs : (n.natAbs : Int) = n := by omega
      rw [if_neg (by simpa using hneg), habs]

/-! ## Floors -/

section

variable {x : Binary64}

theorem natAbs_units (x : Binary64) : x.units.natAbs = x.magnitude := by
  unfold units
  split <;> simp

theorem unitsPerOne_int_pos : (0 : Int) < unitsPerOne := Int.ofNat_lt.mpr unitsPerOne_pos

theorem isWhole_iff_dvd (h : x.isFinite = true) :
    x.isWhole = true ↔ (unitsPerOne : Int) ∣ x.units := by
  rw [isWhole, h, Bool.true_and, beq_iff_eq, ← Nat.dvd_iff_mod_eq_zero, ← natAbs_units,
    Int.ofNat_dvd_left]

/-- Only below `2 ^ 52` there are doubles with a fraction. -/
theorem magnitude_lt_of_not_isWhole (hfinite : x.isFinite = true) (h : ¬ x.isWhole = true) :
    x.magnitude < 2 ^ 52 * unitsPerOne := by
  have hscale : x.scale < 1074 := by
    by_contra hscale
    obtain ⟨s, hs⟩ := Nat.exists_eq_add_of_le' (Nat.not_lt.mp hscale)
    apply h
    rw [isWhole, hfinite, magnitude_of_scale hs, Nat.mul_mod_left]
    rfl
  have hunit : 2 ^ (x.scale + 1) ≤ 2 ^ 0 * unitsPerOne := two_pow_le (by omega)
  calc x.magnitude
      = x.significand * 2 ^ x.scale := Nat.shiftLeft_eq ..
    _ < 2 ^ 53 * 2 ^ x.scale := Nat.mul_lt_mul_of_pos_right x.significand_lt (Nat.two_pow_pos _)
    _ = 2 ^ 52 * 2 ^ (x.scale + 1) := by rw [Nat.pow_succ 2 x.scale]; omega
    _ ≤ 2 ^ 52 * (2 ^ 0 * unitsPerOne) := Nat.mul_le_mul_left _ hunit
    _ = 2 ^ 52 * unitsPerOne := by rw [Nat.pow_zero, Nat.one_mul]

/-- The floor of a double is a double: it is never rounded. -/
theorem units_floor (h : x.isFinite = true) :
    x.floor.isFinite = true ∧ x.floor.units = x.units / unitsPerOne * unitsPerOne := by
  have hpos := unitsPerOne_int_pos
  by_cases hwhole : x.isWhole = true
  · have hfloor : x.floor = x := by simp [floor, hwhole]
    rw [hfloor, Int.ediv_mul_cancel ((isWhole_iff_dvd h).mp hwhole)]
    exact ⟨h, rfl⟩
  · have hfloor : x.floor = ofInt (x.units / unitsPerOne) := by simp [floor, h, hwhole]
    have hsmall := magnitude_lt_of_not_isWhole h hwhole
    have habs := natAbs_units x
    have hlow : -2 ^ 52 ≤ x.units / unitsPerOne := by
      rw [Int.le_ediv_iff_mul_le hpos]
      omega
    have hhigh : x.units / unitsPerOne < 2 ^ 52 := by
      rw [Int.ediv_lt_iff_lt_mul hpos]
      omega
    rw [hfloor]
    exact units_ofInt_of_lt (by omega)

theorem point?_of_isFinite (h : x.isFinite = true) :
    x.point? = some (.finite x.units) := by
  rw [point?, if_pos h]

theorem point?_floor (h : x.isFinite = true) :
    x.floor.point? = some (.ofInt (x.units / unitsPerOne)) := by
  obtain ⟨hfinite, hunits⟩ := units_floor h
  rw [point?_of_isFinite hfinite, hunits]
  rfl

/-- The cast of a floor in range neither rounds it nor ends at a bound. -/
theorem toInt_toInt64_floor (h : x.isFinite = true) (low : -2 ^ 63 * unitsPerOne ≤ x.units)
    (high : x.units < 2 ^ 63 * unitsPerOne) :
    x.floor.toInt64.toInt = x.units / unitsPerOne := by
  have hpos := unitsPerOne_int_pos
  rw [← Int.le_ediv_iff_mul_le hpos] at low
  rw [← Int.ediv_lt_iff_lt_mul hpos] at high
  have htrunc : (x.units / unitsPerOne * unitsPerOne).tdiv unitsPerOne = x.units / unitsPerOne :=
    Int.mul_tdiv_cancel _ hpos.ne'
  rw [toInt64, point?_floor h]
  simp only [Point.ofInt, htrunc]
  exact Int64.toInt_ofIntClamp low (Int.le_of_lt_add_one high)

end

/-! ## Whole numbers against doubles -/

theorem point?_eq_none_iff {x : Binary64} : x.point? = none ↔ x.isNaN = true := by
  unfold point?
  split
  · rename_i h
    simp_all [isFinite, isNaN]
  · split <;> simp_all

theorem compare_toInt (m n : Int64) : compare m n = compare m.toInt n.toInt := by
  simp only [compare, compareOfLessAndEq, Int64.lt_iff_toInt_lt, Int64.toInt_inj]

theorem compare_ofInt (m n : Int) : (Point.ofInt m).compare (.ofInt n) = compare m n := by
  have hpos := unitsPerOne_int_pos
  show compare (m * unitsPerOne) (n * unitsPerOne) = compare m n
  rcases Int.lt_trichotomy m n with h | rfl | h
  · rw [Int.compare_eq_lt.mpr h, Int.compare_eq_lt.mpr (Int.mul_lt_mul_of_pos_right h hpos)]
  · rw [Int.compare_eq_eq.mpr rfl, Int.compare_eq_eq.mpr rfl]
  · rw [Int.compare_eq_gt.mpr h, Int.compare_eq_gt.mpr (Int.mul_lt_mul_of_pos_right h hpos)]

/-- The whole parts decide the order, and the fraction where they are equal. -/
theorem compare_units (n u : Int) : compare (n * unitsPerOne) u =
    (compare n (u / unitsPerOne)).then
      (if u / unitsPerOne * unitsPerOne < u then .lt else .eq) := by
  have hpos := unitsPerOne_int_pos
  have hle : u / unitsPerOne * unitsPerOne ≤ u := Int.ediv_mul_le u hpos.ne'
  rcases Int.lt_trichotomy n (u / unitsPerOne) with h | rfl | h
  · have hbelow : (n + 1) * unitsPerOne ≤ u := (Int.le_ediv_iff_mul_le hpos).mp h
    rw [Int.add_mul, Int.one_mul] at hbelow
    rw [Int.compare_eq_lt.mpr h, Int.compare_eq_lt.mpr (by omega)]
    rfl
  · have hself : compare (u / (unitsPerOne : Int)) (u / unitsPerOne) = .eq :=
      Int.compare_eq_eq.mpr rfl
    rw [hself, Ordering.then]
    by_cases hlt : u / unitsPerOne * unitsPerOne < u
    · rw [if_pos hlt, Int.compare_eq_lt.mpr hlt]
    · rw [if_neg hlt, Int.compare_eq_eq.mpr (by omega)]
  · have habove : u < n * unitsPerOne := (Int.ediv_lt_iff_lt_mul hpos).mp h
    rw [Int.compare_eq_gt.mpr h, Int.compare_eq_gt.mpr habove]
    rfl

section

variable {x y : Binary64}

theorem compare?_of_point? {p q : Point} (hx : x.point? = some p) (hy : y.point? = some q) :
    x.compare? y = some (p.compare q) := by
  rw [compare?, hx, hy]
  rfl

theorem lt_iff_of_finite {a b : Int} (hx : x.point? = some (.finite a))
    (hy : y.point? = some (.finite b)) : x.lt y = true ↔ a < b := by
  rw [lt, compare?_of_point? hx hy, Point.compare, ← Int.compare_eq_lt]
  simp

theorem le_iff_of_finite {a b : Int} (hx : x.point? = some (.finite a))
    (hy : y.point? = some (.finite b)) : x.le y = true ↔ a ≤ b := by
  rw [le, compare?_of_point? hx hy, Point.compare, Int.le_iff_lt_or_eq, ← Int.compare_eq_lt,
    ← Int.compare_eq_eq]
  simp

theorem point?_int64Bound (negative : Bool) :
    (int64Bound negative).point? = some (.ofInt (if negative then -2 ^ 63 else 2 ^ 63)) := by
  cases negative <;> decide +kernel

theorem int64Bound_le_iff (h : x.isFinite = true) :
    (int64Bound false).le x = true ↔ 2 ^ 63 * unitsPerOne ≤ x.units :=
  le_iff_of_finite (point?_int64Bound false) (point?_of_isFinite h)

theorem lt_int64Bound_iff (h : x.isFinite = true) :
    x.lt (int64Bound true) = true ↔ x.units < -2 ^ 63 * unitsPerOne :=
  lt_iff_of_finite (point?_of_isFinite h) (point?_int64Bound true)

/-- An infinity lies past the bound on its side, and not past the other one. -/
theorem bounds_of_infinite (hfinite : ¬ x.isFinite = true) (hnan : ¬ x.isNaN = true) :
    x.point? = some (if x.isNegative then .negInfinity else .posInfinity) ∧
      (int64Bound false).le x = !x.isNegative ∧ x.lt (int64Bound true) = x.isNegative := by
  have hpoint : x.point? = some (if x.isNegative then .negInfinity else .posInfinity) := by
    rw [point?, if_neg hfinite, if_neg hnan]
  refine ⟨hpoint, ?_⟩
  rw [le, lt, compare?_of_point? (point?_int64Bound false) hpoint,
    compare?_of_point? hpoint (point?_int64Bound true)]
  cases x.isNegative <;> exact ⟨rfl, rfl⟩

/-- In range the split at the floor orders by exact values. -/
theorem compareInt_of_finite (n : Int64) (h : x.isFinite = true) :
    compareInt n x = some (compare (n.toInt * unitsPerOne) x.units) := by
  have hpos := unitsPerOne_int_pos
  have hpoint := point?_of_isFinite h
  have habove := int64Bound_le_iff h
  have hbelow := lt_int64Bound_iff h
  have hnan : x.isNaN = false := by
    rw [← Bool.not_eq_true, ← point?_eq_none_iff, hpoint]
    exact nofun
  rw [compareInt, hnan, if_neg Bool.false_ne_true]
  by_cases hhigh : 2 ^ 63 * unitsPerOne ≤ x.units
  · have hn := Int.mul_lt_mul_of_pos_right n.toInt_lt hpos
    rw [if_pos (habove.mpr hhigh), Int.compare_eq_lt.mpr (Int.lt_of_lt_of_le hn hhigh)]
  · rw [if_neg (mt habove.mp hhigh)]
    by_cases hlow : x.units < -2 ^ 63 * unitsPerOne
    · have hn := Int.mul_le_mul_of_nonneg_right n.le_toInt hpos.le
      rw [if_pos (hbelow.mpr hlow), Int.compare_eq_gt.mpr (Int.lt_of_lt_of_le hlow hn)]
    · have hfloor := toInt_toInt64_floor h (Int.not_lt.mp hlow) (Int.not_le.mp hhigh)
      have hfraction : x.floor.lt x = true ↔ x.units / unitsPerOne * unitsPerOne < x.units :=
        lt_iff_of_finite (point?_floor h) hpoint
      rw [if_neg (mt hbelow.mp hlow), compare_toInt, hfloor, compare_units]
      simp only [hfraction]
      cases compare n.toInt (x.units / unitsPerOne) with
      | lt | gt => rfl
      | eq => exact (apply_ite some _ _ _).symm

/-- **The order of a whole number and a double** is that of their exact values. -/
theorem compareInt_eq (n : Int64) (x : Binary64) :
    compareInt n x = x.point?.map (Point.ofInt n.toInt).compare := by
  by_cases hfinite : x.isFinite = true
  · rw [compareInt_of_finite n hfinite, point?_of_isFinite hfinite]
    rfl
  · by_cases hnan : x.isNaN = true
    · rw [point?_eq_none_iff.mpr hnan, compareInt, if_pos hnan]
      rfl
    · obtain ⟨hpoint, habove, hbelow⟩ := bounds_of_infinite hfinite hnan
      rw [hpoint, compareInt, if_neg hnan, habove, hbelow]
      cases x.isNegative <;> rfl

end

end RecordQuery.Binary64
