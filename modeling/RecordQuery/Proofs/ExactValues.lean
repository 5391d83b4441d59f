import Mathlib.Data.Rat.Floor
import Mathlib.Order.Compare
import Mathlib.Order.WithBot
import Mathlib.Tactic.Ring
import RecordQuery.Proofs.Points

/-!
Exact values of numbers. The three fields of a double denote a dyadic rational, an infinity or NaN,
and a whole number denotes itself. Numbers compare as what they denote, NaN with nothing, and the
floor at which a double is split to compare it with a whole number is neither rounded nor out of
range (`compare_eq_cmp`).
-/

namespace RecordQuery

/-- Rationals with both infinities. -/
abbrev Extended := WithBot (WithTop ℚ)

namespace Binary64

/-- What the fields of a finite double denote: one and the fraction, scaled by a power of two; the
least exponent field means that there is no leading one. -/
def value (x : Binary64) : ℚ :=
  (if x.isNegative then -1 else 1) *
    if x.biasedExponent = 0 then (2 : ℚ) ^ (-1022 : ℤ) * (x.fraction / 2 ^ 52)
    else (2 : ℚ) ^ ((x.biasedExponent : ℤ) - 1023) * (1 + x.fraction / 2 ^ 52)

/-- What a double denotes; NaN denotes nothing. -/
def extended? (x : Binary64) : Option Extended :=
  if x.isNaN then none
  else if x.isFinite then some (x.value : WithTop ℚ)
  else some (if x.isNegative then ⊥ else ⊤)

/-- A double that is split at its floor when a whole number is compared with it: not NaN, and past
neither end of the whole numbers of 64 bits. -/
def IsSplit (x : Binary64) : Prop :=
  x.isNaN = false ∧ (int64Bound false).le x = false ∧ x.lt (int64Bound true) = false

end Binary64

namespace Value

/-- What a number denotes. -/
def extended? : Value → Option Extended
  | .integer n => some ((n.toInt : ℚ) : WithTop ℚ)
  | .float x => x.extended?
  | _ => none

def IsNaN (v : Value) : Prop := ∃ x, v = .float x ∧ x.isNaN = true

end Value

/-! ## Units -/

namespace Binary64

theorem cast_unitsPerOne : (unitsPerOne : ℚ) = 2 ^ (1074 : ℤ) := by
  have h (n : ℕ) : ((1 <<< n : ℕ) : ℚ) = 2 ^ (n : ℤ) := by
    rw [Nat.one_shiftLeft, Nat.cast_pow, Nat.cast_ofNat, zpow_natCast]
  exact h 1074

theorem cast_unitsPerOne_pos : (0 : ℚ) < unitsPerOne := Nat.cast_pos.mpr unitsPerOne_pos

theorem cast_mul_unitsPerOne_div (n : ℤ) :
    ((n * unitsPerOne : ℤ) : ℚ) / unitsPerOne = n := by
  rw [Int.cast_mul, Int.cast_natCast, mul_div_cancel_right₀ _ cast_unitsPerOne_pos.ne']

theorem cast_magnitude (x : Binary64) :
    (x.magnitude : ℚ) / unitsPerOne = x.significand * (2 : ℚ) ^ ((x.scale : ℤ) - 1074) := by
  have htwo : (2 : ℚ) ≠ 0 := two_ne_zero
  rw [magnitude, Nat.shiftLeft_eq, Nat.cast_mul, Nat.cast_pow, Nat.cast_ofNat, cast_unitsPerOne,
    zpow_sub₀ htwo, zpow_natCast, mul_div_assoc]

/-- A finite double denotes its number of units. -/
theorem value_eq (x : Binary64) : x.value = x.units / unitsPerOne := by
  have hmagnitude : (if x.biasedExponent = 0 then (2 : ℚ) ^ (-1022 : ℤ) * (x.fraction / 2 ^ 52)
      else (2 : ℚ) ^ ((x.biasedExponent : ℤ) - 1023) * (1 + x.fraction / 2 ^ 52)) =
        (x.magnitude : ℚ) / unitsPerOne := by
    have htwo : (2 : ℚ) ≠ 0 := two_ne_zero
    rw [cast_magnitude, significand, scale]
    split
    · -- the least exponent field scales as the next one does
      rename_i h
      have hexponent : (((x.biasedExponent - 1 : Nat) : ℤ) - 1074) = -1022 - (52 : ℕ) := by omega
      rw [hexponent, zpow_sub₀ htwo, zpow_natCast]
      ring
    · rename_i h
      have hexponent : (((x.biasedExponent - 1 : Nat) : ℤ) - 1074) =
          (x.biasedExponent : ℤ) - 1023 - (52 : ℕ) := by omega
      rw [hexponent, zpow_sub₀ htwo (x.biasedExponent - 1023 : ℤ), zpow_natCast, Nat.cast_add]
      generalize (2 : ℚ) ^ ((x.biasedExponent : ℤ) - 1023) = power
      push_cast
      ring
  rw [value, hmagnitude, units]
  split
  · rw [Int.cast_neg, Int.cast_natCast]
    ring
  · rw [Int.cast_natCast]
    ring

/-! ## The line -/

end Binary64

/-- The place of a point among the rationals and infinities. -/
def Point.extended : Point → Extended
  | .negInfinity => ⊥
  | .finite units => ((units / Binary64.unitsPerOne : ℚ) : WithTop ℚ)
  | .posInfinity => ⊤

/-- Points lie in the order of what they stand for. -/
theorem Point.cmp_extended (p q : Point) : cmp p.extended q.extended = p.compare q := by
  have hpos := Binary64.cast_unitsPerOne_pos
  cases p with
  | negInfinity =>
    cases q with
    | negInfinity => exact cmp_self_eq_eq _
    | finite n => exact (cmp_eq_lt_iff _ _).mpr (WithBot.bot_lt_coe _)
    | posInfinity => exact (cmp_eq_lt_iff _ _).mpr (WithBot.bot_lt_coe _)
  | finite m =>
    cases q with
    | negInfinity => exact (cmp_eq_gt_iff _ _).mpr (WithBot.bot_lt_coe _)
    | finite n =>
      have hmono : StrictMono fun u : ℤ => (Point.finite u).extended := by
        intro a b h
        refine WithBot.coe_lt_coe.mpr (WithTop.coe_lt_coe.mpr ?_)
        exact div_lt_div_of_pos_right (Int.cast_lt.mpr h) hpos
      exact (hmono.cmp_map_eq m n).trans (cmp_eq_compare m n)
    | posInfinity => exact (cmp_eq_lt_iff _ _).mpr (WithBot.coe_lt_coe.mpr (WithTop.coe_lt_top _))
  | posInfinity =>
    cases q with
    | negInfinity => exact (cmp_eq_gt_iff _ _).mpr (WithBot.bot_lt_coe _)
    | finite n => exact (cmp_eq_gt_iff _ _).mpr (WithBot.coe_lt_coe.mpr (WithTop.coe_lt_top _))
    | posInfinity => exact cmp_self_eq_eq _

theorem Binary64.extended?_eq (x : Binary64) : x.extended? = x.point?.map Point.extended := by
  by_cases hnan : x.isNaN = true
  · rw [extended?, if_pos hnan, point?_eq_none_iff.mpr hnan]
    rfl
  · rw [extended?, if_neg hnan, point?, value_eq]
    by_cases hfinite : x.isFinite = true
    · rw [if_pos hfinite, if_pos hfinite]
      rfl
    · rw [if_neg hfinite, if_neg hfinite, if_neg hnan]
      cases x.isNegative <;> rfl

namespace Value

variable {v w : Value}

theorem extended?_eq (v : Value) : v.extended? = v.point?.map Point.extended := by
  cases v with
  | integer n =>
    rw [extended?, point?, Option.map_some, Point.ofInt, Point.extended,
      Binary64.cast_mul_unitsPerOne_div]
  | float x => exact x.extended?_eq
  | null | boolean | string | array | object => rfl

theorem extended?_eq_none_iff (h : v.isNumber = true) : v.extended? = none ↔ v.IsNaN := by
  rw [extended?_eq, Option.map_eq_none_iff, IsNaN]
  cases v with
  | integer n => simp [point?]
  | float x => simp [point?, Binary64.point?_eq_none_iff]
  | null | boolean | string | array | object => cases h

/-- Numbers compare as what they denote. -/
theorem compareNumbers_eq_cmp (v w : Value) :
    v.compareNumbers w = v.extended?.bind fun p => w.extended?.map (cmp p) := by
  rw [compareNumbers_eq, extended?_eq, extended?_eq]
  cases v.point? with
  | none => rfl
  | some p =>
    cases w.point? with
    | none => rfl
    | some q => exact congrArg some (Point.cmp_extended p q).symm

theorem compare_of_isNumber (hv : v.isNumber = true) : v.compare w = v.compareNumbers w := by
  cases v with
  | integer | float => rfl
  | null | boolean | string | array | object => cases hv

end Value

/-! ## The split at the floor -/

namespace Binary64

variable {x : Binary64}

theorem floor_value (x : Binary64) : ⌊x.value⌋ = x.units / unitsPerOne := by
  rw [value_eq]
  exact Rat.floor_intCast_div_natCast x.units unitsPerOne

/-- The whole doubles are those that denote whole numbers. -/
theorem isWhole_iff_exists_value : x.isWhole = true ↔ x.isFinite = true ∧ ∃ n : ℤ, x.value = n := by
  by_cases hfinite : x.isFinite = true
  · rw [isWhole_iff_dvd hfinite, and_iff_right hfinite]
    refine exists_congr fun n => ?_
    rw [value_eq, div_eq_iff cast_unitsPerOne_pos.ne', Int.mul_comm]
    norm_cast
  · exact iff_of_false (by simp [isWhole, hfinite]) fun h => hfinite h.1

theorem extended?_of_isFinite (h : x.isFinite = true) :
    x.extended? = some (x.value : WithTop ℚ) := by
  rw [extended?_eq, point?_of_isFinite h, value_eq]
  rfl

/-- What gets past the guards is a finite double between the two bounds. -/
theorem IsSplit.bounds (h : x.IsSplit) : x.isFinite = true ∧
    -2 ^ 63 * unitsPerOne ≤ x.units ∧ x.units < 2 ^ 63 * unitsPerOne := by
  obtain ⟨hnan, hbelow, habove⟩ := h
  by_cases hfinite : x.isFinite = true
  · have hhigh : ¬ 2 ^ 63 * unitsPerOne ≤ x.units := by
      rw [← int64Bound_le_iff hfinite, hbelow]
      exact Bool.false_ne_true
    have hlow : ¬ x.units < -2 ^ 63 * unitsPerOne := by
      rw [← lt_int64Bound_iff hfinite, habove]
      exact Bool.false_ne_true
    exact ⟨hfinite, Int.not_lt.mp hlow, Int.not_le.mp hhigh⟩
  · -- an infinity lies past one of the two bounds
    have hbounds := (bounds_of_infinite hfinite (by simp [hnan])).2
    rw [hbelow, habove] at hbounds
    cases h : x.isNegative <;> simp [h] at hbounds

theorem IsSplit.value_mem (h : x.IsSplit) : -2 ^ 63 ≤ x.value ∧ x.value < 2 ^ 63 := by
  obtain ⟨-, hlow, hhigh⟩ := h.bounds
  have hpos := cast_unitsPerOne_pos
  rw [value_eq, le_div_iff₀ hpos, div_lt_iff₀ hpos]
  exact ⟨by exact_mod_cast hlow, by exact_mod_cast hhigh⟩

/-- The split neither rounds nor ends at a bound. -/
theorem IsSplit.floor_eq (h : x.IsSplit) :
    x.floor.extended? = some ((⌊x.value⌋ : ℚ) : WithTop ℚ) ∧
      x.floor.toInt64.toInt = ⌊x.value⌋ := by
  obtain ⟨hfinite, hlow, hhigh⟩ := h.bounds
  obtain ⟨hfloor, hunits⟩ := units_floor hfinite
  have hvalue : x.floor.value = ⌊x.value⌋ := by
    rw [value_eq, hunits, cast_mul_unitsPerOne_div, floor_value]
  rw [extended?_of_isFinite hfloor, hvalue, floor_value]
  exact ⟨rfl, toInt_toInt64_floor hfinite hlow hhigh⟩

end Binary64

/-! ## The order of numbers -/

namespace Value

variable {v w : Value}

theorem extended?_of_isNumber (hv : v.isNumber = true) (hnan : ¬ v.IsNaN) :
    ∃ p, v.extended? = some p :=
  Option.ne_none_iff_exists'.mp (mt (extended?_eq_none_iff hv).mp hnan)

/-- **Numbers compare by their exact values**: NaN with nothing, and all others in the order of the
rationals and infinities that they denote. A double that is split to compare it with a whole number
denotes a rational between `-2 ^ 63` and `2 ^ 63`. Its floor denotes the floor of that rational, and
so does the whole number to which the floor is cast. -/
theorem compare_eq_cmp :
    (∀ v w : Value, v.isNumber = true → w.isNumber = true →
      (v.compare w = none ↔ v.IsNaN ∨ w.IsNaN) ∧
        (¬ (v.IsNaN ∨ w.IsNaN) → ∃ p q, v.extended? = some p ∧ w.extended? = some q ∧
          v.compare w = some (cmp p q))) ∧
      ∀ x : Binary64, x.IsSplit → ∃ q : ℚ, x.extended? = some (q : WithTop ℚ) ∧
        (-2 ^ 63 ≤ q ∧ q < 2 ^ 63) ∧
        x.floor.extended? = some ((⌊q⌋ : ℚ) : WithTop ℚ) ∧ x.floor.toInt64.toInt = ⌊q⌋ := by
  constructor
  · intro v w hv hw
    rw [compare_of_isNumber hv, compareNumbers_eq_cmp]
    constructor
    · rw [← extended?_eq_none_iff hv, ← extended?_eq_none_iff hw]
      cases v.extended? with
      | none => exact iff_of_true rfl (Or.inl rfl)
      | some p =>
        rw [Option.bind_some, Option.map_eq_none_iff]
        simp
    · intro hnan
      obtain ⟨hvnan, hwnan⟩ := not_or.mp hnan
      obtain ⟨p, hp⟩ := extended?_of_isNumber hv hvnan
      obtain ⟨q, hq⟩ := extended?_of_isNumber hw hwnan
      refine ⟨p, q, hp, hq, ?_⟩
      rw [hp, hq, Option.bind_some, Option.map_some]
  · intro x hx
    exact ⟨x.value, Binary64.extended?_of_isFinite hx.bounds.1, hx.value_mem, hx.floor_eq⟩

/-- The first whole number that no double equals lies above its neighbour `2 ^ 53`, and minus one
half is split at minus one. -/
theorem compare_eq_cmp_odd :
    (∃ p q, (Value.integer 9007199254740993).extended? = some p ∧
      (Value.float ⟨0x4340000000000000⟩).extended? = some q ∧
      (Value.integer 9007199254740993).compare (.float ⟨0x4340000000000000⟩) = some (cmp p q)) ∧
      ∃ q : ℚ, (Binary64.mk 0xbfe0000000000000).extended? = some (q : WithTop ℚ) ∧
        (-2 ^ 63 ≤ q ∧ q < 2 ^ 63) ∧
        (Binary64.mk 0xbfe0000000000000).floor.extended? = some ((⌊q⌋ : ℚ) : WithTop ℚ) ∧
        (Binary64.mk 0xbfe0000000000000).floor.toInt64.toInt = ⌊q⌋ := by
  have hnan : ¬ ((Value.integer 9007199254740993).IsNaN ∨
      (Value.float ⟨0x4340000000000000⟩).IsNaN) := by
    rintro (⟨x, hx, -⟩ | ⟨x, hx, hnan⟩)
    · cases hx
    · cases hx
      exact absurd hnan (by decide +kernel)
  refine ⟨(compare_eq_cmp.1 _ _ rfl rfl).2 hnan, compare_eq_cmp.2 _ ⟨?_, ?_, ?_⟩⟩
  · decide +kernel
  · decide +kernel
  · decide +kernel

end Value

end RecordQuery
