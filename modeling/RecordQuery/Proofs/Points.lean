import RecordQuery.Proofs.WholePart
import RecordQuery.Value.Order

/-!
Numbers as points of the line. Numbers compare as the points where they lie, in all four
combinations of whole numbers and doubles (`compareNumbers_eq`), and they are equal when they lie at
one point (`compareNumbers_eq_iff`).
-/

namespace RecordQuery

namespace Point

variable {p q : Point}

theorem swap_compare (p q : Point) : (p.compare q).swap = q.compare p := by
  cases p <;> cases q
  case finite.finite m n =>
    rcases Int.lt_trichotomy m n with h | rfl | h
    · simp [Point.compare, Int.compare_eq_lt.mpr h, Int.compare_eq_gt.mpr h]
    · simp [Point.compare]
    · simp [Point.compare, Int.compare_eq_lt.mpr h, Int.compare_eq_gt.mpr h]
  all_goals rfl

theorem compare_eq_iff : p.compare q = .eq ↔ p = q := by
  cases p <;> cases q <;> simp [Point.compare]

end Point

namespace Value

/-- Where a number lies on the line. NaN lies nowhere, nor does anything that is no number. -/
def point? : Value → Option Point
  | .integer n => some (.ofInt n.toInt)
  | .float x => x.point?
  | _ => none

variable {v w : Value}

/-- The order of two numbers is that of their points. -/
theorem compareNumbers_eq (v w : Value) :
    v.compareNumbers w = v.point?.bind fun p => w.point?.map p.compare := by
  cases v with
  | integer m =>
    cases w with
    | integer n =>
      rw [compareNumbers, Binary64.compare_toInt, ← Binary64.compare_ofInt]
      rfl
    | float x => exact Binary64.compareInt_eq m x
    | null | boolean | string | array | object => rfl
  | float x =>
    cases w with
    | integer n =>
      rw [compareNumbers, Binary64.compareInt_eq, Option.map_map]
      have hswap : Ordering.swap ∘ (Point.ofInt n.toInt).compare =
          fun p => p.compare (.ofInt n.toInt) := funext fun p => Point.swap_compare _ p
      rw [hswap]
      cases h : x.point? <;> simp [point?, h]
    | float y =>
      rw [compareNumbers, Binary64.compare?]
      cases h : x.point? with
      | none => simp [point?, h]
      | some p => cases h' : y.point? <;> simp [point?, h, h']
    | null | boolean | string | array | object => simp [compareNumbers, point?]
  | null | boolean | string | array | object => rfl

theorem compareNumbers_eq_iff : v.compareNumbers w = some .eq ↔
    ∃ p, v.point? = some p ∧ w.point? = some p := by
  rw [compareNumbers_eq]
  cases v.point? with
  | none => simp
  | some p =>
    cases w.point? with
    | none => simp
    | some q =>
      simp only [Option.bind_some, Option.map_some, Option.some.injEq, exists_eq_left',
        Point.compare_eq_iff]
      exact eq_comm

end Value

end RecordQuery
