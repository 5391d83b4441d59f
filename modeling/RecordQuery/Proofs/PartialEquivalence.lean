import RecordQuery.Proofs.Equality
import RecordQuery.Proofs.Kinds

/-!
Equality as a partial equivalence. A value equals itself when it holds no NaN (`equals_self_iff`).
Tests of numbers that agree where it matters make comparisons of values that agree (`equalBy_imp`),
so values of the same form are equal, and equal values are of the same form unless a whole number
stands opposite a double (`equals_partial_equivalence`).
-/

namespace RecordQuery.Value

/-- Somewhere in two values a whole number stands opposite a double: each at the same position in
its value. -/
inductive Opposed : Value → Value → Prop
  | integer_float (n : Int64) (x : Binary64) : Opposed (.integer n) (.float x)
  | float_integer (x : Binary64) (n : Int64) : Opposed (.float x) (.integer n)
  | within {v w v' w' : Value} (beside : Beside v w v' w') (opposed : Opposed v w) : Opposed v' w'

variable {v w : Value}

/-! ## Values beside themselves -/

theorem equals_self_of_below {u : Value} (h : v.equals v = true) (hu : u.Below v) :
    u.equals u = true := by
  cases hu with
  | item hmem =>
    obtain ⟨_, hws, items⟩ := exists_of_equals_array h
    cases hws
    exact List.forall₂_same.mp items u hmem
  | field hget =>
    obtain ⟨_, hws, fields⟩ := exists_of_equals_object h
    cases hws
    obtain ⟨u', hu', hequal⟩ := exists_of_rel_left (fields _) hget
    cases hget.symm.trans hu'
    exact hequal

theorem equals_self_of_forall_below (hfloat : ∀ x, v = .float x → x.isNaN = false)
    (hbelow : ∀ u : Value, u.Below v → u.equals u = true) : v.equals v = true := by
  refine equals_iff.mpr ?_
  cases v with
  | null => exact .null
  | boolean b => exact .boolean b
  | string s => exact .string s
  | integer n => exact .number ⟨.ofInt n.toInt, rfl, rfl⟩
  | float x =>
    have hpoint : x.point? ≠ none := by
      rw [ne_eq, Binary64.point?_eq_none_iff, hfloat x rfl]
      exact Bool.false_ne_true
    obtain ⟨p, hp⟩ := Option.ne_none_iff_exists'.mp hpoint
    exact .number ⟨p, hp, hp⟩
  | array items => exact .array (List.forall₂_same.mpr fun u hu => hbelow u (.item hu))
  | object fields =>
    refine .object fun name => ?_
    cases hu : fields.get? name with
    | none => exact .none
    | some u => exact .some (hbelow u (.field hu))

/-- A value equals itself when there is no NaN in it. -/
theorem equals_self_iff : v.equals v = true ↔ v.nanFree = true := by
  induction v using below_induction with
  | step v ih =>
    rw [nanFree, allFloats_iff]
    constructor
    · intro h
      refine ⟨?_, fun u hu => (ih u hu).mp (equals_self_of_below h hu)⟩
      rintro x rfl
      cases equals_iff.mp h with
      | number hpoint =>
        obtain ⟨p, hp, -⟩ := hpoint
        have hnan : ¬ x.isNaN = true := by
          rw [← Binary64.point?_eq_none_iff]
          intro hnone
          cases hnone.symm.trans hp
        simpa using hnan
    · rintro ⟨hfloat, hbelow⟩
      refine equals_self_of_forall_below ?_ fun u hu => (ih u hu).mpr (hbelow u hu)
      intro x hx
      simpa using hfloat x hx

/-! ## Comparisons with related tests of numbers -/

/-- A relation that passes from two values to those beside one another in them carries a comparison
over to another test of numbers, when it does so for numbers. -/
theorem equalBy_imp {numbers numbers' : Value → Value → Bool} {P : Value → Value → Prop}
    (hbeside : ∀ {v w v' w'}, Beside v w v' w' → P v' w' → P v w)
    (hnumbers : ∀ v w, P v w → numbers v w = true → numbers' v w = true)
    (hP : P v w) (h : equalBy numbers v w = true) : equalBy numbers' v w = true := by
  -- `P` goes down with the induction; the test of numbers is only asked at the leaves
  induction v using below_induction generalizing w with
  | step v ih =>
    refine equalBy_iff.mpr ((equalBy_iff.mp h).imp ?_ ?_)
    · rw [Bool.and_eq_true, Bool.and_eq_true (v.isNumber && w.isNumber)]
      exact And.imp_right (hnumbers v w hP)
    · intro v' w' hb
      exact ih v' hb.below.1 (hbeside hb hP)

/-- Values of the same form are equal. -/
theorem equals_of_same (h : v.same w = true) : v.equals w = true := by
  refine equalBy_imp (P := fun _ _ => True) (fun _ _ => trivial) ?_ trivial h
  intro v w _ h
  split at h
  · rw [eq_of_beq h]
    simp [compareNumbers]
  · exact h
  · cases h

/-- Equal values are of the same form, but for whole numbers opposite doubles. -/
theorem same_of_equals (hopposed : ¬ Opposed v w) (h : v.equals w = true) : v.same w = true := by
  refine equalBy_imp (P := fun v w => ¬ Opposed v w) ?_ ?_ hopposed h
  · exact fun hb hopposed h => hopposed (.within hb h)
  · intro v w hopposed h
    cases v with
    | integer m =>
      cases w with
      | integer n =>
        have hcompare : compare m n = .eq := by simpa [compareNumbers] using h
        rw [Binary64.compare_toInt, Int.compare_eq_eq, Int64.toInt_inj] at hcompare
        exact beq_iff_eq.mpr hcompare
      | float x => exact absurd (.integer_float m x) hopposed
      | null | boolean | string | array | object => cases h
    | float x =>
      cases w with
      | integer n => exact absurd (.float_integer x n) hopposed
      | float y => exact h
      | null | boolean | string | array | object => cases h
    | null | boolean | string | array | object => cases h

/-- **Equality is a partial equivalence**: symmetric and transitive, and reflexive on the values
without NaN. Values of the same form are equal, and it is the same to be equal and to be of the
same form where no whole number stands opposite a double. -/
theorem equals_partial_equivalence :
    (∀ v w : Value, v.equals w = w.equals v) ∧
      (∀ u v w : Value, u.equals v = true → v.equals w = true → u.equals w = true) ∧
      (∀ v : Value, v.equals v = true ↔ v.nanFree = true) ∧
      (∀ v w : Value, v.same w = true → v.equals w = true) ∧
      ∀ v w : Value, ¬ Opposed v w → v.equals w = v.same w := by
  refine ⟨?_, ?_, ?_, ?_, ?_⟩
  · exact fun v w => Bool.eq_iff_iff.mpr ⟨equals_symm, equals_symm⟩
  · exact fun u v w => equals_trans
  · exact fun v => equals_self_iff
  · exact fun v w => equals_of_same
  · exact fun v w hopposed => Bool.eq_iff_iff.mpr ⟨same_of_equals hopposed, equals_of_same⟩

/-- Arrays of ones of both forms are equal by transitivity, and on two zeros of opposite sign
equality is sameness of form. -/
theorem equals_partial_equivalence_ones :
    ((array [.integer 1, .float ⟨0x3ff0000000000000⟩]).equals
        (array [.float ⟨0x3ff0000000000000⟩, .integer 1]) = true ∧
      (array [.float ⟨0x3ff0000000000000⟩, .integer 1]).equals
        (array [.float ⟨0x3ff0000000000000⟩, .float ⟨0x3ff0000000000000⟩]) = true ∧
      (array [.integer 1, .float ⟨0x3ff0000000000000⟩]).equals
        (array [.float ⟨0x3ff0000000000000⟩, .float ⟨0x3ff0000000000000⟩]) = true) ∧
      (float ⟨0⟩).equals (float ⟨0x8000000000000000⟩) =
        (float ⟨0⟩).same (float ⟨0x8000000000000000⟩) := by
  obtain ⟨-, htrans, -, -, hsame⟩ := equals_partial_equivalence
  have hleft : (array [.integer 1, .float ⟨0x3ff0000000000000⟩]).equals
      (array [.float ⟨0x3ff0000000000000⟩, .integer 1]) = true := by decide +kernel
  have hright : (array [.float ⟨0x3ff0000000000000⟩, .integer 1]).equals
      (array [.float ⟨0x3ff0000000000000⟩, .float ⟨0x3ff0000000000000⟩]) = true := by
    decide +kernel
  refine ⟨⟨hleft, hright, htrans _ _ _ hleft hright⟩, hsame _ _ ?_⟩
  intro hopposed
  cases hopposed with
  | within beside => cases beside

end RecordQuery.Value
