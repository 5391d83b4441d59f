import RecordQuery.Proofs.Causes
import RecordQuery.Proofs.Equality
import RecordQuery.Proofs.Parallel

/-!
Numbers in another representation: a whole number as a double or as one of 64 bits, zero with either
sign. Values that are equal up to it conform to the same schemas (`Conforms.of_equals`), no operator
and no path tells them apart (`congruence_equals`, `pathCongruence_equals`), so they make no
difference in the records and in the literals of a decision (`agree_of_equals`).
-/

namespace RecordQuery

open Query (Error Kind Step)

/-! ## Conformance -/

/-- Whole are the doubles that lie where a whole number lies. -/
theorem Binary64.isWhole_iff {x : Binary64} :
    x.isWhole = true ↔ ∃ n, x.point? = some (.ofInt n) := by
  by_cases hfinite : x.isFinite = true
  · rw [isWhole_iff_dvd hfinite, point?_of_isFinite hfinite]
    simp only [Option.some.injEq, Point.ofInt, Point.finite.injEq]
    constructor
    · rintro ⟨n, h⟩
      exact ⟨n, h.trans (Int.mul_comm ..)⟩
    · rintro ⟨n, h⟩
      exact ⟨n, h.trans (Int.mul_comm ..)⟩
  · have hwhole : ¬ x.isWhole = true := by simp [isWhole, hfinite]
    refine iff_of_false hwhole ?_
    rintro ⟨n, h⟩
    rw [point?, if_neg hfinite] at h
    split at h
    · cases h
    · split at h <;> cases h

/-- Of a number a schema sees only where it lies. -/
theorem Schema.Scalar.accepts_of_point? {kind : Scalar} {v : Value} {p : Point}
    (hv : v.point? = some p) :
    kind.accepts v = true ↔ kind = .number ∨ kind = .integer ∧ ∃ n, p = .ofInt n := by
  cases v with
  | integer m =>
    cases hv
    cases kind with
    | integer => simp [accepts]
    | number => simp [accepts, Value.isNumber]
    | string | boolean => simp [accepts]
  | float x =>
    cases kind with
    | integer =>
      rw [accepts, Binary64.isWhole_iff, show x.point? = some p from hv]
      simp
    | number => simp [accepts, Value.isNumber]
    | string | boolean => simp [accepts]
  | null | boolean | string | array | object => cases hv

theorem Schema.Scalar.Takes.of_equals {kind : Scalar} {v w : Value} (hv : kind.Takes v)
    (h : v.equals w = true) : kind.Takes w := by
  cases Value.equals_iff.mp h with
  | null | boolean | string => exact hv
  | array | object => cases hv
  | number hpoint =>
    obtain ⟨p, hp, hq⟩ := hpoint
    rw [← accepts_iff_takes, accepts_of_point? hp] at hv
    rw [← accepts_iff_takes, accepts_of_point? hq]
    exact hv

theorem Schema.Conforms.of_equals {schema : Schema} {v w : Value} (hv : schema.Conforms v)
    (h : v.equals w = true) : schema.Conforms w := by
  induction hv generalizing w with
  | scalar takes => exact .scalar (takes.of_equals h)
  | array _ ih =>
    cases Value.equals_iff.mp h with
    | array items =>
      refine .array fun w hw => ?_
      obtain ⟨v, hv, hvw⟩ := exists_of_mem_right items w hw
      exact ih v hv hvw
    | number hpoint =>
      obtain ⟨p, hp, _⟩ := hpoint
      cases hp
  | object present _ ih =>
    cases Value.equals_iff.mp h with
    | object fields =>
      refine .object (fun name hname => ?_) (fun p hp w hw => ?_)
      · rw [← Value.isSome_eq_of_rel (fields name)]
        exact present name hname
      · obtain ⟨v, hv, h⟩ := Value.exists_of_rel_right (fields p.1) hw
        exact ih p hp v hv h
    | number hpoint =>
      obtain ⟨p, hp, _⟩ := hpoint
      cases hp

theorem Schema.structural_iff_of_equals (schema : Schema) {v w : Value}
    (h : v.equals w = true) : structural v schema = .ok () ↔ structural w schema = .ok () := by
  rw [structural_eq_ok_iff, structural_eq_ok_iff]
  constructor
  · intro hv
    exact hv.of_equals h
  · intro hw
    exact hw.of_equals (Value.equals_symm h)

/-! ## Operators -/

section

variable {v v' w w' : Value} {op : BinaryOp}

theorem Query.Kind.ofValue_of_equals (h : v.equals w = true) : ofValue v = ofValue w := by
  cases Value.equals_iff.mp h with
  | null | boolean | string | array | object => rfl
  | number hpoint =>
    obtain ⟨p, hp, hq⟩ := hpoint
    have hv : ofValue v = .numeric := ofValue_eq_numeric_iff.mpr ⟨_, hp⟩
    have hw : ofValue w = .numeric := ofValue_eq_numeric_iff.mpr ⟨_, hq⟩
    rw [hv, hw]

theorem Value.eq_null_iff_of_equals (h : v.equals w = true) : v = .null ↔ w = .null := by
  rw [← Kind.ofValue_eq_null_iff, ← Kind.ofValue_eq_null_iff, Kind.ofValue_of_equals h]

theorem Value.eq_boolean_iff {b : Bool} : v = .boolean b ↔ v.boolean? = some b := by
  cases v <;> simp [boolean?]

theorem Value.eq_boolean_iff_of_equals {b : Bool} (h : v.equals w = true) :
    v = .boolean b ↔ w = .boolean b := by
  rw [eq_boolean_iff, eq_boolean_iff, boolean?_of_equals h]

theorem Value.isLogical_iff_of_equals (h : v.equals w = true) : v.IsLogical ↔ w.IsLogical := by
  rw [← Kind.isLogical_ofValue_iff, ← Kind.isLogical_ofValue_iff, Kind.ofValue_of_equals h]

theorem BinaryOp.relates_iff_of_equals (hv : v.equals v' = true) (hw : w.equals w' = true) :
    op.Relates v w ↔ op.Relates v' w' := by
  cases op with
  | and =>
    simp only [Relates, Value.eq_boolean_iff_of_equals hv, Value.eq_boolean_iff_of_equals hw]
  | or =>
    simp only [Relates, Value.eq_boolean_iff_of_equals hv, Value.eq_boolean_iff_of_equals hw,
      Value.isLogical_iff_of_equals hv, Value.isLogical_iff_of_equals hw]
  | compare c =>
    cases c with
    | eq => simp only [Relates, Value.equals_congr hv hw]
    | lt | le | gt | ge =>
      simp only [Relates, ne_eq, Value.eq_null_iff_of_equals hv, Value.eq_null_iff_of_equals hw,
        Value.compare_congr hv hw]
  | contains =>
    simp only [Relates, ne_eq, Value.eq_null_iff_of_equals hv, Value.eq_null_iff_of_equals hw,
      Value.contains_congr hv hw]

end

/-- Operators run in parallel on pairs of the same kinds that they relate alike. -/
theorem BinaryOp.parallel_apply {op : BinaryOp} {v v' w w' : Value}
    (hv : Kind.ofValue v = Kind.ofValue v') (hw : Kind.ofValue w = Kind.ofValue w')
    (h : op.Relates v w ↔ op.Relates v' w') :
    Parallel Error.SameVariant (· = ·) (op.apply v w) (op.apply v' w') := by
  cases happly : op.apply v w with
  | ok found =>
    have hadmits := exists_apply_eq_ok_iff.mp ⟨found, happly⟩
    rw [hv, hw] at hadmits
    obtain ⟨found', happly'⟩ := exists_apply_eq_ok_iff.mpr hadmits
    rw [happly']
    refine .ok ?_
    rw [← apply_eq_true_iff, ← apply_eq_true_iff, happly, happly'] at h
    have hfound : found = true ↔ found' = true := by simpa using h
    exact Bool.eq_iff_iff.mpr hfound
  | error e =>
    have hadmits : ¬ op.Admits (Kind.ofValue v') (Kind.ofValue w') := by
      intro hadmits
      rw [← hv, ← hw] at hadmits
      obtain ⟨found, hfound⟩ := exists_apply_eq_ok_iff.mpr hadmits
      rw [happly] at hfound
      cases hfound
    obtain ⟨cause, rfl⟩ := apply_eq_error happly
    obtain ⟨cause', happly'⟩ := apply_of_not_admits hadmits
    rw [happly']
    exact .error rfl

theorem congruence_equals : Query.Congruence Error.SameVariant fun v w => v.equals w = true where
  error _ := rfl
  ofBoolean b := beq_self_eq_true b
  boolean? _ _ h := Value.boolean?_of_equals h
  apply _ _ hv _ _ hw := BinaryOp.parallel_apply (Kind.ofValue_of_equals hv)
    (Kind.ofValue_of_equals hw) (BinaryOp.relates_iff_of_equals hv hw)

/-! ## Paths -/

section

variable {walked : List Step} {name : String} {v w : Value} {p : Point}

theorem Query.field_of_point? (hv : v.point? = some p) :
    field walked name v = .error (.invalidData (.notObject walked v.kind)) := by
  cases v with
  | integer | float => rfl
  | null | boolean | string | array | object => cases hv

theorem Query.elements_of_point? (hv : v.point? = some p) :
    elements walked v = .error (.invalidData (.notArray walked v.kind)) := by
  cases v with
  | integer | float => rfl
  | null | boolean | string | array | object => cases hv

theorem Query.parallel_field (h : v.equals w = true) :
    Parallel Error.SameVariant (fun v w => v.equals w = true) (field walked name v)
      (field walked name w) := by
  cases Value.equals_iff.mp h with
  | null => exact .ok rfl
  | boolean | string | array => exact .error rfl
  | @object vs ws fields =>
    refine .ok ?_
    cases hv : vs.get? name with
    | none =>
      rw [Value.eq_none_of_rel (fields name) hv]
      rfl
    | some v =>
      obtain ⟨w, hw, h⟩ := Value.exists_of_rel_left (fields name) hv
      rw [hw]
      exact h
  | number hpoint =>
    obtain ⟨p, hp, hq⟩ := hpoint
    rw [field_of_point? hp, field_of_point? hq]
    exact .error rfl

theorem Query.parallel_elements (h : v.equals w = true) :
    Parallel Error.SameVariant (List.Forall₂ fun v w => v.equals w = true) (elements walked v)
      (elements walked w) := by
  cases Value.equals_iff.mp h with
  | null => exact .ok .nil
  | array items => exact .ok items
  | boolean | string | object => exact .error rfl
  | number hpoint =>
    obtain ⟨p, hp, hq⟩ := hpoint
    rw [elements_of_point? hp, elements_of_point? hq]
    exact .error rfl

end

theorem Query.pathCongruence_equals :
    PathCongruence Error.SameVariant fun _ v w => v.equals w = true where
  error _ := rfl
  field _ h := parallel_field h
  elements h := parallel_elements h

/-! ## Decisions -/

namespace Query

variable {limits : Limits} {data data' : Value} {schema : Schema} {q q' : Query}

theorem parallel_evaluate (hdata : data.equals data' = true)
    (hq : q.Resembles (fun v w => v.equals w = true) q') :
    Parallel Error.SameVariant (Outcome.Pointwise fun v w => v.equals w = true)
      (q.evaluate limits data schema) (q'.evaluate limits data' schema) := by
  refine congruence_equals.evaluate hq fun path _ => ?_
  refine (pathCongruence_equals.resolvePath hdata).mono ?_
  rintro o o' ⟨_, _, ho⟩
  exact ho

/-- **The representation of numbers.** Records that are equal but for the representation of numbers
are both accepted or both rejected. Queries that differ in the representation of numbers only decide
them alike: the same boolean, or errors of one variant. -/
theorem agree_of_equals (limits : Limits) (schema : Schema) (hdata : data.equals data' = true)
    (hq : q.Resembles (fun v w => v.equals w = true) q') :
    (Schema.structural data schema = .ok () ↔ Schema.structural data' schema = .ok ()) ∧
      Agree (q.holds Schema.structural limits data schema)
        (q'.holds Schema.structural limits data' schema) := by
  have haccept := Schema.structural_iff_of_equals schema hdata
  refine ⟨haccept, ?_⟩
  cases hcheck : Schema.structural data schema with
  | ok _ =>
    rw [holds_of_accepted hcheck, holds_of_accepted (haccept.mp hcheck)]
    refine agree_of_parallel ((parallel_evaluate hdata hq).map fun o o' ho => ?_)
    exact ho.anyTrue congruence_equals.boolean?
  | error r =>
    cases hcheck' : Schema.structural data' schema with
    | ok _ =>
      rw [haccept.mpr hcheck'] at hcheck
      cases hcheck
    | error r' =>
      rw [holds_eq_error_iff.mpr (evaluateChecked_of_rejected hcheck),
        holds_eq_error_iff.mpr (evaluateChecked_of_rejected hcheck')]
      rfl

/-- A double among the literals and one among the items leave the decision as it is. -/
theorem agree_of_equals_sizes :
    let one : Value := .integer 1
    let double : Value := .float ⟨0x3ff0000000000000⟩
    let data (v : Value) : Value := .object (.ofList [("sizes", .array [.integer 2, v])])
    let schema : Schema := .object [("sizes", .array (.scalar .integer))] []
    let q (v : Value) : Query := .binary .contains (.resolve [.property "sizes"]) (.literal v)
    (data one).equals (data double) = true ∧
      (q double).Resembles (fun v w => v.equals w = true) (q one) ∧
      Schema.structural (data one) schema = .ok () ∧
      Schema.structural (data double) schema = .ok () ∧
      Agree ((q double).holds Schema.structural {} (data one) schema)
        ((q one).holds Schema.structural {} (data double) schema) := by
  intro one double data schema q
  have hdata : (data one).equals (data double) = true := by decide +kernel
  have hone : double.equals one = true := by decide +kernel
  have hq : (q double).Resembles (fun v w => v.equals w = true) (q one) :=
    .binary .contains (.resolve _) (.literal hone)
  have haccepted : Schema.structural (data one) schema = .ok () := rfl
  obtain ⟨haccept, hagree⟩ := agree_of_equals {} schema hdata hq
  exact ⟨hdata, hq, haccepted, haccept.mp haccepted, hagree⟩

end Query

end RecordQuery
