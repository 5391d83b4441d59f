import RecordQuery.Proofs.Meaning
import RecordQuery.Proofs.Points
import RecordQuery.Proofs.Route
import RecordQuery.Proofs.Values

/-!
Kinds of operands. Whether an operator fails on a pair of values depends on their kinds alone
(`exists_apply_eq_ok_iff`), and when it fails the types mismatch (`apply_eq_error`). Values that fit
a schema node are of its kind, next to nulls and NaN (`Fits.covers`), and an operator that admits
two kinds admits what stands there in their place, but for NaN in orderings (`Admits.of_covers`).
-/

namespace RecordQuery

namespace Query

/-- What operators tell apart. Integers and doubles are of one kind, NaN is not of it. -/
inductive Kind where
  | null
  | boolean
  | numeric
  | nan
  | string
  | array
  | object
  deriving DecidableEq

namespace Kind

def ofValue : Value → Kind
  | .null => .null
  | .boolean _ => .boolean
  | .integer _ => .numeric
  | .float x => if x.isNaN then .nan else .numeric
  | .string _ => .string
  | .array _ => .array
  | .object _ => .object

def ofSchema : Schema → Kind
  | .object _ _ => .object
  | .array _ => .array
  | .scalar .string => .string
  | .scalar .number => .numeric
  | .scalar .integer => .numeric
  | .scalar .boolean => .boolean

def IsLogical (k : Kind) : Prop := k = .null ∨ k = .boolean

/-- Kinds whose values are in an order with one another. -/
def IsOrdered (k : Kind) : Prop := k = .numeric ∨ k = .string ∨ k = .boolean

end Kind

end Query

open Query (Kind)

/-- The kinds of operands on which an operator does not fail. -/
def BinaryOp.Admits : BinaryOp → Kind → Kind → Prop
  | .and, a, b => a.IsLogical ∧ b.IsLogical
  | .or, a, b => a.IsLogical ∧ b.IsLogical
  | .compare .eq, _, _ => True
  | .compare _, a, b => a = .null ∨ b = .null ∨ (a = b ∧ a.IsOrdered)
  | .contains, a, b =>
    a = .null ∨ b = .null ∨ a = .array ∨ ((a = .string ∨ a = .object) ∧ b = .string)

/-- What stands where values of one kind are expected: these, null, and NaN among numbers. -/
def Query.Kind.Covers (k : Kind) (v : Value) : Prop :=
  v = .null ∨ ofValue v = k ∨ (k = .numeric ∧ ofValue v = .nan)

/-- No number in a value is NaN, at any depth. -/
def Value.nanFree (v : Value) : Bool := v.allFloats fun x => !x.isNaN

/-! ## Values by their kind -/

namespace Query.Kind

variable {v : Value}

theorem ofValue_float (x : Binary64) :
    ofValue (.float x) = .nan ∧ x.isNaN = true ∨
      ofValue (.float x) = .numeric ∧ x.isNaN = false := by
  by_cases h : x.isNaN = true
  · exact Or.inl ⟨if_pos h, h⟩
  · exact Or.inr ⟨if_neg h, Bool.eq_false_iff.mpr h⟩

@[simp] theorem ofValue_eq_null_iff : ofValue v = .null ↔ v = .null := by
  cases v with
  | float x => rcases ofValue_float x with h | h <;> simp [h]
  | _ => simp [ofValue]

@[simp] theorem ofValue_eq_boolean_iff : ofValue v = .boolean ↔ ∃ b, v = .boolean b := by
  cases v with
  | float x => rcases ofValue_float x with h | h <;> simp [h]
  | _ => simp [ofValue]

@[simp] theorem ofValue_eq_string_iff : ofValue v = .string ↔ ∃ s, v = .string s := by
  cases v with
  | float x => rcases ofValue_float x with h | h <;> simp [h]
  | _ => simp [ofValue]

@[simp] theorem ofValue_eq_array_iff : ofValue v = .array ↔ ∃ items, v = .array items := by
  cases v with
  | float x => rcases ofValue_float x with h | h <;> simp [h]
  | _ => simp [ofValue]

@[simp] theorem ofValue_eq_object_iff : ofValue v = .object ↔ ∃ fields, v = .object fields := by
  cases v with
  | float x => rcases ofValue_float x with h | h <;> simp [h]
  | _ => simp [ofValue]

@[simp] theorem ofValue_eq_nan_iff :
    ofValue v = .nan ↔ ∃ x, v = .float x ∧ x.isNaN = true := by
  cases v with
  | float x => rcases ofValue_float x with h | h <;> simp [h]
  | _ => simp [ofValue]

/-- The numbers of this kind are those that lie on the line. -/
@[simp] theorem ofValue_eq_numeric_iff : ofValue v = .numeric ↔ ∃ p, v.point? = some p := by
  cases v with
  | float x =>
    rw [← Option.isSome_iff_exists, Option.isSome_iff_ne_none, Value.point?, ne_eq,
      Binary64.point?_eq_none_iff]
    rcases ofValue_float x with h | h <;> simp [h]
  | _ => simp [ofValue, Value.point?]

theorem isLogical_ofValue_iff : (ofValue v).IsLogical ↔ v.IsLogical := by
  unfold IsLogical Value.IsLogical
  rw [ofValue_eq_null_iff, ofValue_eq_boolean_iff]
  cases v <;> simp [Value.kind]

end Query.Kind

/-! ## Failing operators -/

theorem Value.exists_compare_iff {v w : Value} : (∃ o, v.compare w = some o) ↔
    Kind.ofValue v = Kind.ofValue w ∧ (Kind.ofValue v).IsOrdered := by
  unfold Value.compare
  split
  · simp [Kind.ofValue, Kind.IsOrdered]
  · simp [Kind.ofValue, Kind.IsOrdered]
  · rename_i hs hb
    constructor
    · rintro ⟨o, h⟩
      rw [Value.compareNumbers_eq] at h
      obtain ⟨p, hp, h⟩ := Option.bind_eq_some_iff.mp h
      obtain ⟨q, hq, _⟩ := Option.map_eq_some_iff.mp h
      have hv := Kind.ofValue_eq_numeric_iff.mpr ⟨p, hp⟩
      exact ⟨hv.trans (Kind.ofValue_eq_numeric_iff.mpr ⟨q, hq⟩).symm, Or.inl hv⟩
    · rintro ⟨he, h | h | h⟩
      · obtain ⟨p, hp⟩ := Kind.ofValue_eq_numeric_iff.mp h
        obtain ⟨q, hq⟩ := Kind.ofValue_eq_numeric_iff.mp (he ▸ h)
        exact ⟨p.compare q, by simp [Value.compareNumbers_eq, hp, hq]⟩
      · obtain ⟨s, rfl⟩ := Kind.ofValue_eq_string_iff.mp h
        obtain ⟨t, rfl⟩ := Kind.ofValue_eq_string_iff.mp (he ▸ h)
        exact absurd rfl (hs s t rfl)
      · obtain ⟨a, rfl⟩ := Kind.ofValue_eq_boolean_iff.mp h
        obtain ⟨b, rfl⟩ := Kind.ofValue_eq_boolean_iff.mp (he ▸ h)
        exact absurd rfl (hb a b rfl)

theorem Value.exists_contains_iff {v w : Value} : (∃ b, v.contains w = some b) ↔
    Kind.ofValue v = .array ∨
      ((Kind.ofValue v = .string ∨ Kind.ofValue v = .object) ∧ Kind.ofValue w = .string) := by
  unfold Value.contains
  split
  · simp
  · simp
  · simp
  · rename_i ha hs ho
    simp only [reduceCtorEq, exists_false, Kind.ofValue_eq_array_iff, Kind.ofValue_eq_string_iff,
      Kind.ofValue_eq_object_iff, false_iff]
    rintro (⟨items, rfl⟩ | ⟨⟨s, rfl⟩ | ⟨fields, rfl⟩, t, rfl⟩)
    · exact ha items rfl
    · exact hs s t rfl rfl
    · exact ho fields t rfl rfl

namespace BinaryOp

variable {op : BinaryOp} {v w : Value}

theorem exists_operand_iff : (∃ b, op.operand v = .ok b) ↔ (Kind.ofValue v).IsLogical := by
  rw [Kind.isLogical_ofValue_iff]
  constructor
  · rintro ⟨b, h⟩
    exact (operand_eq_ok_iff.mp h).1
  · intro h
    exact ⟨decide (v = .boolean true), operand_eq_ok_iff.mpr ⟨h, decide_eq_true_iff⟩⟩

theorem exists_compare_apply_iff {c : Comparison} : (∃ b, c.apply v w = .ok b) ↔
    Kind.ofValue v = .null ∨ Kind.ofValue w = .null ∨
      (Kind.ofValue v = Kind.ofValue w ∧ (Kind.ofValue v).IsOrdered) := by
  rw [← Value.exists_compare_iff, Kind.ofValue_eq_null_iff, Kind.ofValue_eq_null_iff]
  unfold Comparison.apply
  split
  · simp
  · simp
  · rename_i hv hw
    cases v.compare w with
    | none =>
      simp only [reduceCtorEq, exists_false, or_false, false_iff, not_or]
      exact ⟨hv, hw⟩
    | some o => simp

theorem exists_search_iff : (∃ b, v.search w = .ok b) ↔
    Kind.ofValue v = .null ∨ Kind.ofValue w = .null ∨ Kind.ofValue v = .array ∨
      ((Kind.ofValue v = .string ∨ Kind.ofValue v = .object) ∧ Kind.ofValue w = .string) := by
  rw [← Value.exists_contains_iff, Kind.ofValue_eq_null_iff, Kind.ofValue_eq_null_iff]
  unfold Value.search
  split
  · simp
  · simp
  · rename_i hv hw
    cases v.contains w with
    | none =>
      simp only [reduceCtorEq, exists_false, or_false, false_iff, not_or]
      exact ⟨hv, hw⟩
    | some found => simp

theorem apply_compare {c : Comparison} (hc : c ≠ .eq) : (compare c).apply v w = c.apply v w := by
  cases c with
  | eq => exact absurd rfl hc
  | lt | le | gt | ge => rfl

/-- An operator has an answer on the pairs whose kinds it admits, and on no others. -/
theorem exists_apply_eq_ok_iff :
    (∃ b, op.apply v w = .ok b) ↔ op.Admits (Kind.ofValue v) (Kind.ofValue w) := by
  cases op with
  | and | or =>
    rw [Admits, ← exists_operand_iff, ← exists_operand_iff]
    constructor
    · rintro ⟨b, h⟩
      obtain ⟨a, hv, h⟩ := bind_eq_ok.mp h
      obtain ⟨b, hw, h⟩ := bind_eq_ok.mp h
      exact ⟨⟨a, hv⟩, b, hw⟩
    · rintro ⟨⟨a, hv⟩, b, hw⟩
      exact ⟨_, bind_eq_ok.mpr ⟨a, hv, bind_eq_ok.mpr ⟨b, hw, rfl⟩⟩⟩
  | compare c =>
    cases c with
    | eq => exact ⟨fun _ => trivial, fun _ => ⟨_, rfl⟩⟩
    | lt | le | gt | ge => exact exists_compare_apply_iff
  | contains => exact exists_search_iff

theorem compare_apply_eq_error {c : Comparison} {e : Query.Error} (h : c.apply v w = .error e) :
    e = .typeMismatch (.notOrdered c v.kind w.kind) := by
  unfold Comparison.apply at h
  split at h
  · cases h
  · cases h
  · split at h
    · cases h
    · cases h
      rfl

theorem search_eq_error {e : Query.Error} (h : v.search w = .error e) :
    e = .typeMismatch (.notSearchable v.kind w.kind) := by
  unfold Value.search at h
  split at h
  · cases h
  · cases h
  · split at h
    · cases h
    · cases h
      rfl

theorem operand_eq_error {e : Query.Error} (h : op.operand v = .error e) :
    e = .typeMismatch (.notBoolean op v.kind) := by
  unfold operand at h
  split at h
  · cases h
  · cases h
  · cases h
    rfl

/-- An operator without an answer reports that the types mismatch. -/
theorem apply_eq_error {e : Query.Error} (h : op.apply v w = .error e) :
    ∃ cause, e = .typeMismatch cause := by
  cases op with
  | and | or =>
    rcases bind_eq_error.mp h with h | ⟨a, _, h⟩
    · exact ⟨_, operand_eq_error h⟩
    · rcases bind_eq_error.mp h with h | ⟨b, _, h⟩
      · exact ⟨_, operand_eq_error h⟩
      · cases h
  | compare c =>
    cases c with
    | eq => cases h
    | lt | le | gt | ge => exact ⟨_, compare_apply_eq_error h⟩
  | contains => exact ⟨_, search_eq_error h⟩

theorem apply_of_not_admits (h : ¬ op.Admits (Kind.ofValue v) (Kind.ofValue w)) :
    ∃ cause, op.apply v w = .error (.typeMismatch cause) := by
  cases happly : op.apply v w with
  | ok b => exact absurd (exists_apply_eq_ok_iff.mp ⟨b, happly⟩) h
  | error e =>
    obtain ⟨cause, rfl⟩ := apply_eq_error happly
    exact ⟨cause, rfl⟩

theorem admits_or_iff :
    or.Admits (Kind.ofValue v) (Kind.ofValue w) ↔ v.IsLogical ∧ w.IsLogical := by
  rw [Admits, Kind.isLogical_ofValue_iff, Kind.isLogical_ofValue_iff]

theorem apply_or_of_not_isLogical (h : ¬ (v.IsLogical ∧ w.IsLogical)) :
    ∃ cause, or.apply v w = .error (.typeMismatch cause) :=
  apply_of_not_admits (mt admits_or_iff.mp h)

end BinaryOp

/-! ## Values where a kind is expected -/

/-- Values that fit a schema node are of its kind, absent ones and NaN apart. -/
theorem Schema.Fits.covers {node : Schema} {v : Value} (h : node.Fits v) :
    (Kind.ofSchema node).Covers v := by
  rcases h with rfl | h
  · exact Or.inl rfl
  · cases h with
    | array _ => exact Or.inr (Or.inl rfl)
    | object _ _ => exact Or.inr (Or.inl rfl)
    | scalar takes =>
      cases takes with
      | string | boolean | numberInteger | integer => exact Or.inr (Or.inl rfl)
      | numberFloat x | @whole x =>
        rcases Kind.ofValue_float x with ⟨h, _⟩ | ⟨h, _⟩
        · exact Or.inr (Or.inr ⟨rfl, h⟩)
        · exact Or.inr (Or.inl h)

theorem Query.Kind.IsLogical.of_covers {a : Kind} {v : Value} (h : a.IsLogical)
    (hv : a.Covers v) : (ofValue v).IsLogical := by
  rcases hv with rfl | hv | ⟨rfl, _⟩
  · exact Or.inl rfl
  · exact hv ▸ h
  · rcases h with h | h <;> cases h

theorem Query.Kind.Covers.ofValue_eq_null {a : Kind} {v : Value} (hv : a.Covers v)
    (ha : a = .null) : ofValue v = .null := by
  subst ha
  rcases hv with rfl | hv | ⟨ha, _⟩
  · rfl
  · exact hv
  · cases ha

/-- An operator that admits two kinds also admits what stands where they are expected, but for NaN
in orderings. -/
theorem BinaryOp.Admits.of_covers {op : BinaryOp} {a b : Kind} {v w : Value} (h : op.Admits a b)
    (hv : a.Covers v) (hw : b.Covers w) : op.Admits (Kind.ofValue v) (Kind.ofValue w) ∨
      (a = .numeric ∧ Kind.ofValue v = .nan ∨ b = .numeric ∧ Kind.ofValue w = .nan) ∧
        ∃ c, op = .compare c ∧ c ≠ .eq := by
  cases op with
  | and | or => exact Or.inl ⟨h.1.of_covers hv, h.2.of_covers hw⟩
  | compare c =>
    cases c with
    | eq => exact Or.inl trivial
    | lt | le | gt | ge =>
      rcases h with ha | hb | ⟨rfl, h⟩
      · exact Or.inl (Or.inl (hv.ofValue_eq_null ha))
      · exact Or.inl (Or.inr (Or.inl (hw.ofValue_eq_null hb)))
      · rcases hv with rfl | hv | hv
        · exact Or.inl (Or.inl rfl)
        · rcases hw with rfl | hw | hw
          · exact Or.inl (Or.inr (Or.inl rfl))
          · exact Or.inl (Or.inr (Or.inr ⟨hv.trans hw.symm, hv ▸ h⟩))
          · exact Or.inr ⟨Or.inr hw, _, rfl, nofun⟩
        · exact Or.inr ⟨Or.inl hv, _, rfl, nofun⟩
  | contains =>
    refine Or.inl ?_
    rcases h with ha | hb | rfl | ⟨ha, rfl⟩
    · exact Or.inl (hv.ofValue_eq_null ha)
    · exact Or.inr (Or.inl (hw.ofValue_eq_null hb))
    · rcases hv with rfl | hv | ⟨ha, _⟩
      · exact Or.inl rfl
      · exact Or.inr (Or.inr (Or.inl hv))
      · cases ha
    · rcases hv with rfl | hv | ⟨rfl, _⟩
      · exact Or.inl rfl
      · rcases hw with rfl | hw | ⟨hb, _⟩
        · exact Or.inr (Or.inl rfl)
        · exact Or.inr (Or.inr (Or.inr ⟨hv ▸ ha, hw⟩))
        · cases hb
      · rcases ha with ha | ha <;> cases ha

/-! ## NaN -/

namespace Value

variable {v : Value}

theorem allFloats_of_mem_targets_step {p : Binary64 → Bool} {step : Query.Step}
    (h : v.allFloats p = true) : ∀ w ∈ step.targets v, w.allFloats p = true := by
  unfold Query.Step.targets
  split
  · rename_i name fields
    intro w hw
    cases List.mem_singleton.mp hw
    cases hv : fields.get? name with
    | none => rfl
    | some w => exact allFloatsUnder_iff.mp h _ w hv
  · exact fun w hw => List.mem_singleton.mp hw ▸ rfl
  · exact allFloatsIn_iff.mp h
  · exact fun w hw => absurd hw List.not_mem_nil

theorem allFloats_of_mem_targets {p : Binary64 → Bool} {path : List Query.Step}
    (h : v.allFloats p = true) : ∀ w ∈ Query.targets path v, w.allFloats p = true := by
  induction path generalizing v with
  | nil => exact fun w hw => List.mem_singleton.mp hw ▸ h
  | cons step path ih =>
    intro w hw
    obtain ⟨u, hu, hw⟩ := List.mem_flatMap.mp hw
    exact ih (allFloats_of_mem_targets_step h u hu) w hw

theorem ofValue_ne_nan (h : v.nanFree = true) : Kind.ofValue v ≠ .nan := by
  rw [ne_eq, Kind.ofValue_eq_nan_iff]
  rintro ⟨x, rfl, hx⟩
  rw [nanFree, allFloats, hx] at h
  cases h

end Value

end RecordQuery
