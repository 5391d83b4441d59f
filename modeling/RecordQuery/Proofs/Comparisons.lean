import RecordQuery.Proofs.Admission
import RecordQuery.Proofs.Equality
import RecordQuery.Proofs.Kinds

/-!
Equality and order agree. Two values in an order are equal exactly when the order says so
(`equals_iff_of_compare`). So where all pairs of values are in an order, every comparison has an
answer, and `eq` fits in with the others: each of them asks whether some pair stands in an order
that it accepts (`evaluate_comparison`, `evaluate_comparisons_agree`).
-/

namespace RecordQuery

/-! ## Pairs in an order -/

section

variable {v w : Value} {o : Ordering}

theorem Value.equals_iff_of_compare (h : v.compare w = some o) : v.equals w = true ↔ o = .eq := by
  unfold Value.compare at h
  split at h
  · cases h
    exact beq_iff_eq.trans Std.LawfulEqOrd.compare_eq_iff_eq.symm
  · cases h
    exact beq_iff_eq.trans Std.LawfulEqOrd.compare_eq_iff_eq.symm
  · rw [compareNumbers_eq] at h
    obtain ⟨p, hp, h⟩ := Option.bind_eq_some_iff.mp h
    obtain ⟨q, hq, rfl⟩ := Option.map_eq_some_iff.mp h
    rw [equals_of_point? hp, hq, Point.compare_eq_iff, Option.some.injEq]
    exact eq_comm

theorem Value.ne_null_of_compare (h : v.compare w = some o) : v ≠ .null ∧ w ≠ .null := by
  constructor
  · rintro rfl
    cases h
  · rintro rfl
    cases v <;> cases h

/-- Every comparison of two values in an order asks whether it accepts that order, `eq` as well. -/
theorem BinaryOp.apply_compare_of_order {c : Comparison} (h : v.compare w = some o) :
    (compare c).apply v w = .ok (c.accepts o) := by
  obtain ⟨hv, hw⟩ := Value.ne_null_of_compare h
  by_cases hc : c = .eq
  · subst hc
    refine congrArg Except.ok (Bool.eq_iff_iff.mpr ?_)
    rw [Value.equals_iff_of_compare h, Comparison.accepts, beq_iff_eq]
  · rw [apply_compare hc]
    unfold Comparison.apply
    split
    · exact absurd rfl hv
    · exact absurd rfl hw
    · rw [h]

end

/-! ## All pairs in an order -/

theorem Comparison.accepts_le (o : Ordering) :
    le.accepts o = (lt.accepts o || eq.accepts o) := by
  cases o <;> rfl

theorem Comparison.accepts_ge (o : Ordering) :
    ge.accepts o = (gt.accepts o || eq.accepts o) := by
  cases o <;> rfl

/-- Some left value stands in this order to some right value. -/
def Outcome.inOrder (o : Ordering) (left right : Outcome) : Bool :=
  left.values.any fun v => right.values.any fun w => v.compare w == some o

section

variable {l r : Outcome} {o : Ordering}

theorem Outcome.inOrder_iff : l.inOrder o r = true ↔
    ∃ v ∈ l.values, ∃ w ∈ r.values, v.compare w = some o := by
  simp only [inOrder, List.any_eq_true, beq_iff_eq]

/-- Two single values stand in one order. -/
theorem Outcome.inOrder_of_single {v w : Value} {o' : Ordering} (hl : l.values = [v])
    (hr : r.values = [w]) (h : v.compare w = some o) : l.inOrder o' r = (o == o') := by
  rw [inOrder, hl, hr, List.any_cons, List.any_nil, Bool.or_false, List.any_cons, List.any_nil,
    Bool.or_false, h]
  rfl

namespace Query

variable {limits : Limits} {data : Value} {schema : Schema} {a b : Query}

/-- A comparison holds when some pair of values stands in an order that it accepts. -/
theorem evaluate_comparison (c : Comparison) (hdepth : max a.depth b.depth < limits.maxDepth)
    (ha : a.evaluate limits data schema = .ok l) (hb : b.evaluate limits data schema = .ok r)
    (hordered : ∀ v ∈ l.values, ∀ w ∈ r.values, ∃ o, v.compare w = some o) :
    ∃ found, (Query.binary (.compare c) a b).evaluate limits data schema = .ok (.ofBool found) ∧
      (found = true ↔ ∃ o, c.accepts o = true ∧ l.inOrder o r = true) := by
  have happly : ∀ v ∈ l.values, ∀ w ∈ r.values,
      (BinaryOp.compare c).apply v w = .ok ((v.compare w).any c.accepts) := by
    intro v hv w hw
    obtain ⟨o, ho⟩ := hordered v hv w hw
    rw [BinaryOp.apply_compare_of_order ho, ho]
    rfl
  refine ⟨_, evaluate_binary_eq_any hdepth ha hb happly, ?_⟩
  simp only [List.any_eq_true, Option.any_eq_true, Outcome.inOrder_iff]
  constructor
  · rintro ⟨v, hv, w, hw, o, ho, haccepts⟩
    exact ⟨o, haccepts, v, hv, w, hw, ho⟩
  · rintro ⟨o, haccepts, v, hv, w, hw, ho⟩
    exact ⟨v, hv, w, hw, o, ho, haccepts⟩

/-- **Equality and order agree.** Where each left value is in an order with each right value, the
five comparisons have answers. `lt`, `eq` and `gt` ask for a pair in one order each; `le` says what
`lt` or `eq` says, and `ge` what `gt` or `eq` says. On single values exactly one of `lt`, `eq` and
`gt` holds. -/
theorem evaluate_comparisons_agree (hdepth : max a.depth b.depth < limits.maxDepth)
    (ha : a.evaluate limits data schema = .ok l) (hb : b.evaluate limits data schema = .ok r)
    (hordered : ∀ v ∈ l.values, ∀ w ∈ r.values, ∃ o, v.compare w = some o) :
    (Query.binary (.compare .lt) a b).evaluate limits data schema =
        .ok (.ofBool (l.inOrder .lt r)) ∧
      (Query.binary (.compare .eq) a b).evaluate limits data schema =
        .ok (.ofBool (l.inOrder .eq r)) ∧
      (Query.binary (.compare .gt) a b).evaluate limits data schema =
        .ok (.ofBool (l.inOrder .gt r)) ∧
      (Query.binary (.compare .le) a b).evaluate limits data schema =
        .ok (.ofBool (l.inOrder .lt r || l.inOrder .eq r)) ∧
      (Query.binary (.compare .ge) a b).evaluate limits data schema =
        .ok (.ofBool (l.inOrder .gt r || l.inOrder .eq r)) ∧
      ∀ v w, l.values = [v] → r.values = [w] →
        [l.inOrder .lt r, l.inOrder .eq r, l.inOrder .gt r].count true = 1 := by
  have hanswer (c : Comparison) (b' : Bool)
      (h : (∃ o, c.accepts o = true ∧ l.inOrder o r = true) ↔ b' = true) :
      (Query.binary (.compare c) a b).evaluate limits data schema = .ok (.ofBool b') := by
    obtain ⟨found, hfound, hiff⟩ := evaluate_comparison c hdepth ha hb hordered
    rw [hfound, Bool.eq_iff_iff.mpr (hiff.trans h)]
  refine ⟨hanswer .lt _ ?_, hanswer .eq _ ?_, hanswer .gt _ ?_, hanswer .le _ ?_,
    hanswer .ge _ ?_, ?_⟩
  · simp [Comparison.accepts]
  · simp [Comparison.accepts]
  · simp [Comparison.accepts]
  · simp only [Comparison.accepts_le, Bool.or_eq_true, or_and_right, exists_or]
    simp [Comparison.accepts]
  · simp only [Comparison.accepts_ge, Bool.or_eq_true, or_and_right, exists_or]
    simp [Comparison.accepts]
  · intro v w hl hr
    obtain ⟨o, ho⟩ := hordered v (hl ▸ List.mem_singleton_self v) w (hr ▸ List.mem_singleton_self w)
    simp only [Outcome.inOrder_of_single hl hr ho]
    cases o <;> rfl

/-- `ge` says what `gt` or `eq` says of a whole number and a double beside `2`, and two single
values stand in one order. -/
theorem evaluate_comparisons_agree_sizes :
    let double : Value := .float ⟨0x4000000000000000⟩
    let data : Value := .object (.ofList [("sizes", .array [.integer 1, double])])
    let schema : Schema := .object [("sizes", .array (.scalar .number))] []
    let sizes : Query := .resolve [.property "sizes", .item]
    let l : Outcome := .broadcast [.integer 1, double]
    let r : Outcome := .scalar (.integer 2)
    sizes.evaluate {} data schema = .ok l ∧
      (Query.literal (.integer 2)).evaluate {} data schema = .ok r ∧
      (∀ v ∈ l.values, ∀ w ∈ r.values, ∃ o, v.compare w = some o) ∧
      (Query.binary (.compare .ge) sizes (.literal (.integer 2))).evaluate {} data schema =
        .ok (.ofBool (l.inOrder .gt r || l.inOrder .eq r)) ∧
      l.inOrder .lt r = true ∧ l.inOrder .eq r = true ∧ l.inOrder .gt r = false ∧
      [(Outcome.scalar double).inOrder .lt r, (Outcome.scalar double).inOrder .eq r,
        (Outcome.scalar double).inOrder .gt r].count true = 1 := by
  intro double data schema sizes l r
  have hl : sizes.evaluate {} data schema = .ok l := rfl
  have hr : (Query.literal (.integer 2)).evaluate {} data schema = .ok r := rfl
  have hd : (Query.literal double).evaluate {} data schema = .ok (.scalar double) := rfl
  have hone : (Value.integer 1).compare (.integer 2) = some .lt := rfl
  have hdouble : double.compare (.integer 2) = some .eq := by decide +kernel
  have hordered : ∀ v ∈ l.values, ∀ w ∈ r.values, ∃ o, v.compare w = some o := by
    intro v hv w hw
    cases List.mem_singleton.mp hw
    rcases List.mem_pair.mp hv with rfl | rfl
    · exact ⟨_, hone⟩
    · exact ⟨_, hdouble⟩
  have hsingle : ∀ v ∈ (Outcome.scalar double).values, ∀ w ∈ r.values,
      ∃ o, v.compare w = some o := by
    intro v hv w hw
    cases List.mem_singleton.mp hv
    cases List.mem_singleton.mp hw
    exact ⟨_, hdouble⟩
  obtain ⟨-, -, -, -, hge, -⟩ := evaluate_comparisons_agree (by decide) hl hr hordered
  obtain ⟨-, -, -, -, -, hcount⟩ := evaluate_comparisons_agree (by decide) hd hr hsingle
  exact ⟨hl, hr, hordered, hge, by decide +kernel, by decide +kernel, by decide +kernel,
    hcount double (.integer 2) rfl rfl⟩

end Query

end

end RecordQuery
