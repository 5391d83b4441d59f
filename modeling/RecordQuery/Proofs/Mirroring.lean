import RecordQuery.Proofs.Comparisons
import RecordQuery.Proofs.Pairs
import RecordQuery.Proofs.Postorder
import RecordQuery.Proofs.Typing

/-!
Operands in the other order. Some operators have a mirror image, which asks the same of the operands
in the other order: `lt` has `gt`, `le` has `ge`, and `eq` and `and` have themselves. An operator
relates and refuses the pairs that its mirror image does (`Mirrors.relates_iff`,
`Mirrors.admits_iff`), but it comes to them in another order. On accepted records without NaN this
makes no difference, since no such operator relates one pair and refuses another one there
(`evaluate_mirrored`).
-/

namespace RecordQuery

open Query (Kind)

/-- The comparison that holds of two operands in the other order. -/
def Comparison.mirrored : Comparison → Comparison
  | .lt => .gt
  | .le => .ge
  | .eq => .eq
  | .gt => .lt
  | .ge => .le

/-- Two operators of which the one asks of two operands what the other one asks of them in the other
order. -/
inductive BinaryOp.Mirrors : BinaryOp → BinaryOp → Prop
  | and : Mirrors .and .and
  | compare (c : Comparison) : Mirrors (.compare c) (.compare c.mirrored)

/-! ## One pair -/

theorem Value.compareNumbers_swap (v w : Value) :
    w.compareNumbers v = (v.compareNumbers w).map Ordering.swap := by
  rw [compareNumbers_eq, compareNumbers_eq]
  cases v.point? with
  | none => cases w.point? <;> rfl
  | some p =>
    cases w.point? with
    | none => rfl
    | some q => exact congrArg some (Point.swap_compare p q).symm

theorem Value.compare_swap (v w : Value) :
    w.compare v = (v.compare w).map Ordering.swap := by
  have hnumbers := compareNumbers_swap v w
  cases v with
  | string s =>
    cases w with
    | string t => exact congrArg some Std.OrientedCmp.eq_swap
    | null | boolean | integer | float | array | object => rfl
  | boolean a =>
    cases w with
    | boolean b => exact congrArg some Std.OrientedCmp.eq_swap
    | null | string | integer | float | array | object => rfl
  | null | integer | float | array | object => cases w <;> exact hnumbers

theorem Comparison.accepts_swap (c : Comparison) (o : Ordering) :
    c.mirrored.accepts o.swap = c.accepts o := by
  cases c <;> cases o <;> rfl

theorem Comparison.exists_accepts_swap (c : Comparison) {v w : Value} :
    (∃ o ∈ w.compare v, c.mirrored.accepts o = true) ↔ ∃ o ∈ v.compare w, c.accepts o = true := by
  rw [Value.compare_swap v w]
  simp only [Option.mem_map, exists_exists_and_eq_and, accepts_swap]

namespace BinaryOp.Mirrors

variable {op op' : BinaryOp} {a b : Kind} {v w : Value}

theorem ne_or (h : op.Mirrors op') : op ≠ .or := by
  cases h <;> exact nofun

theorem relates_iff (h : op.Mirrors op') : op'.Relates w v ↔ op.Relates v w := by
  cases h with
  | and => exact and_comm
  | compare c =>
    cases c with
    | eq => exact ⟨Value.equals_symm, Value.equals_symm⟩
    | lt | le | gt | ge =>
      exact and_left_comm.trans
        (and_congr_right' (and_congr_right' (Comparison.exists_accepts_swap _)))

theorem admits_iff (h : op.Mirrors op') : op'.Admits b a ↔ op.Admits a b := by
  cases h with
  | and => exact and_comm
  | compare c =>
    have hsame : b = a ∧ b.IsOrdered ↔ a = b ∧ a.IsOrdered := by
      constructor
      · rintro ⟨rfl, h⟩
        exact ⟨rfl, h⟩
      · rintro ⟨rfl, h⟩
        exact ⟨rfl, h⟩
    cases c with
    | eq => exact Iff.rfl
    | lt | le | gt | ge => exact or_left_comm.trans (or_congr_right (or_congr_right hsame))

end BinaryOp.Mirrors

/-! ## All pairs -/

section

variable {op op' : BinaryOp} {a b : Kind} {l r : Outcome}

/-- On values of two kinds an operator with a mirror image fails as soon as it refuses some pair. -/
theorem Outcome.anyPair_mirrored (h : op.Mirrors op')
    (hl : ∀ v ∈ l.values, v = .null ∨ Kind.ofValue v = a)
    (hr : ∀ w ∈ r.values, w = .null ∨ Kind.ofValue w = b) :
    (∃ found, l.anyPair op.apply r = .ok found ∧ r.anyPair op'.apply l = .ok found) ∨
      ∃ cause cause', l.anyPair op.apply r = .error (.typeMismatch cause) ∧
        r.anyPair op'.apply l = .error (.typeMismatch cause') := by
  by_cases hadmits : ∀ v ∈ l.values, ∀ w ∈ r.values, op.Admits (.ofValue v) (.ofValue w)
  · have hadmits' : ∀ w ∈ r.values, ∀ v ∈ l.values, op'.Admits (.ofValue w) (.ofValue v) :=
      fun w hw v hv => h.admits_iff.mpr (hadmits v hv w hw)
    obtain ⟨found, hrun, hfound⟩ := anyPair_of_admits hadmits
    obtain ⟨found', hrun', hfound'⟩ := anyPair_of_admits hadmits'
    have hsame : found = found' := by
      rw [Bool.eq_iff_iff, hfound, hfound']
      constructor
      · rintro ⟨v, hv, w, hw, hrelates⟩
        exact ⟨w, hw, v, hv, h.relates_iff.mpr hrelates⟩
      · rintro ⟨w, hw, v, hv, hrelates⟩
        exact ⟨v, hv, w, hw, h.relates_iff.mp hrelates⟩
    exact Or.inl ⟨found, hrun, hsame ▸ hrun'⟩
  · -- no pair is related next to one that is refused, in either order
    obtain ⟨v, hv, w, hw, hrefused⟩ : ∃ v ∈ l.values, ∃ w ∈ r.values,
        ¬ op.Admits (.ofValue v) (.ofValue w) := by simpa using hadmits
    have hrelates : ¬ ∃ v ∈ l.values, ∃ w ∈ r.values, op.Relates v w := by
      rintro ⟨v', hv', w', hw', hrelates⟩
      exact hrefused (hrelates.admits h.ne_or (hl v' hv') (hr w' hw') (hl v hv) (hr w hw))
    have hrelates' : ¬ ∃ w ∈ r.values, ∃ v ∈ l.values, op'.Relates w v := by
      rintro ⟨w', hw', v', hv', h'⟩
      exact hrelates ⟨v', hv', w', hw', h.relates_iff.mp h'⟩
    obtain ⟨cause, hrun⟩ := anyPair_of_not_relates ⟨v, hv, w, hw, hrefused⟩ hrelates
    obtain ⟨cause', hrun'⟩ :=
      anyPair_of_not_relates ⟨w, hw, v, hv, mt h.admits_iff.mp hrefused⟩ hrelates'
    exact Or.inr ⟨cause, cause', hrun, hrun'⟩

end

/-! ## Calls -/

namespace Query

/-- Two calls with the same boolean, or both without one because the types mismatch. -/
inductive SameAnswer : Except Error Outcome → Except Error Outcome → Prop
  | ok (found : Bool) : SameAnswer (.ok (.ofBool found)) (.ok (.ofBool found))
  | mismatch (cause cause' : OperandFault) :
      SameAnswer (.error (.typeMismatch cause)) (.error (.typeMismatch cause'))

theorem SameAnswer.eq_ok {found : Bool} {x : Except Error Outcome}
    (h : SameAnswer (.ok (.ofBool found)) x) : x = .ok (.ofBool found) := by
  cases h
  rfl

section

variable {limits : Limits} {data : Value} {schema : Schema} {a b : Query} {l r : Outcome}
  {e : Error}

theorem exists_error_of_left (op : BinaryOp) (b : Query)
    (h : a.evaluate limits data schema = .error e) :
    ∃ e', (Query.binary op a b).evaluate limits data schema = .error e' :=
  exists_error_of_mem_parts (List.mem_cons_of_mem _ (List.mem_append_left _ mem_parts_self)) h

theorem exists_error_of_right (op : BinaryOp) (a : Query)
    (h : b.evaluate limits data schema = .error e) :
    ∃ e', (Query.binary op a b).evaluate limits data schema = .error e' :=
  exists_error_of_mem_parts (List.mem_cons_of_mem _ (List.mem_append_right _ mem_parts_self)) h

theorem sameAnswer_of_mirrors {op op' : BinaryOp} (h : op.Mirrors op')
    (hdata : schema.Conforms data) (hfree : data.nanFree = true)
    (hdepth : max a.depth b.depth < limits.maxDepth)
    (ha : a.evaluate limits data schema = .ok l) (hb : b.evaluate limits data schema = .ok r) :
    SameAnswer ((Query.binary op a b).evaluate limits data schema)
      ((Query.binary op' b a).evaluate limits data schema) := by
  have hdepth' : max b.depth a.depth < limits.maxDepth := Nat.max_comm .. ▸ hdepth
  obtain ⟨_, hl⟩ := exists_kind_of_evaluateWithin hdata hfree ha
  obtain ⟨_, hr⟩ := exists_kind_of_evaluateWithin hdata hfree hb
  rw [evaluate_binary_of_ok hdepth ha hb, evaluate_binary_of_ok hdepth' hb ha]
  rcases Outcome.anyPair_mirrored h hl hr with
    ⟨found, hrun, hrun'⟩ | ⟨cause, cause', hrun, hrun'⟩
  · rw [hrun, hrun']
    exact .ok found
  · rw [hrun, hrun']
    exact .mismatch cause cause'

theorem exists_evaluate_eq (hdepth : max a.depth b.depth < limits.maxDepth)
    (ha : a.evaluate limits data schema = .ok l) (hb : b.evaluate limits data schema = .ok r) :
    ∃ found,
      (Query.binary (.compare .eq) a b).evaluate limits data schema = .ok (.ofBool found) :=
  ⟨_, evaluate_binary_eq_any hdepth ha hb fun _ _ _ _ => rfl⟩

/-- **Operands in the other order.** A call with an operand that fails has no outcome in either
order. Otherwise, on an accepted record without NaN, an operator and its mirror image answer alike:
with one boolean, or both find that the types mismatch. Of these, `eq` always has a boolean. -/
theorem evaluate_mirrored (haccepted : Schema.structural data schema = .ok ())
    (hfree : data.nanFree = true) (hdepth : max a.depth b.depth < limits.maxDepth) :
    ((∃ e, a.evaluate limits data schema = .error e) ∨
        (∃ e, b.evaluate limits data schema = .error e) →
      ∀ op op' : BinaryOp,
        (∃ e, (Query.binary op a b).evaluate limits data schema = .error e) ∧
          ∃ e, (Query.binary op' b a).evaluate limits data schema = .error e) ∧
    ∀ l r, a.evaluate limits data schema = .ok l → b.evaluate limits data schema = .ok r →
      (∀ op op' : BinaryOp, op.Mirrors op' →
        SameAnswer ((Query.binary op a b).evaluate limits data schema)
          ((Query.binary op' b a).evaluate limits data schema)) ∧
      ∃ found,
        (Query.binary (.compare .eq) a b).evaluate limits data schema = .ok (.ofBool found) ∧
          (Query.binary (.compare .eq) b a).evaluate limits data schema =
            .ok (.ofBool found) := by
  have hdata := Schema.structural_eq_ok_iff.mp haccepted
  constructor
  · rintro (⟨e, he⟩ | ⟨e, he⟩) op op'
    · exact ⟨exists_error_of_left op b he, exists_error_of_right op' b he⟩
    · exact ⟨exists_error_of_right op a he, exists_error_of_left op' a he⟩
  · intro l r ha hb
    refine ⟨fun op op' h => sameAnswer_of_mirrors h hdata hfree hdepth ha hb, ?_⟩
    obtain ⟨found, hfound⟩ := exists_evaluate_eq hdepth ha hb
    have hsame := sameAnswer_of_mirrors (.compare .eq) hdata hfree hdepth ha hb
    rw [hfound] at hsame
    exact ⟨found, hfound, hsame.eq_ok⟩

/-- `lt` and `gt` answer alike on two broadcasts that each have an absent value, and no operator
saves a path that fails. -/
theorem evaluate_mirrored_bounds :
    let item (name : String) (v : Value) : Value := .object (.ofList [(name, v)])
    let data : Value := .object (.ofList [("items", .array
      [item "low" (.integer 1), item "high" (.float ⟨0x4000000000000000⟩)])])
    let items : Schema := .object [("low", .scalar .integer), ("high", .scalar .number)] []
    let schema : Schema := .object [("items", .array items)] []
    let bound (name : String) : Query := .resolve [.property "items", .item, .property name]
    Schema.structural data schema = .ok () ∧ data.nanFree = true ∧
      (bound "low").evaluate {} data schema = .ok (.broadcast [.integer 1, .null]) ∧
      (bound "high").evaluate {} data schema =
        .ok (.broadcast [.null, .float ⟨0x4000000000000000⟩]) ∧
      SameAnswer
        ((Query.binary (.compare .lt) (bound "low") (bound "high")).evaluate {} data schema)
        ((Query.binary (.compare .gt) (bound "high") (bound "low")).evaluate {} data schema) ∧
      ∀ op op' : BinaryOp,
        (∃ e, (Query.binary op (bound "low") (bound "top")).evaluate {} data schema = .error e) ∧
          ∃ e, (Query.binary op' (bound "top") (bound "low")).evaluate {} data schema =
            .error e := by
  intro item data items schema bound
  have haccepted : Schema.structural data schema = .ok () := by decide +kernel
  have hfree : data.nanFree = true := by decide +kernel
  have hl : (bound "low").evaluate {} data schema = .ok (.broadcast [.integer 1, .null]) := rfl
  have hr : (bound "high").evaluate {} data schema =
      .ok (.broadcast [.null, .float ⟨0x4000000000000000⟩]) := rfl
  have htop : (bound "top").evaluate {} data schema = .error (.unknownProperty "top") := rfl
  have hdepth (name : String) :
      max (bound "low").depth (bound name).depth < ({} : Limits).maxDepth :=
    (by decide : max 1 1 < 64)
  obtain ⟨-, hsame⟩ := evaluate_mirrored haccepted hfree (hdepth "high")
  obtain ⟨hfails, -⟩ := evaluate_mirrored haccepted hfree (hdepth "top")
  exact ⟨haccepted, hfree, hl, hr, (hsame _ _ hl hr).1 _ _ (.compare .lt),
    hfails (Or.inr ⟨_, htop⟩)⟩

end

end Query

end RecordQuery
