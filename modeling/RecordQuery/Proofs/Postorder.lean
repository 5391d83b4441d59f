import RecordQuery.Proofs.Admission
import RecordQuery.Proofs.Grammar

/-!
The order of evaluation. No operator skips an operand: both are evaluated, the left one first, and
the call itself after them. So the parts of a query are met in postorder, and the query reports the
first of them that fails on its own (`reports_evaluate`, `evaluate_in_postorder`).
-/

namespace RecordQuery.Query

/-- The parts of a query, operands before their call and the left one first. -/
def postorder : Query → List Query
  | .literal v => [.literal v]
  | .not operand => operand.postorder ++ [.not operand]
  | .binary op left right => left.postorder ++ right.postorder ++ [.binary op left right]
  | .resolve path => [.resolve path]

theorem postorder_perm_parts (q : Query) : q.postorder.Perm q.parts := by
  induction q with
  | literal v | resolve path => exact .refl _
  | not operand ih => exact (ih.append_right _).trans (List.perm_append_singleton ..)
  | binary op left right ihl ihr =>
    exact ((ihl.append ihr).append_right _).trans (List.perm_append_singleton ..)

/-! ## Failures -/

/-- The error of a run without an outcome. -/
def error? : Except Error Outcome → Option Error
  | .ok _ => none
  | .error e => some e

/-- The errors of the parts of a query, each of which is evaluated on its own. -/
def failures (limits : Limits) (data : Value) (schema : Schema) (q : Query) : List Error :=
  q.postorder.flatMap fun s => (error? (s.evaluate limits data schema)).toList

section

variable {limits : Limits} {data : Value} {schema : Schema} {q s : Query} {e : Error}

theorem error?_eq_none_iff {x : Except Error Outcome} : error? x = none ↔ ∃ o, x = .ok o := by
  cases x with
  | ok o => exact ⟨fun _ => ⟨o, rfl⟩, fun _ => rfl⟩
  | error e => exact ⟨nofun, nofun⟩

theorem error?_eq_some_iff {x : Except Error Outcome} : error? x = some e ↔ x = .error e := by
  cases x with
  | ok o => exact ⟨nofun, nofun⟩
  | error e' => simp only [error?, Option.some.injEq, Except.error.injEq]

theorem reports_error? (x : Except Error Outcome) : Reports (error? x).toList x := by
  cases x with
  | ok o => rfl
  | error e => rfl

/-- A call comes after all that its operands report. -/
theorem Reports.bind_error? {first : List Error} {x : Except Error Outcome}
    (hx : Reports first x) (f : Outcome → Except Error Outcome) :
    Reports (first ++ (error? (x >>= f)).toList) (x >>= f) := by
  refine hx.bind fun o ho => ?_
  subst ho
  exact reports_error? (f o)

theorem Reports.bind₂_error? {first second : List Error} {x y : Except Error Outcome}
    (hx : Reports first x) (hy : Reports second y)
    (f : Outcome → Outcome → Except Error Outcome) :
    Reports (first ++ second ++ (error? (x >>= fun l => y >>= f l)).toList)
      (x >>= fun l => y >>= f l) := by
  rw [List.append_assoc]
  refine hx.bind fun l hl => ?_
  subst hl
  exact hy.bind_error? (f l)

/-- A query reports the failures of its parts, as long as its depth is permitted. -/
theorem reports_evaluate (h : q.depth ≤ limits.maxDepth) :
    Reports (failures limits data schema q) (q.evaluate limits data schema) := by
  induction q with
  | literal v | resolve path =>
    rw [failures, postorder, List.flatMap_singleton]
    exact reports_error? _
  | not operand ih =>
    have hoperand := ih (Nat.le_of_succ_le h)
    rw [failures, postorder, List.flatMap_append, List.flatMap_singleton, evaluate_not h]
    exact hoperand.bind_error? _
  | binary op left right ihl ihr =>
    obtain ⟨hl, hr⟩ := Nat.max_le.mp (Nat.le_of_succ_le h)
    rw [failures, postorder, List.flatMap_append, List.flatMap_append,
      List.flatMap_singleton, evaluate_binary h]
    exact (ihl hl).bind₂_error? (ihr hr) _

theorem failures_eq_nil_iff : failures limits data schema q = [] ↔
    ∀ s ∈ q.parts, ∃ o, s.evaluate limits data schema = .ok o := by
  simp only [failures, List.flatMap_eq_nil_iff, Option.toList_eq_nil_iff, error?_eq_none_iff,
    (postorder_perm_parts q).mem_iff]

/-- The first failure is that of the first part that fails. -/
theorem head?_failures_eq_some_iff : (failures limits data schema q).head? = some e ↔
    ∃ before s after, q.postorder = before ++ s :: after ∧
      (∀ t ∈ before, ∃ o, t.evaluate limits data schema = .ok o) ∧
      s.evaluate limits data schema = .error e := by
  rw [failures, List.head?_flatMap, List.findSome?_eq_some_iff]
  simp only [Option.head?_toList, error?_eq_none_iff, error?_eq_some_iff]
  constructor
  · rintro ⟨before, s, after, hsplit, hs, hbefore⟩
    exact ⟨before, s, after, hsplit, hbefore, hs⟩
  · rintro ⟨before, s, after, hsplit, hbefore, hs⟩
    exact ⟨before, s, after, hsplit, hs, hbefore⟩

theorem evaluate_eq_ok_iff (h : q.depth ≤ limits.maxDepth) :
    (∃ o, q.evaluate limits data schema = .ok o) ↔
      ∀ s ∈ q.parts, ∃ o, s.evaluate limits data schema = .ok o :=
  (reports_evaluate h).exists_ok_iff.trans failures_eq_nil_iff

/-- A query fails with each of its parts, be it too deep or not. -/
theorem exists_error_of_mem_parts (hs : s ∈ q.parts)
    (h : s.evaluate limits data schema = .error e) :
    ∃ e', q.evaluate limits data schema = .error e' := by
  cases hq : q.evaluate limits data schema with
  | error e' => exact ⟨e', rfl⟩
  | ok o =>
    have hdepth : q.depth ≤ limits.maxDepth := (admits_of_evaluateWithin hq).1
    obtain ⟨o', ho'⟩ := (evaluate_eq_ok_iff hdepth).mp ⟨o, hq⟩ s hs
    cases h.symm.trans ho'

end

/-- **No part is skipped.** A query whose depth is permitted has an outcome exactly when each of its
parts has one on its own. Otherwise its error is that of the first part in postorder that fails.
Operands that decide a call do not save it from one that fails. -/
theorem evaluate_in_postorder (q : Query) (data : Value) (schema : Schema) (limits : Limits) :
    (q.depth ≤ limits.maxDepth →
      ((∃ o, q.evaluate limits data schema = .ok o) ↔
        ∀ s ∈ q.parts, ∃ o, s.evaluate limits data schema = .ok o) ∧
      ∀ e, q.evaluate limits data schema = .error e ↔
        ∃ before s after, q.postorder = before ++ s :: after ∧
          (∀ t ∈ before, ∃ o, t.evaluate limits data schema = .ok o) ∧
          s.evaluate limits data schema = .error e) ∧
    ∀ e, q.evaluate limits data schema = .error e →
      (∃ e', (Query.binary .and (.literal (.boolean false)) q).evaluate limits data schema =
        .error e') ∧
      (∃ e', (Query.binary .or (.literal (.boolean true)) q).evaluate limits data schema =
        .error e') ∧
      ∃ e', (Query.not q).evaluate limits data schema = .error e' := by
  refine ⟨fun h => ⟨evaluate_eq_ok_iff h, fun e => ?_⟩, fun e he => ?_⟩
  · exact (reports_evaluate h).eq_error_iff.trans head?_failures_eq_some_iff
  · have hright (op : BinaryOp) (left : Query) : q ∈ (Query.binary op left q).parts :=
      List.mem_cons_of_mem _ (List.mem_append_right _ mem_parts_self)
    have hoperand : q ∈ (Query.not q).parts := List.mem_cons_of_mem _ mem_parts_self
    exact ⟨exists_error_of_mem_parts (hright _ _) he, exists_error_of_mem_parts (hright _ _) he,
      exists_error_of_mem_parts hoperand he⟩

/-- The comparison fails although `or` is decided before, and the unknown property comes too
late. -/
theorem evaluate_in_postorder_labels :
    let schema : Schema := .object [] []
    let comparison : Query :=
      .binary (.compare .lt) (.literal (.string "a")) (.literal (.integer 1))
    let q : Query := .binary .and (.binary .or (.literal (.boolean true)) comparison)
      (.resolve [.property "label"])
    let e : Error := .typeMismatch (.notOrdered .lt .string .integer)
    q.depth ≤ ({} : Limits).maxDepth ∧ comparison.evaluate {} .null schema = .error e ∧
      q.evaluate {} .null schema = .error e ∧
      ∃ e', (Query.not comparison).evaluate {} .null schema = .error e' := by
  intro schema comparison q e
  have hdepth : q.depth ≤ ({} : Limits).maxDepth := by decide
  have hcomparison : comparison.evaluate {} .null schema = .error e := rfl
  refine ⟨hdepth, hcomparison, ?_, ?_⟩
  · refine (((evaluate_in_postorder q .null schema {}).1 hdepth).2 e).mpr ?_
    refine ⟨[.literal (.boolean true), .literal (.string "a"), .literal (.integer 1)], comparison,
      _, rfl, fun t ht => ?_, hcomparison⟩
    simp only [List.mem_cons, List.not_mem_nil, or_false] at ht
    rcases ht with rfl | rfl | rfl
    · exact ⟨_, rfl⟩
    · exact ⟨_, rfl⟩
    · exact ⟨_, rfl⟩
  · exact ((evaluate_in_postorder comparison .null schema {}).2 e hcomparison).2.2

end RecordQuery.Query
