import Mathlib.Data.Multiset.Basic
import RecordQuery.Proofs.Traversal
import RecordQuery.Query.Decision

/-!
The meaning of a query: the values it stands for, as a collection without an order. The meaning of a
path are the values at the positions it denotes, an operator asks whether some pair of values of its
operands is related, and there are no errors. Evaluation is sound for it: an outcome holds exactly
the values that the query means, whatever schema and limits led to it (`values_of_evaluate`).
-/

namespace RecordQuery

/-! ## Related values -/

namespace Value

instance (v : Value) : Decidable (v = .null) :=
  decidable_of_iff (v.kind = .null) (by cases v <;> simp [kind])

instance (v : Value) (b : Bool) : Decidable (v = .boolean b) :=
  decidable_of_iff (v.boolean? = some b) (by cases v <;> simp [boolean?])

/-- What `and` and `or` take: null, which counts as false, or a boolean. -/
def IsLogical (v : Value) : Prop := v.kind = .null ∨ v.kind = .boolean

instance (v : Value) : Decidable v.IsLogical := inferInstanceAs (Decidable (_ ∨ _))

end Value

/-- When a pair of values satisfies an operator, errors apart. -/
def BinaryOp.Relates : BinaryOp → Value → Value → Prop
  | .and, v, w => v = .boolean true ∧ w = .boolean true
  | .or, v, w => v.IsLogical ∧ w.IsLogical ∧ (v = .boolean true ∨ w = .boolean true)
  | .compare .eq, v, w => v.equals w = true
  | .compare c, v, w => v ≠ .null ∧ w ≠ .null ∧ ∃ o ∈ v.compare w, c.accepts o = true
  | .contains, v, w => v ≠ .null ∧ w ≠ .null ∧ v.contains w = some true

instance (op : BinaryOp) (v w : Value) : Decidable (op.Relates v w) :=
  match op with
  | .and => inferInstanceAs (Decidable (_ ∧ _))
  | .or => inferInstanceAs (Decidable (_ ∧ _))
  | .compare .eq => inferInstanceAs (Decidable (_ = _))
  | .compare .lt => inferInstanceAs (Decidable (_ ∧ _))
  | .compare .le => inferInstanceAs (Decidable (_ ∧ _))
  | .compare .gt => inferInstanceAs (Decidable (_ ∧ _))
  | .compare .ge => inferInstanceAs (Decidable (_ ∧ _))
  | .contains => inferInstanceAs (Decidable (_ ∧ _))

/-! ## Positions and meanings -/

/-- The positions one step below a value, by the values that stand there. -/
def Query.Step.targets : Query.Step → Value → List Value
  | .property name, .object fields => [(fields.get? name).getD .null]
  | .property _, .null => [.null]
  | .item, .array items => items
  | _, _ => []

/-- The positions that a path denotes. -/
def Query.targets : List Query.Step → Value → List Value
  | [], v => [v]
  | step :: path, v => (step.targets v).flatMap (targets path)

instance (b : Bool) (m : Multiset Value) : Decidable (.boolean b ∈ m) :=
  letI := Multiset.decidableExistsMultiset (m := m) (p := fun v => v = .boolean b)
  decidable_of_iff (∃ v ∈ m, v = .boolean b) (by simp)

instance (op : BinaryOp) (m n : Multiset Value) :
    Decidable (∃ v ∈ m, ∃ w ∈ n, op.Relates v w) :=
  letI (v : Value) := Multiset.decidableExistsMultiset (m := n) (p := op.Relates v)
  Multiset.decidableExistsMultiset

/-- The values that a query stands for. -/
def Query.meaning (data : Value) : Query → Multiset Value
  | .literal v => {v}
  | .not operand => {.boolean (decide (.boolean true ∉ operand.meaning data))}
  | .binary op left right =>
    {.boolean (decide (∃ v ∈ left.meaning data, ∃ w ∈ right.meaning data, op.Relates v w))}
  | .resolve path => targets path data

/-! ## Operators on one pair -/

namespace BinaryOp

variable {op : BinaryOp} {v w : Value}

theorem operand_eq_ok_iff {b : Bool} :
    op.operand v = .ok b ↔ v.IsLogical ∧ (b = true ↔ v = .boolean true) := by
  cases v with
  | null | boolean => cases b <;> simp [operand, Value.IsLogical, Value.kind]
  | integer | float | string | array | object => simp [operand, Value.IsLogical, Value.kind]

theorem compare_apply_eq_true_iff {c : Comparison} : c.apply v w = .ok true ↔
    v ≠ .null ∧ w ≠ .null ∧ ∃ o ∈ v.compare w, c.accepts o = true := by
  unfold Comparison.apply
  split
  · simp
  · simp
  · rename_i hv hw
    cases ho : v.compare w with
    | none => simp
    | some o =>
      constructor
      · intro h
        exact ⟨hv, hw, o, rfl, Except.ok.inj h⟩
      · rintro ⟨_, _, o', ho', h⟩
        cases ho'
        exact congrArg Except.ok h

theorem search_eq_true_iff :
    v.search w = .ok true ↔ v ≠ .null ∧ w ≠ .null ∧ v.contains w = some true := by
  unfold Value.search
  split
  · simp
  · simp
  · rename_i hv hw
    cases hc : v.contains w with
    | none => simp
    | some found =>
      constructor
      · intro h
        exact ⟨hv, hw, congrArg some (Except.ok.inj h)⟩
      · rintro ⟨_, _, h⟩
        exact congrArg Except.ok (Option.some.inj h)

/-- An operator accepts exactly the related pairs; on these it never fails. -/
theorem apply_eq_true_iff : op.apply v w = .ok true ↔ op.Relates v w := by
  cases op with
  | and =>
    simp only [apply, Relates, bind_eq_ok, operand_eq_ok_iff]
    constructor
    · rintro ⟨a, ⟨_, ha⟩, b, ⟨_, hb⟩, h⟩
      have hab : a = true ∧ b = true := by simpa using Except.ok.inj h
      exact ⟨ha.mp hab.1, hb.mp hab.2⟩
    · rintro ⟨rfl, rfl⟩
      exact ⟨true, ⟨Or.inr rfl, by simp⟩, true, ⟨Or.inr rfl, by simp⟩, rfl⟩
  | or =>
    simp only [apply, Relates, bind_eq_ok, operand_eq_ok_iff]
    constructor
    · rintro ⟨a, ⟨hv, ha⟩, b, ⟨hw, hb⟩, h⟩
      have hab : a = true ∨ b = true := by simpa using Except.ok.inj h
      exact ⟨hv, hw, hab.imp ha.mp hb.mp⟩
    · rintro ⟨hv, hw, ht⟩
      refine ⟨decide (v = .boolean true), ⟨hv, decide_eq_true_iff⟩,
        decide (w = .boolean true), ⟨hw, decide_eq_true_iff⟩, ?_⟩
      exact congrArg Except.ok (by simpa using ht)
  | compare c =>
    cases c with
    | eq => exact ⟨Except.ok.inj, congrArg Except.ok⟩
    | lt | le | gt | ge => exact compare_apply_eq_true_iff
  | contains => exact search_eq_true_iff

end BinaryOp

theorem Outcome.anyTrue_iff_mem {o : Outcome} :
    o.anyTrue = true ↔ .boolean true ∈ o.values := by
  simp only [anyTrue, List.any_eq_true]
  constructor
  · rintro ⟨v, hv, ht⟩
    cases v <;> simp_all [Value.boolean?]
  · intro hm
    exact ⟨_, hm, rfl⟩

/-! ## Walking a path -/

namespace Query

theorem flatMap_eq_of_forall₂ {f : Value → List Value} {vs ws : List Value}
    (h : List.Forall₂ (fun v w => f v = [w]) vs ws) : vs.flatMap f = ws := by
  induction h with
  | nil => rfl
  | cons hv _ ih => rw [List.flatMap_cons, hv, ih]; rfl

theorem field_eq_ok {walked : List Step} {name : String} {v w : Value}
    (h : field walked name v = .ok w) : (Step.property name).targets v = [w] := by
  cases v with
  | null | object =>
    cases h
    rfl
  | boolean | integer | float | string | array => cases h

theorem elements_eq_ok {walked : List Step} {v : Value} {vs : List Value}
    (h : elements walked v = .ok vs) : Step.item.targets v = vs := by
  cases v with
  | null | array =>
    cases h
    rfl
  | boolean | integer | float | string | object => cases h

/-- One step goes to the positions it denotes, below all the values that were reached. -/
theorem enter_eq_ok {walked : List Step} {node child : Schema} {here there : Outcome} {step : Step}
    (h : enter walked node here step = .ok (child, there)) :
    there.values = here.values.flatMap step.targets ∧
      (there.isBroadcast = true ↔ here.isBroadcast = true ∨ step = .item) := by
  unfold enter at h
  split at h
  · split at h
    · cases h
    · obtain ⟨o, ho, h⟩ := bind_eq_ok.mp h
      cases h
      obtain ⟨hshape, hvalues⟩ := Outcome.mapM_eq_ok ho
      refine ⟨(flatMap_eq_of_forall₂ (hvalues.imp fun _ _ => field_eq_ok)).symm, ?_⟩
      simp [hshape]
  · split at h
    · obtain ⟨vs, hvs, h⟩ := bind_eq_ok.mp h
      cases h
      refine ⟨?_, by simp [Outcome.isBroadcast]⟩
      simp [Outcome.values, elements_eq_ok hvs]
    · cases h
  · cases h
  · cases h
  · cases h

/-- A walk ends at the positions that the path denotes; it crosses an array where an item step
stands. -/
theorem walk_eq_ok {walked : List Step} {node : Schema} {here o : Outcome} {path : List Step}
    (h : walk walked node here path = .ok o) :
    o.values = here.values.flatMap (targets path) ∧
      (o.isBroadcast = true ↔ here.isBroadcast = true ∨ .item ∈ path) := by
  induction path generalizing walked node here with
  | nil =>
    cases h
    exact ⟨(List.flatMap_singleton' _).symm, by simp⟩
  | cons step path ih =>
    obtain ⟨⟨child, there⟩, hstep, hrest⟩ := bind_eq_ok.mp h
    obtain ⟨hvalues, hshape⟩ := enter_eq_ok hstep
    obtain ⟨ihvalues, ihshape⟩ := ih hrest
    constructor
    · rw [ihvalues, hvalues, List.flatMap_assoc]
      rfl
    · rw [ihshape, hshape, List.mem_cons, or_assoc, eq_comm (a := step)]

theorem resolvePath_eq_ok {limits : Limits} {path : List Step} {data : Value} {schema : Schema}
    {o : Outcome} (h : resolvePath limits path data schema = .ok o) :
    o.values = targets path data ∧ (o.isBroadcast = true ↔ .item ∈ path) := by
  unfold resolvePath at h
  split at h
  · cases h
  · obtain ⟨hvalues, hshape⟩ := walk_eq_ok h
    exact ⟨by simpa [Outcome.values] using hvalues, by simpa [Outcome.isBroadcast] using hshape⟩

/-! ## Evaluation -/

theorem anyTrue_iff {o : Outcome} {m : Multiset Value} (h : (o.values : Multiset Value) = m) :
    o.anyTrue = true ↔ .boolean true ∈ m := by
  subst h
  rw [Outcome.anyTrue_iff_mem, Multiset.mem_coe]

theorem evaluateWithin_binary {limits : Limits} {data : Value} {schema : Schema} {room : Nat}
    {op : BinaryOp} {left right : Query} {l r : Outcome}
    (hl : evaluateWithin limits data schema room left = .ok l)
    (hr : evaluateWithin limits data schema room right = .ok r) :
    evaluateWithin limits data schema (room + 1) (.binary op left right) =
      (l.anyPair op.apply r).map .ofBool := by
  rw [evaluateWithin, hl, hr]
  show (l.anyPair op.apply r >>= fun b => pure (Outcome.ofBool b)) = _
  cases l.anyPair op.apply r with
  | error e => rfl
  | ok b => rfl

/-- What an evaluation yields does not depend on the room that is left. -/
theorem evaluateWithin_mono {limits : Limits} {data : Value} {schema : Schema} {room more : Nat}
    {q : Query} {o : Outcome} (hroom : room ≤ more)
    (h : evaluateWithin limits data schema room q = .ok o) :
    evaluateWithin limits data schema more q = .ok o := by
  induction q generalizing room more o with
  | literal v | resolve path =>
    cases room with
    | zero => cases h
    | succ room =>
      obtain ⟨more, rfl⟩ := Nat.exists_eq_add_of_le' (Nat.lt_of_lt_of_le room.succ_pos hroom)
      exact h
  | not operand ih =>
    cases room with
    | zero => cases h
    | succ room =>
      obtain ⟨more, rfl⟩ := Nat.exists_eq_add_of_le' (Nat.lt_of_lt_of_le room.succ_pos hroom)
      obtain ⟨x, hx, h⟩ := bind_eq_ok.mp h
      exact bind_eq_ok.mpr ⟨x, ih (Nat.le_of_succ_le_succ hroom) hx, h⟩
  | binary op left right ihl ihr =>
    cases room with
    | zero => cases h
    | succ room =>
      obtain ⟨more, rfl⟩ := Nat.exists_eq_add_of_le' (Nat.lt_of_lt_of_le room.succ_pos hroom)
      have hmore := Nat.le_of_succ_le_succ hroom
      obtain ⟨l, hl, h⟩ := bind_eq_ok.mp h
      obtain ⟨r, hr, h⟩ := bind_eq_ok.mp h
      exact bind_eq_ok.mpr ⟨l, ihl hmore hl, bind_eq_ok.mpr ⟨r, ihr hmore hr, h⟩⟩

/-- An outcome holds the values that the query means, whatever room was left for it. -/
theorem evaluateWithin_eq_ok {limits : Limits} {data : Value} {schema : Schema} {room : Nat}
    {q : Query} {o : Outcome} (h : evaluateWithin limits data schema room q = .ok o) :
    (o.values : Multiset Value) = q.meaning data := by
  induction q generalizing room o with
  | literal v =>
    cases room with
    | zero => cases h
    | succ room =>
      cases h
      rfl
  | not operand ih =>
    cases room with
    | zero => cases h
    | succ room =>
      obtain ⟨x, hx, h⟩ := bind_eq_ok.mp h
      cases h
      have ht := anyTrue_iff (ih hx)
      rw [meaning, Outcome.values_ofBool, Multiset.coe_singleton]
      congr 2
      rw [Bool.eq_iff_iff, decide_eq_true_iff, ← ht]
      simp
  | binary op left right ihl ihr =>
    cases room with
    | zero => cases h
    | succ room =>
      obtain ⟨l, hl, h⟩ := bind_eq_ok.mp h
      obtain ⟨r, hr, h⟩ := bind_eq_ok.mp h
      obtain ⟨b, hb, h⟩ := bind_eq_ok.mp h
      cases h
      rw [meaning, Outcome.values_ofBool, Multiset.coe_singleton]
      congr 2
      rw [Bool.eq_iff_iff, decide_eq_true_iff, Outcome.anyPair_eq_ok hb, ← ihl hl, ← ihr hr]
      simp only [BinaryOp.apply_eq_true_iff, Multiset.mem_coe]
  | resolve path =>
    cases room with
    | zero => cases h
    | succ room => exact congrArg _ (resolvePath_eq_ok h).1

/-- Operators yield one boolean, and paths yield a broadcast where they cross an array. -/
theorem evaluateWithin_shape {limits : Limits} {data : Value} {schema : Schema} {room : Nat}
    {q : Query} {o : Outcome} (h : evaluateWithin limits data schema room q = .ok o) :
    (∀ op, q.operator? = some op → op ≠ .resolve → ∃ b, o = .scalar (.boolean b)) ∧
      (o.isBroadcast = true ↔ ∃ path, q = .resolve path ∧ .item ∈ path) := by
  cases room with
  | zero => cases h
  | succ room =>
    cases q with
    | literal v =>
      cases h
      exact ⟨fun op hop => (nomatch hop), by simp [Outcome.isBroadcast]⟩
    | not operand =>
      obtain ⟨x, _, h⟩ := bind_eq_ok.mp h
      cases h
      exact ⟨fun op _ _ => ⟨_, rfl⟩, by simp⟩
    | binary op left right =>
      obtain ⟨l, _, h⟩ := bind_eq_ok.mp h
      obtain ⟨r, _, h⟩ := bind_eq_ok.mp h
      obtain ⟨b, _, h⟩ := bind_eq_ok.mp h
      cases h
      exact ⟨fun op _ _ => ⟨_, rfl⟩, by simp⟩
    | resolve path =>
      refine ⟨fun op hop hne => ?_, by simp [(resolvePath_eq_ok h).2]⟩
      cases hop
      exact absurd rfl hne

theorem holds_of_accepted {validate : Schema.Validator} {limits : Limits} {data : Value}
    {schema : Schema} {q : Query} (h : validate data schema = .ok ()) :
    q.holds validate limits data schema = (q.evaluate limits data schema).map Outcome.anyTrue := by
  rw [holds, evaluateChecked, h]

/-- **Soundness of evaluation.** An outcome holds the values that the query means, each as often as
the query means it. Calls of operators but `resolve` yield one boolean, and exactly the paths with
an item step yield a broadcast. So a record that passes its check matches when the query means
`true`, among others. -/
theorem values_of_evaluate {limits : Limits} {data : Value} {schema : Schema} {q : Query}
    {o : Outcome} (h : q.evaluate limits data schema = .ok o) :
    (o.values : Multiset Value) = q.meaning data ∧
      (∀ op, q.operator? = some op → op ≠ .resolve → ∃ b, o = .scalar (.boolean b)) ∧
      (o.isBroadcast = true ↔ ∃ path, q = .resolve path ∧ .item ∈ path) ∧
      ∀ validate : Schema.Validator, validate data schema = .ok () →
        q.holds validate limits data schema = .ok (decide (.boolean true ∈ q.meaning data)) := by
  have hvalues := evaluateWithin_eq_ok h
  obtain ⟨hcall, hbroadcast⟩ := evaluateWithin_shape h
  refine ⟨hvalues, hcall, hbroadcast, fun validate hvalid => ?_⟩
  have ht : o.anyTrue = decide (.boolean true ∈ q.meaning data) := by
    rw [Bool.eq_iff_iff, anyTrue_iff hvalues, decide_eq_true_iff]
  rw [holds_of_accepted hvalid, h, Except.map, ht]

/-- A call over a broadcast with an absent value yields the boolean that it means. -/
theorem values_of_evaluate_labels :
    let data : Value := .object (.ofList [("items", .array
      [.object .nil, .object (.ofList [("label", .string "a")])])])
    let schema : Schema := .object [("items", .array (.object [("label", .scalar .string)] []))] []
    let labels : Query := .resolve [.property "items", .item, .property "label"]
    let q : Query := .binary .and (.binary (.compare .eq) labels (.literal (.string "a")))
      (.not (.binary .contains labels (.literal (.string "b"))))
    q.evaluate {} data schema = .ok (.ofBool true) ∧
      ((Outcome.ofBool true).values : Multiset Value) = q.meaning data := by
  intro data schema labels q
  have h : q.evaluate {} data schema = .ok (.ofBool true) := rfl
  exact ⟨h, (values_of_evaluate h).1⟩

end Query

end RecordQuery
