import RecordQuery.Proofs.Admission
import RecordQuery.Proofs.Pairs

/-!
The boolean connectives. A negation turns a decision around, and any number of them does so as often
as they stand there (`holds_negated`); errors pass through. On operands that hold booleans and nulls
`and` asks for a true value on both sides (`LogicalOn.decides_and`), and `or` for one on some side,
with values on both (`LogicalOn.decides_or`). The laws of Boolean algebra follow; where `or` takes
part, some need that no operand is an empty broadcast (`evaluate_connectives`).
-/

namespace RecordQuery

namespace Outcome

@[simp] theorem anyTrue_ofBool (b : Bool) : (ofBool b).anyTrue = b := by
  cases b <;> rfl

theorem values_ofBool_ne_nil (b : Bool) : (ofBool b).values ≠ [] := List.cons_ne_nil _ _

end Outcome

namespace Query

variable {validate : Schema.Validator} {limits : Limits} {data : Value} {schema : Schema}
  {p q r : Query} {l m o : Outcome}

/-! ## Negation -/

theorem depth_negated (n : Nat) (q : Query) : (negated n q).depth = n + q.depth := by
  induction n with
  | zero => rw [negated, Nat.zero_add]
  | succ n ih => rw [negated, depth, ih, Nat.add_right_comm]

/-- One negation looks at the boolean on which the decision of its operand rests. -/
theorem holds_not (h : (Query.not q).depth ≤ limits.maxDepth) :
    (Query.not q).holds validate limits data schema =
      (q.holds validate limits data schema).map fun matched => !matched := by
  cases hcheck : validate data schema with
  | error rejection =>
    have hrejected (s : Query) : s.holds validate limits data schema =
        .error (.invalidData (.rejected rejection)) :=
      holds_eq_error_iff.mpr (evaluateChecked_of_rejected hcheck)
    rw [hrejected, hrejected, Except.map]
  | ok _ =>
    rw [holds_of_accepted hcheck, holds_of_accepted hcheck, evaluate_not h]
    cases q.evaluate limits data schema with
    | error e => rfl
    | ok o => exact congrArg Except.ok (Outcome.anyTrue_ofBool !o.anyTrue)

/-- Within the permitted depth `n` negations turn a decision around when `n` is odd, and leave an
error as it is. -/
theorem holds_negated_of_depth {n : Nat} (h : n + q.depth ≤ limits.maxDepth) :
    (negated n q).holds validate limits data schema =
      (q.holds validate limits data schema).map fun matched =>
        if n % 2 = 0 then matched else !matched := by
  induction n with
  | zero =>
    cases hq : q.holds validate limits data schema with
    | error e => rw [negated, hq, Except.map]
    | ok matched => rw [negated, hq]; rfl
  | succ n ih =>
    have hdepth : (Query.not (negated n q)).depth ≤ limits.maxDepth := by
      rw [depth, depth_negated]
      omega
    rw [negated, holds_not hdepth, ih (by omega)]
    cases q.holds validate limits data schema with
    | error e => rfl
    | ok matched =>
      rcases Nat.mod_two_eq_zero_or_one n with hn | hn <;>
        simp [Except.map, hn, Nat.add_mod]

theorem exists_holds_eq_error (h : limits.maxDepth < q.depth)
    (haccepted : validate data schema = .ok ()) :
    ∃ e, q.holds validate limits data schema = .error e := by
  rw [holds_of_accepted haccepted]
  cases hq : q.evaluate limits data schema with
  | error e => exact ⟨e, rfl⟩
  | ok o => exact absurd (admits_of_evaluateWithin hq).1 (Nat.not_le.mpr h)

/-- **Negation.** Whatever the check is, under any number of negations that the limits permit a
query is decided as without them, or the other way round when their number is odd, and every error
is the one that the query has. One negation too many is an error on every record that passes the
check. -/
theorem holds_negated (validate : Schema.Validator) (limits : Limits) (data : Value)
    (schema : Schema) (q : Query) (n : Nat) :
    (n + q.depth ≤ limits.maxDepth →
      (negated n q).holds validate limits data schema =
        (q.holds validate limits data schema).map fun matched =>
          if n % 2 = 0 then matched else !matched) ∧
    (limits.maxDepth < n + q.depth → validate data schema = .ok () →
      ∃ e, (negated n q).holds validate limits data schema = .error e) := by
  refine ⟨holds_negated_of_depth, fun hdepth haccepted => ?_⟩
  rw [← depth_negated] at hdepth
  exact exists_holds_eq_error hdepth haccepted

/-- Three negations of a broadcast fill the permitted depth, and a fourth one exceeds it. -/
theorem holds_negated_flags :
    let limits : Limits := { maxDepth := 4 }
    let data : Value := .array [.null, .boolean true]
    let schema : Schema := .array (.scalar .boolean)
    let validate : Schema.Validator := fun _ _ => .ok ()
    let q : Query := .resolve [.item]
    3 + q.depth ≤ limits.maxDepth ∧
      (negated 3 q).holds validate limits data schema = .ok false ∧
      limits.maxDepth < 4 + q.depth ∧ validate data schema = .ok () ∧
      ∃ e, (negated 4 q).holds validate limits data schema = .error e := by
  intro limits data schema validate q
  have hthree : 3 + q.depth ≤ limits.maxDepth := by decide
  have hfour : limits.maxDepth < 4 + q.depth := by decide
  have hholds := (holds_negated validate limits data schema q 3).1 hthree
  exact ⟨hthree, hholds, hfour, rfl, (holds_negated validate limits data schema q 4).2 hfour rfl⟩

/-! ## Depths of calls -/

section

variable {op op' : BinaryOp} {n : Nat}

theorem depth_comm : (Query.binary op p q).depth = (Query.binary op q p).depth := by
  rw [depth, depth, Nat.max_comm]

/-- Negating the operands takes as much depth as negating the call. -/
theorem depth_binary_not :
    (Query.not (.binary op p q)).depth = (Query.binary op' (.not p) (.not q)).depth := by
  simp only [depth]
  omega

theorem depth_of_binary (h : (Query.binary op p q).depth ≤ n) : p.depth ≤ n ∧ q.depth ≤ n := by
  rw [depth] at h
  omega

theorem depth_of_not_binary (h : (Query.not (.binary op p q)).depth ≤ n) :
    (Query.binary op p q).depth ≤ n ∧ (Query.not p).depth ≤ n ∧ (Query.not q).depth ≤ n := by
  simp only [depth] at h ⊢
  omega

end

/-! ## Conjunction and disjunction -/

/-- A query is evaluated, and all its values are booleans and nulls. -/
structure LogicalOn (limits : Limits) (data : Value) (schema : Schema) (q : Query) (o : Outcome) :
    Prop where
  evaluated : q.evaluate limits data schema = .ok o
  logical : ∀ v ∈ o.values, v.IsLogical

/-- A query is evaluated to one boolean, which decides the record once it passes its check. -/
structure Decides (limits : Limits) (data : Value) (schema : Schema) (q : Query) (b : Bool) :
    Prop where
  evaluated : q.evaluate limits data schema = .ok (.ofBool b)
  decided (validate : Schema.Validator) (accepted : validate data schema = .ok ()) :
    q.holds validate limits data schema = .ok b

/-- Two queries are evaluated to the same boolean. -/
def SameDecision (limits : Limits) (data : Value) (schema : Schema) (q r : Query) : Prop :=
  ∃ b, q.Decides limits data schema b ∧ r.Decides limits data schema b

theorem decides_of_evaluate {b : Bool} (h : q.evaluate limits data schema = .ok (.ofBool b)) :
    q.Decides limits data schema b where
  evaluated := h
  decided _ accepted := by
    rw [holds_of_accepted accepted, h, Except.map, Outcome.anyTrue_ofBool]

theorem Decides.logicalOn {b : Bool} (h : q.Decides limits data schema b) :
    q.LogicalOn limits data schema (.ofBool b) where
  evaluated := h.evaluated
  logical _ hv := List.mem_singleton.mp hv ▸ Or.inr rfl

/-- A call of an operator has one boolean as its value. -/
theorem decides_of_call {op : Operator} (hop : q.operator? = some op) (hne : op ≠ .resolve)
    (h : q.evaluate limits data schema = .ok o) :
    ∃ b, o = .ofBool b ∧ q.Decides limits data schema b := by
  obtain ⟨b, rfl⟩ := (evaluateWithin_shape h).1 op hop hne
  exact ⟨b, rfl, decides_of_evaluate h⟩

namespace LogicalOn

theorem decides_not (hp : p.LogicalOn limits data schema l)
    (hdepth : (Query.not p).depth ≤ limits.maxDepth) :
    (Query.not p).Decides limits data schema (!l.anyTrue) := by
  refine decides_of_evaluate ?_
  rw [evaluate_not hdepth, hp.evaluated]
  rfl

/-- Both connectives have an answer: whether they relate some pair of values. -/
theorem decides_binary {op : BinaryOp} (hop : op = .and ∨ op = .or)
    (hp : p.LogicalOn limits data schema l) (hq : q.LogicalOn limits data schema m)
    (hdepth : (Query.binary op p q).depth ≤ limits.maxDepth) :
    ∃ b, (Query.binary op p q).Decides limits data schema b ∧
      (b = true ↔ ∃ v ∈ l.values, ∃ w ∈ m.values, op.Relates v w) := by
  have hadmits : ∀ v ∈ l.values, ∀ w ∈ m.values, op.Admits (.ofValue v) (.ofValue w) := by
    intro v hv w hw
    have hleft := Kind.isLogical_ofValue_iff.mpr (hp.logical v hv)
    have hright := Kind.isLogical_ofValue_iff.mpr (hq.logical w hw)
    rcases hop with rfl | rfl
    · exact ⟨hleft, hright⟩
    · exact ⟨hleft, hright⟩
  obtain ⟨b, hb, hiff⟩ := Outcome.anyPair_of_admits hadmits
  refine ⟨b, decides_of_evaluate ?_, hiff⟩
  rw [evaluate_binary_of_ok hdepth hp.evaluated hq.evaluated, hb]
  rfl

theorem decides_and (hp : p.LogicalOn limits data schema l)
    (hq : q.LogicalOn limits data schema m)
    (hdepth : (Query.binary .and p q).depth ≤ limits.maxDepth) :
    (Query.binary .and p q).Decides limits data schema (l.anyTrue && m.anyTrue) := by
  obtain ⟨b, hb, hiff⟩ := hp.decides_binary (Or.inl rfl) hq hdepth
  have hvalue : b = (l.anyTrue && m.anyTrue) := by
    rw [Bool.eq_iff_iff, hiff, Bool.and_eq_true, Outcome.anyTrue_iff_mem, Outcome.anyTrue_iff_mem]
    simp [BinaryOp.Relates]
  exact hvalue ▸ hb

/-- An operand without values leaves `or` without a pair, whatever the other one is. -/
theorem decides_or (hp : p.LogicalOn limits data schema l)
    (hq : q.LogicalOn limits data schema m)
    (hdepth : (Query.binary .or p q).depth ≤ limits.maxDepth) :
    (Query.binary .or p q).Decides limits data schema
      (!l.values.isEmpty && !m.values.isEmpty && (l.anyTrue || m.anyTrue)) := by
  obtain ⟨b, hb, hiff⟩ := hp.decides_binary (Or.inr rfl) hq hdepth
  have hvalue : b = (!l.values.isEmpty && !m.values.isEmpty && (l.anyTrue || m.anyTrue)) := by
    rw [Bool.eq_iff_iff, hiff]
    simp only [Bool.and_eq_true, Bool.or_eq_true, Outcome.anyTrue_iff_mem, Bool.not_eq_true',
      List.isEmpty_eq_false_iff_exists_mem]
    -- the other value of a related pair may be any, so it only shows that its side has values
    constructor
    · rintro ⟨v, hv, w, hw, -, -, rfl | rfl⟩
      · exact ⟨⟨⟨_, hv⟩, ⟨w, hw⟩⟩, Or.inl hv⟩
      · exact ⟨⟨⟨v, hv⟩, ⟨_, hw⟩⟩, Or.inr hw⟩
    · rintro ⟨⟨⟨v, hv⟩, ⟨w, hw⟩⟩, htrue | htrue⟩
      · exact ⟨_, htrue, w, hw, Or.inr rfl, hq.logical w hw, Or.inl rfl⟩
      · exact ⟨v, hv, _, htrue, hp.logical v hv, Or.inr rfl, Or.inr rfl⟩
  exact hvalue ▸ hb

theorem decides_or_of_ne_nil (hp : p.LogicalOn limits data schema l)
    (hq : q.LogicalOn limits data schema m) (hl : l.values ≠ []) (hm : m.values ≠ [])
    (hdepth : (Query.binary .or p q).depth ≤ limits.maxDepth) :
    (Query.binary .or p q).Decides limits data schema (l.anyTrue || m.anyTrue) := by
  have hor := hp.decides_or hq hdepth
  rw [List.isEmpty_eq_false_iff.mpr hl, List.isEmpty_eq_false_iff.mpr hm] at hor
  exact hor

/-! ## Boolean algebra -/

theorem and_comm (hp : p.LogicalOn limits data schema l) (hq : q.LogicalOn limits data schema m)
    (hdepth : (Query.binary .and p q).depth ≤ limits.maxDepth) :
    SameDecision limits data schema (.binary .and p q) (.binary .and q p) := by
  have hswapped : (Query.binary .and q p).depth ≤ limits.maxDepth := depth_comm ▸ hdepth
  refine ⟨_, hp.decides_and hq hdepth, ?_⟩
  rw [Bool.and_comm]
  exact hq.decides_and hp hswapped

theorem or_comm (hp : p.LogicalOn limits data schema l) (hq : q.LogicalOn limits data schema m)
    (hdepth : (Query.binary .or p q).depth ≤ limits.maxDepth) :
    SameDecision limits data schema (.binary .or p q) (.binary .or q p) := by
  have hswapped : (Query.binary .or q p).depth ≤ limits.maxDepth := depth_comm ▸ hdepth
  refine ⟨_, hp.decides_or hq hdepth, ?_⟩
  rw [Bool.and_comm (!l.values.isEmpty), Bool.or_comm]
  exact hq.decides_or hp hswapped

theorem not_and (hp : p.LogicalOn limits data schema l) (hq : q.LogicalOn limits data schema m)
    (hdepth : (Query.not (.binary .and p q)).depth ≤ limits.maxDepth) :
    SameDecision limits data schema (.not (.binary .and p q)) (.binary .or (.not p) (.not q)) := by
  obtain ⟨hcall, hnp, hnq⟩ := depth_of_not_binary hdepth
  have hnot := (hp.decides_and hq hcall).logicalOn.decides_not hdepth
  have hp' := (hp.decides_not hnp).logicalOn
  have hq' := (hq.decides_not hnq).logicalOn
  have hor := hp'.decides_or_of_ne_nil hq' (Outcome.values_ofBool_ne_nil _)
    (Outcome.values_ofBool_ne_nil _) (depth_binary_not ▸ hdepth)
  simp only [Outcome.anyTrue_ofBool] at hnot hor
  rw [Bool.not_and] at hnot
  exact ⟨_, hnot, hor⟩

theorem not_or (hp : p.LogicalOn limits data schema l) (hq : q.LogicalOn limits data schema m)
    (hl : l.values ≠ []) (hm : m.values ≠ [])
    (hdepth : (Query.not (.binary .or p q)).depth ≤ limits.maxDepth) :
    SameDecision limits data schema (.not (.binary .or p q)) (.binary .and (.not p) (.not q)) := by
  obtain ⟨hcall, hnp, hnq⟩ := depth_of_not_binary hdepth
  have hnot := (hp.decides_or_of_ne_nil hq hl hm hcall).logicalOn.decides_not hdepth
  have hp' := (hp.decides_not hnp).logicalOn
  have hq' := (hq.decides_not hnq).logicalOn
  have hand := hp'.decides_and hq' (depth_binary_not ▸ hdepth)
  simp only [Outcome.anyTrue_ofBool] at hnot hand
  rw [Bool.not_or] at hnot
  exact ⟨_, hnot, hand⟩

theorem and_assoc (hp : p.LogicalOn limits data schema l) (hq : q.LogicalOn limits data schema m)
    (hr : r.LogicalOn limits data schema o)
    (hfirst : (Query.binary .and (.binary .and p q) r).depth ≤ limits.maxDepth)
    (hlast : (Query.binary .and p (.binary .and q r)).depth ≤ limits.maxDepth) :
    SameDecision limits data schema (.binary .and (.binary .and p q) r)
      (.binary .and p (.binary .and q r)) := by
  have hpq := hp.decides_and hq (depth_of_binary hfirst).1
  have hqr := hq.decides_and hr (depth_of_binary hlast).2
  have hleft := hpq.logicalOn.decides_and hr hfirst
  have hright := hp.decides_and hqr.logicalOn hlast
  simp only [Outcome.anyTrue_ofBool] at hleft hright
  rw [Bool.and_assoc] at hleft
  exact ⟨_, hleft, hright⟩

theorem or_assoc (hp : p.LogicalOn limits data schema l) (hq : q.LogicalOn limits data schema m)
    (hr : r.LogicalOn limits data schema o)
    (hl : l.values ≠ []) (hm : m.values ≠ []) (ho : o.values ≠ [])
    (hfirst : (Query.binary .or (.binary .or p q) r).depth ≤ limits.maxDepth)
    (hlast : (Query.binary .or p (.binary .or q r)).depth ≤ limits.maxDepth) :
    SameDecision limits data schema (.binary .or (.binary .or p q) r)
      (.binary .or p (.binary .or q r)) := by
  have hpq := hp.decides_or_of_ne_nil hq hl hm (depth_of_binary hfirst).1
  have hqr := hq.decides_or_of_ne_nil hr hm ho (depth_of_binary hlast).2
  have hleft := hpq.logicalOn.decides_or_of_ne_nil hr (Outcome.values_ofBool_ne_nil _) ho hfirst
  have hright := hp.decides_or_of_ne_nil hqr.logicalOn hl (Outcome.values_ofBool_ne_nil _) hlast
  simp only [Outcome.anyTrue_ofBool] at hleft hright
  rw [Bool.or_assoc] at hleft
  exact ⟨_, hleft, hright⟩

end LogicalOn

/-- **The connectives.** On operands that are evaluated to booleans and nulls, as calls of operators
are, `and` and `or` have answers: `and` is true when both operands have a true value, and `or` when
some operand has one and no operand is without values. So they commute, and `and` is associative and
turned into `or` by negation. Where no operand is without values, `or` is associative as well and
turned into `and`. This is said of each query that the permitted depth admits. -/
theorem evaluate_connectives {limits : Limits} {data : Value} {schema : Schema} {p q : Query}
    {l m : Outcome} (hp : p.LogicalOn limits data schema l)
    (hq : q.LogicalOn limits data schema m) :
    (∀ (s : Query) (op : Operator) (x : Outcome), s.operator? = some op → op ≠ .resolve →
      s.evaluate limits data schema = .ok x →
        s.LogicalOn limits data schema x ∧ x.values ≠ []) ∧
    ((Query.binary .and p q).depth ≤ limits.maxDepth →
      (∃ b, (Query.binary .and p q).Decides limits data schema b ∧
        (b = true ↔ .boolean true ∈ l.values ∧ .boolean true ∈ m.values)) ∧
      SameDecision limits data schema (.binary .and p q) (.binary .and q p)) ∧
    ((Query.binary .or p q).depth ≤ limits.maxDepth →
      (∃ b, (Query.binary .or p q).Decides limits data schema b ∧
        (b = true ↔ (l.values ≠ [] ∧ m.values ≠ []) ∧
          (.boolean true ∈ l.values ∨ .boolean true ∈ m.values))) ∧
      SameDecision limits data schema (.binary .or p q) (.binary .or q p)) ∧
    ((Query.not (.binary .and p q)).depth ≤ limits.maxDepth →
      SameDecision limits data schema (.not (.binary .and p q))
        (.binary .or (.not p) (.not q))) ∧
    ((Query.not (.binary .or p q)).depth ≤ limits.maxDepth → l.values ≠ [] → m.values ≠ [] →
      SameDecision limits data schema (.not (.binary .or p q))
        (.binary .and (.not p) (.not q))) ∧
    ∀ r o, r.LogicalOn limits data schema o →
      ((Query.binary .and (.binary .and p q) r).depth ≤ limits.maxDepth →
        (Query.binary .and p (.binary .and q r)).depth ≤ limits.maxDepth →
        SameDecision limits data schema (.binary .and (.binary .and p q) r)
          (.binary .and p (.binary .and q r))) ∧
      ((Query.binary .or (.binary .or p q) r).depth ≤ limits.maxDepth →
        (Query.binary .or p (.binary .or q r)).depth ≤ limits.maxDepth →
        l.values ≠ [] → m.values ≠ [] → o.values ≠ [] →
        SameDecision limits data schema (.binary .or (.binary .or p q) r)
          (.binary .or p (.binary .or q r))) := by
  refine ⟨fun s op x hop hne hx => ?_, fun hdepth => ⟨⟨_, hp.decides_and hq hdepth, ?_⟩, ?_⟩,
    fun hdepth => ⟨⟨_, hp.decides_or hq hdepth, ?_⟩, ?_⟩, hp.not_and hq,
    fun hdepth hl hm => hp.not_or hq hl hm hdepth, fun r o hr => ⟨hp.and_assoc hq hr, ?_⟩⟩
  · obtain ⟨b, rfl, hb⟩ := decides_of_call hop hne hx
    exact ⟨hb.logicalOn, Outcome.values_ofBool_ne_nil b⟩
  · rw [Bool.and_eq_true, Outcome.anyTrue_iff_mem, Outcome.anyTrue_iff_mem]
  · exact hp.and_comm hq hdepth
  · simp only [Bool.and_eq_true, Bool.or_eq_true, Outcome.anyTrue_iff_mem, Bool.not_eq_true',
      List.isEmpty_eq_false_iff]
  · exact hp.or_comm hq hdepth
  · exact fun hfirst hlast hl hm ho => hp.or_assoc hq hr hl hm ho hfirst hlast

/-- `or` of an empty broadcast and `true` is false, and on other operands both laws of negation
hold. -/
theorem evaluate_connectives_flags :
    let data : Value := .object (.ofList
      [("flags", .array [.null, .boolean false]), ("none", .array [])])
    let flag : Schema := .array (.scalar .boolean)
    let schema : Schema := .object [("flags", flag), ("none", flag)] []
    let flags : Query := .resolve [.property "flags", .item]
    let none : Query := .resolve [.property "none", .item]
    let yes : Query := .literal (.boolean true)
    flags.LogicalOn {} data schema (.broadcast [.null, .boolean false]) ∧
      none.LogicalOn {} data schema (.broadcast []) ∧
      yes.LogicalOn {} data schema (.scalar (.boolean true)) ∧
      (Query.binary .or none yes).Decides {} data schema false ∧
      (Query.binary .or flags yes).Decides {} data schema true ∧
      SameDecision {} data schema (.not (.binary .and flags yes))
        (.binary .or (.not flags) (.not yes)) ∧
      SameDecision {} data schema (.not (.binary .or flags yes))
        (.binary .and (.not flags) (.not yes)) := by
  intro data flag schema flags none yes
  have hflags : flags.LogicalOn {} data schema (.broadcast [.null, .boolean false]) := by
    refine ⟨rfl, fun v hv => ?_⟩
    rcases List.mem_pair.mp hv with rfl | rfl
    · exact Or.inl rfl
    · exact Or.inr rfl
  have hnone : none.LogicalOn {} data schema (.broadcast []) := ⟨rfl, nofun⟩
  have hyes : yes.LogicalOn {} data schema (.scalar (.boolean true)) := by
    refine ⟨rfl, fun v hv => ?_⟩
    cases List.mem_singleton.mp hv
    exact Or.inr rfl
  obtain ⟨-, -, hempty, -⟩ := evaluate_connectives hnone hyes
  obtain ⟨-, -, hor, hnotAnd, hnotOr, -⟩ := evaluate_connectives hflags hyes
  obtain ⟨⟨a, ha, hfalse⟩, -⟩ := hempty (by decide)
  obtain ⟨⟨b, hb, htrue⟩, -⟩ := hor (by decide)
  have hfalse : a = false := by simpa [Outcome.values] using hfalse
  have htrue : b = true := by simpa [Outcome.values] using htrue
  have hf : Outcome.values (.broadcast [.null, .boolean false]) ≠ [] := List.cons_ne_nil _ _
  have hy : Outcome.values (.scalar (.boolean true)) ≠ [] := List.cons_ne_nil _ _
  exact ⟨hflags, hnone, hyes, hfalse ▸ ha, htrue ▸ hb, hnotAnd (by decide),
    hnotOr (by decide) hf hy⟩

end Query

end RecordQuery
