import RecordQuery.Proofs.Causes

/-!
Faults of queries. A query is faultless if it is not too deep and each of its paths leads to a node
of the schema, which no record has a part in. On records that are accepted nothing hides a fault,
neither an empty array nor a property that is absent nor a pair that decides early
(`faultless_of_evaluate`), and without a fault only operands can be wrong
(`evaluate_of_faultless`).
-/

namespace RecordQuery.Query

/-- The depth is permitted, and each path leads to a node of the schema. -/
def Faultless (limits : Limits) (schema : Schema) (q : Query) : Prop :=
  q.depth ≤ limits.maxDepth ∧ ∀ path ∈ q.paths, ∃ node, destination limits path schema = .ok node

section

variable {limits : Limits} {data : Value} {schema : Schema} {q : Query}

/-- On records that conform an outcome shows that there is no fault. -/
theorem faultless_of_evaluate {o : Outcome} (hdata : schema.Conforms data)
    (h : q.evaluate limits data schema = .ok o) : q.Faultless limits schema := by
  obtain ⟨hdepth, hpaths⟩ := resolves_of_evaluateWithin h
  refine ⟨hdepth, fun path hpath => ?_⟩
  obtain ⟨there, hthere⟩ := hpaths path hpath
  cases hroute : destination limits path schema with
  | error e =>
    have herror := (resolvePath_of_conforms hdata).1 e hroute
    cases hthere.symm.trans herror
  | ok node => exact ⟨node, rfl⟩

/-- On records that conform all that is wrong with a faultless query is the kind of an operand. -/
theorem typeMismatch_of_faultless {e : Error} (hdata : schema.Conforms data)
    (hq : q.Faultless limits schema) (h : q.evaluate limits data schema = .error e) :
    ∃ cause, e = .typeMismatch cause := by
  cases evaluateWithin_eq_error h with
  | nesting hdeep => exact absurd hq.1 (Nat.not_le.mpr hdeep)
  | path mem hpath =>
    obtain ⟨node, hnode⟩ := hq.2 _ mem
    obtain ⟨there, hthere, _⟩ := (resolvePath_of_conforms hdata).2 node hnode
    cases hpath.symm.trans hthere
  | operands cause => exact ⟨cause, rfl⟩

theorem evaluate_of_faultless (hdata : schema.Conforms data) (hq : q.Faultless limits schema) :
    (∃ o, q.evaluate limits data schema = .ok o) ∨
      ∃ cause, q.evaluate limits data schema = .error (.typeMismatch cause) := by
  cases h : q.evaluate limits data schema with
  | ok o => exact Or.inl ⟨o, rfl⟩
  | error e =>
    obtain ⟨cause, rfl⟩ := typeMismatch_of_faultless hdata hq h
    exact Or.inr ⟨cause, rfl⟩

end

/-- **Faults of a query.** Between two records that a schema accepts a query can differ in its types
only. If it fails on one of them, and not for the types of its operands, it fails on the other. If
it has an outcome on one of them, on the other it has an outcome or fails for the types of its
operands. -/
theorem faults_independent_of_record (q : Query) (limits : Limits) (schema : Schema)
    (data data' : Value) (hdata : Schema.structural data schema = .ok ())
    (hdata' : Schema.structural data' schema = .ok ()) :
    (∀ e, q.evaluate limits data schema = .error e → (∀ cause, e ≠ .typeMismatch cause) →
      ∃ e', q.evaluate limits data' schema = .error e') ∧
    ∀ o, q.evaluate limits data schema = .ok o →
      (∃ o', q.evaluate limits data' schema = .ok o') ∨
        ∃ cause, q.evaluate limits data' schema = .error (.typeMismatch cause) := by
  have hconforms := Schema.structural_eq_ok_iff.mp hdata
  have hconforms' := Schema.structural_eq_ok_iff.mp hdata'
  constructor
  · intro e he hother
    cases h' : q.evaluate limits data' schema with
    | error e' => exact ⟨e', rfl⟩
    | ok o' =>
      have hq := faultless_of_evaluate hconforms' h'
      obtain ⟨cause, hcause⟩ := typeMismatch_of_faultless hconforms hq he
      exact absurd hcause (hother cause)
  · intro o ho
    exact evaluate_of_faultless hconforms' (faultless_of_evaluate hconforms ho)

/-- An empty array hides the operand that is a label, not the step below a label. -/
theorem faults_independent_of_record_labels :
    let data : Value := .object (.ofList [("labels", .array [])])
    let data' : Value := .object (.ofList [("labels", .array [.string "a"])])
    let schema : Schema := .object [("labels", .array (.scalar .string))] ["labels"]
    let labels : List Step := [.property "labels", .item]
    let q : Query := .binary .and
      (.binary .and (.resolve labels) (.literal (.boolean true)))
      (.resolve (labels ++ [.property "size"]))
    Schema.structural data schema = .ok () ∧ Schema.structural data' schema = .ok () ∧
      q.evaluate {} data schema = .error (.intoScalar "size") ∧
      ∃ e', q.evaluate {} data' schema = .error e' := by
  intro data data' schema labels q
  have haccepted : Schema.structural data schema = .ok () := rfl
  have haccepted' : Schema.structural data' schema = .ok () := rfl
  have hfault : q.evaluate {} data schema = .error (.intoScalar "size") := rfl
  have hother : ∀ cause, Error.intoScalar "size" ≠ .typeMismatch cause := by
    intro cause h
    cases h
  refine ⟨haccepted, haccepted', hfault, ?_⟩
  exact (faults_independent_of_record q {} schema data data' haccepted haccepted').1 _ hfault hother

end RecordQuery.Query
