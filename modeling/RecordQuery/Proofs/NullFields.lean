import RecordQuery.Proofs.Parallel

/-!
Fields that hold null. Stripping deletes them, at any depth, and leaves null items of arrays where
they are. What a step finds in a stripped value is what it finds in the value, stripped
(`field_strip`, `elements_strip`), so a path through a record cannot tell an absent field from one
that holds null (`resolvePath_strip`).
-/

namespace RecordQuery

/-! ## Stripping -/

/-- No field below a name has this name. -/
theorem Fields.get?_of_low {name : String} (rest : Fields (some name)) : rest.get? name = none := by
  cases h : rest.get? name with
  | none => rfl
  | some v =>
    have hmem := Fields.get?_eq_some_iff.mp h
    exact absurd (Fields.above_of_mem_toList rfl rest _ hmem) (String.lt_irrefl name)

namespace Value

mutual

/-- A value without the fields that hold null, at any depth. Null items stay. -/
def strip : Value → Value
  | .array items => .array (stripItems items)
  | .object fields => .object (stripFields fields)
  | v => v
termination_by structural v => v

def stripItems : List Value → List Value
  | [] => []
  | v :: rest => v.strip :: stripItems rest
termination_by structural vs => vs

def stripFields {low : Option String} : Fields low → Fields none
  | .nil => .nil
  | .cons name _ v rest =>
    if v = .null then stripFields rest
    else (stripFields rest).insert name (Fields.above_none name) v.strip
termination_by structural fields => fields

end

theorem stripItems_eq_map (items : List Value) : stripItems items = items.map strip := by
  induction items with
  | nil => rfl
  | cons v rest ih => rw [stripItems, List.map_cons, ih]

/-- A field stays unless it holds null, and what it holds is stripped. -/
theorem get?_stripFields {name : String} : ∀ {low : Option String} (fields : Fields low),
    (stripFields fields).get? name =
      ((fields.get? name).filter fun v => decide (v ≠ .null)).map strip
  | _, .nil => rfl
  | _, .cons key _ v rest => by
    have hrest : (stripFields rest).get? name =
        ((rest.get? name).filter fun v => decide (v ≠ .null)).map strip := get?_stripFields rest
    by_cases hnull : v = .null
    · rw [stripFields, if_pos hnull, hrest, Fields.get?]
      by_cases hname : name = key
      · subst hname
        simp [Fields.get?_of_low rest, hnull]
      · rw [if_neg hname]
    · rw [stripFields, if_neg hnull, Fields.get?_insert, hrest, Fields.get?]
      by_cases hname : name = key
      · simp [hname, hnull]
      · rw [if_neg hname, if_neg hname]

end Value

namespace Query

/-! ## Steps -/

variable {walked : List Step} {name : String}

theorem field_strip (v : Value) :
    field walked name v.strip = (field walked name v).map Value.strip := by
  cases v with
  | null | boolean | integer | float | string | array => rfl
  | object fields =>
    rw [Value.strip, field, field, Value.get?_stripFields, Except.map]
    refine congrArg Except.ok ?_
    cases fields.get? name with
    | none => rfl
    | some w =>
      by_cases hnull : w = .null
      · subst hnull
        rfl
      · simp [Option.filter, hnull]

theorem elements_strip (v : Value) :
    elements walked v.strip = (elements walked v).map (List.map Value.strip) := by
  cases v with
  | null | boolean | integer | float | string | object => rfl
  | array items =>
    rw [Value.strip, elements, elements, Value.stripItems_eq_map]
    rfl

/-! ## Paths -/

/-- No step tells a value from itself stripped, whatever node it stands at. -/
theorem pathCongruence_strip : PathCongruence (· = ·) fun _ v w => v.strip = w where
  error _ := rfl
  field {walked node child name v w} _ h := by
    subst h
    rw [field_strip]
    exact .map_self (fun _ => rfl) _
  elements {walked items v w} h := by
    subst h
    rw [elements_strip]
    refine .map_self (fun vs => ?_) _
    exact List.forall₂_map_right_iff.mpr (List.forall₂_same.mpr fun _ _ => rfl)

theorem resolvePath_strip (limits : Limits) (path : List Step) (data : Value) (schema : Schema) :
    resolvePath limits path data.strip schema =
      (resolvePath limits path data schema).map (Outcome.map Value.strip) := by
  have hrun : Parallel (· = ·) _ (resolvePath limits path data schema)
      (resolvePath limits path data.strip schema) := pathCongruence_strip.resolvePath rfl
  refine (hrun.mono ?_).map_eq.symm
  rintro o o' ⟨_, _, ho⟩
  exact ho.map_eq

/-- **Absent and null fields.** On a stripped record a path fails as it does on the record itself,
with the same error, or it has the same outcome with each value stripped. So records that differ
only in whether fields are absent or null are the same to every path, be they accepted or not: it
fails on both with one error, or its outcomes differ only in that way. -/
theorem resolvePath_absent_or_null (limits : Limits) (path : List Step) (data : Value)
    (schema : Schema) :
    resolvePath limits path data.strip schema =
      (resolvePath limits path data schema).map (Outcome.map Value.strip) ∧
    ∀ data' : Value, data.strip = data'.strip →
      (resolvePath limits path data schema).map (Outcome.map Value.strip) =
        (resolvePath limits path data' schema).map (Outcome.map Value.strip) := by
  refine ⟨resolvePath_strip limits path data schema, fun data' hstrip => ?_⟩
  rw [← resolvePath_strip, ← resolvePath_strip, hstrip]

/-- Stripping deletes null fields, inside values as well, and keeps null items. A path finds what is
left. -/
example :
    let items (nested : Fields none) : Value :=
      .array [.null, .object (.ofList [("label", .object nested)])]
    let data : Value := .object (.ofList
      [("items", items (.ofList [("text", .null)])), ("note", .null)])
    let schema : Schema :=
      .object [("items", .array (.object [("label", .object [] [])] []))] []
    let path : List Step := [.property "items", .item, .property "label"]
    data.strip = .object (.ofList [("items", items .nil)]) ∧
      resolvePath {} path data.strip schema = .ok (.broadcast [.null, .object .nil]) :=
  ⟨rfl, rfl⟩

end Query

end RecordQuery
