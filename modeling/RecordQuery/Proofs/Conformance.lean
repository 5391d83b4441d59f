import RecordQuery.Proofs.ExactValues
import RecordQuery.Proofs.Traversal
import RecordQuery.Query.Path

/-!
Conformance of values to schemas, said without the tests that a check makes. A scalar stands for
values of one kind, and a double is an integer when the rational it denotes is one
(`Scalar.accepts_iff_takes`). A check accepts what conforms and rejects all else
(`structural_eq_ok_iff_conforms`). Below a value that conforms stand values that conform to the
schemas below, or nothing (`Fits.field`, `Fits.elements`).
-/

namespace RecordQuery

namespace Schema

/-- The values that a scalar of a schema stands for. -/
inductive Scalar.Takes : Scalar → Value → Prop
  | string (s : String) : Takes .string (.string s)
  | boolean (b : Bool) : Takes .boolean (.boolean b)
  | numberInteger (n : Int64) : Takes .number (.integer n)
  | numberFloat (x : Binary64) : Takes .number (.float x)
  | integer (n : Int64) : Takes .integer (.integer n)
  | whole {x : Binary64} (n : ℤ) (finite : x.isFinite = true) (value : x.value = n) :
      Takes .integer (.float x)

/-- A value is as a schema says. Required names need not be declared, each of two declarations of
one name counts, and undeclared fields may be anything. -/
inductive Conforms : Schema → Value → Prop
  | scalar {kind : Scalar} {v : Value} (takes : kind.Takes v) : Conforms (.scalar kind) v
  | array {items : Schema} {elements : List Value} (each : ∀ v ∈ elements, Conforms items v) :
      Conforms (.array items) (.array elements)
  | object {properties : List (String × Schema)} {required : List String} {fields : Fields none}
      (present : ∀ name ∈ required, (fields.get? name).isSome)
      (declared : ∀ p ∈ properties, ∀ v, fields.get? p.1 = some v → Conforms p.2 v) :
      Conforms (.object properties required) (.object fields)

theorem Scalar.accepts_iff_takes {kind : Scalar} {v : Value} :
    kind.accepts v = true ↔ kind.Takes v := by
  constructor
  · intro h
    cases kind with
    | string =>
      cases v with
      | string s => exact .string s
      | null | boolean | integer | float | array | object => cases h
    | boolean =>
      cases v with
      | boolean b => exact .boolean b
      | null | string | integer | float | array | object => cases h
    | number =>
      cases v with
      | integer n => exact .numberInteger n
      | float x => exact .numberFloat x
      | null | boolean | string | array | object => cases h
    | integer =>
      cases v with
      | integer n => exact .integer n
      | float x =>
        obtain ⟨hfinite, n, hn⟩ := Binary64.isWhole_iff_exists_value.mp h
        exact .whole n hfinite hn
      | null | boolean | string | array | object => cases h
  · intro h
    cases h with
    | string | boolean | numberInteger | numberFloat | integer => rfl
    | whole n finite value => exact Binary64.isWhole_iff_exists_value.mpr ⟨finite, n, value⟩

theorem Conforms.ne_null {schema : Schema} {v : Value} (h : schema.Conforms v) : v ≠ .null := by
  rintro rfl
  cases h with
  | scalar takes => cases takes

theorem Conforms.of_array {schema : Schema} {elements : List Value}
    (h : schema.Conforms (.array elements)) :
    ∃ items, schema = .array items ∧ ∀ v ∈ elements, items.Conforms v := by
  cases h with
  | array each => exact ⟨_, rfl, each⟩
  | scalar takes => cases takes

theorem Conforms.of_object {schema : Schema} {fields : Fields none}
    (h : schema.Conforms (.object fields)) :
    ∃ properties required, schema = .object properties required ∧
      (∀ name ∈ required, (fields.get? name).isSome) ∧
      ∀ p ∈ properties, ∀ v, fields.get? p.1 = some v → p.2.Conforms v := by
  cases h with
  | object present declared => exact ⟨_, _, rfl, present, declared⟩
  | scalar takes => cases takes

theorem firstViolation_array_eq_none_iff {items : Schema} {elements : List Value} :
    firstViolation (.array items) (.array elements) = none ↔
      ∀ v ∈ elements, items.firstViolation v = none := by
  rw [firstViolation, List.findSome?_eq_none_iff]
  constructor
  · intro h v hv
    obtain ⟨i, hi⟩ := List.getElem?_of_mem hv
    simpa using h (v, i) (List.mem_zipIdx_iff_getElem?.mpr hi)
  · rintro h ⟨v, i⟩ hv
    simp [h v (List.mem_of_getElem? (List.mem_zipIdx_iff_getElem?.mp hv))]

theorem firstViolation_object_eq_none_iff {properties : List (String × Schema)}
    {required : List String} {fields : Fields none} :
    firstViolation (.object properties required) (.object fields) = none ↔
      (∀ name ∈ required, (fields.get? name).isSome) ∧
        firstInProperties properties fields = none := by
  rw [firstViolation]
  cases hm : required.find? fun name => (fields.get? name).isNone with
  | some name =>
    have hname := List.find?_some hm
    constructor
    · intro h
      cases h
    · rintro ⟨h, _⟩
      have hsome := h name (List.mem_of_find?_eq_some hm)
      simp [Option.isNone_iff_eq_none.mp hname] at hsome
  | none =>
    have hpresent : ∀ name ∈ required, (fields.get? name).isSome := by
      simpa [Option.isSome_iff_ne_none] using List.find?_eq_none.mp hm
    exact ⟨fun h => ⟨hpresent, h⟩, fun h => h.2⟩

mutual

/-- A check finds no violation exactly in the values that conform. -/
theorem firstViolation_eq_none_iff :
    ∀ (schema : Schema) (v : Value), schema.firstViolation v = none ↔ schema.Conforms v
  | .object properties required, .object fields => by
    rw [firstViolation_object_eq_none_iff, firstInProperties_eq_none_iff]
    constructor
    · rintro ⟨hr, hp⟩
      exact .object hr hp
    · intro h
      cases h with
      | object hr hp => exact ⟨hr, hp⟩
  | .array items, .array elements => by
    rw [firstViolation_array_eq_none_iff]
    constructor
    · intro h
      exact .array fun v hv => (firstViolation_eq_none_iff items v).mp (h v hv)
    · intro h
      cases h with
      | array each => exact fun v hv => (firstViolation_eq_none_iff items v).mpr (each v hv)
  | .scalar kind, v => by
    rw [firstViolation]
    constructor
    · intro h
      split at h
      · exact .scalar (Scalar.accepts_iff_takes.mp ‹_›)
      · cases h
    · intro h
      cases h with
      | scalar takes => rw [if_pos (Scalar.accepts_iff_takes.mpr takes)]
  | .object _ _, .null | .object _ _, .boolean _ | .object _ _, .integer _ | .object _ _, .float _
  | .object _ _, .string _ | .object _ _, .array _ | .array _, .null | .array _, .boolean _
  | .array _, .integer _ | .array _, .float _ | .array _, .string _ | .array _, .object _ =>
    ⟨fun h => (nomatch h), fun h => (nomatch h)⟩

theorem firstInProperties_eq_none_iff :
    ∀ (properties : List (String × Schema)) (fields : Fields none),
      firstInProperties properties fields = none ↔
        ∀ p ∈ properties, ∀ v, fields.get? p.1 = some v → p.2.Conforms v
  | [], fields => by simp [firstInProperties]
  | (name, schema) :: rest, fields => by
    rw [firstInProperties, List.forall_mem_cons, ← firstInProperties_eq_none_iff rest fields]
    cases hv : fields.get? name with
    | none => simp
    | some v =>
      simp only [Option.bind_some, Option.some.injEq, forall_eq']
      rw [← firstViolation_eq_none_iff schema v]
      cases schema.firstViolation v with
      | none => simp
      | some _ => simp

end

theorem structural_eq_ok_iff {schema : Schema} {data : Value} :
    structural data schema = .ok () ↔ schema.Conforms data := by
  rw [← firstViolation_eq_none_iff]
  unfold structural
  cases schema.firstViolation data with
  | none => simp
  | some _ => simp

/-- **The check decides conformance.** It accepts exactly the values that conform to the schema, and
null conforms to no schema. -/
theorem structural_eq_ok_iff_conforms (schema : Schema) (data : Value) :
    (structural data schema = .ok () ↔ schema.Conforms data) ∧ ¬ schema.Conforms .null :=
  ⟨structural_eq_ok_iff, fun h => h.ne_null rfl⟩

/-! ## Values below -/

/-- What may stand at a schema node below a record: null where something is absent. -/
def Fits (node : Schema) (v : Value) : Prop := v = .null ∨ node.Conforms v

theorem mem_of_property?_eq_some {properties : List (String × Schema)} {required : List String}
    {name : String} {child : Schema}
    (h : (object properties required).property? name = some child) :
    (name, child) ∈ properties := by
  obtain ⟨p, hp, rfl⟩ := Option.map_eq_some_iff.mp h
  have hname : p.1 = name := by simpa using List.find?_some hp
  exact hname ▸ List.mem_of_find?_eq_some hp

theorem Fits.field {properties : List (String × Schema)} {required : List String}
    {name : String} {child : Schema} {v : Value} (h : (object properties required).Fits v)
    (hchild : (object properties required).property? name = some child)
    (walked : List Query.Step) :
    ∃ w, Query.field walked name v = .ok w ∧ child.Fits w := by
  rcases h with rfl | h
  · exact ⟨.null, rfl, Or.inl rfl⟩
  · cases h with
    | @object _ _ fields _ declared =>
      refine ⟨_, rfl, ?_⟩
      cases hv : fields.get? name with
      | none => exact Or.inl rfl
      | some w => exact Or.inr (declared _ (mem_of_property?_eq_some hchild) w hv)

theorem Fits.elements {items : Schema} {v : Value} (h : (array items).Fits v)
    (walked : List Query.Step) :
    ∃ vs, Query.elements walked v = .ok vs ∧ ∀ w ∈ vs, items.Fits w := by
  rcases h with rfl | h
  · exact ⟨[], rfl, fun w hw => absurd hw List.not_mem_nil⟩
  · cases h with
    | array each => exact ⟨_, rfl, fun w hw => Or.inr (each w hw)⟩

end Schema

end RecordQuery
