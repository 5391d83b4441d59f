import RecordQuery.Proofs.Documents
import RecordQuery.Proofs.Parts
import RecordQuery.Proofs.Reading

/-!
Queries through their written form. Exactly the queries with an array literal cannot be written. A
query that is written and read again is the same, as long as its depth is permitted, but for
infinities and NaN in literals and for properties that have the name of an item step
(`ofJson_of_toJson`).
-/

namespace RecordQuery

namespace Query

/-! ## What becomes of a query -/

/-- A property with the name of an item step becomes one. -/
def Step.normal : Step → Step
  | .property name => if name = itemText then .item else .property name
  | .item => .item

def normal : Query → Query
  | .literal v => .literal v.normal
  | .not operand => .not operand.normal
  | .binary op left right => .binary op left.normal right.normal
  | .resolve path => .resolve (path.map Step.normal)

theorem Step.normal_eq_self_iff {step : Step} :
    step.normal = step ↔ step ≠ .property itemText := by
  cases step with
  | item => exact ⟨fun _ => nofun, fun _ => rfl⟩
  | property name =>
    rw [normal]
    split
    · rename_i h
      exact ⟨nofun, fun hne => absurd (congrArg property h) hne⟩
    · rename_i h
      exact ⟨fun _ hname => h (property.inj hname), fun _ => rfl⟩

theorem map_normal_eq_self_iff {path : List Step} :
    path.map Step.normal = path ↔ .property Step.itemText ∉ path := by
  induction path with
  | nil => exact ⟨fun _ => List.not_mem_nil, fun _ => rfl⟩
  | cons step path ih =>
    rw [List.map_cons, List.cons.injEq, Step.normal_eq_self_iff, ih, List.mem_cons, not_or,
      ne_comm]

/-- Exactly the queries without the lossy corners stay as they are. -/
theorem normal_eq_self_iff {q : Query} : q.normal = q ↔
    (∀ v, .literal v ∈ q.parts → v.allFloats Binary64.isFinite = true) ∧
      ∀ path ∈ q.paths, .property Step.itemText ∉ path := by
  induction q with
  | literal v =>
    rw [normal, literal.injEq, Value.normal_eq_self_iff]
    simp [parts, paths]
  | not operand ih =>
    rw [normal, not.injEq, ih]
    simp [parts, paths]
  | binary op left right ihl ihr =>
    rw [normal, binary.injEq, ihl, ihr]
    simp only [parts, paths, List.mem_cons, List.mem_append, reduceCtorEq, false_or, true_and,
      or_imp, forall_and]
    exact and_and_and_comm
  | resolve path =>
    rw [normal, resolve.injEq, map_normal_eq_self_iff]
    simp [parts, paths]

/-! ## Writing -/

theorem toJson_literal {v : Value} (h : ∀ items, v ≠ .array items) :
    (literal v).toJson = .ok v.toJson := by
  cases v with
  | array items => exact absurd rfl (h items)
  | null | boolean | integer | float | string | object => rfl

/-- Only array literals cannot be written. -/
theorem toJson_eq_error {q : Query} {e : Error} (h : q.toJson = .error e) :
    e = .malformed .arrayLiteral ∧ ∃ items, .literal (.array items) ∈ q.parts := by
  induction q with
  | literal v =>
    cases v with
    | array items =>
      cases h
      exact ⟨rfl, items, mem_parts_self⟩
    | null | boolean | integer | float | string | object => cases h
  | not operand ih =>
    rcases bind_eq_error.mp h with h | ⟨_, _, h⟩
    · obtain ⟨he, items, hitems⟩ := ih h
      exact ⟨he, items, List.mem_cons_of_mem _ hitems⟩
    · cases h
  | binary op left right ihl ihr =>
    rcases bind_eq_error.mp h with h | ⟨_, _, h⟩
    · obtain ⟨he, items, hitems⟩ := ihl h
      exact ⟨he, items, List.mem_cons_of_mem _ (List.mem_append_left _ hitems)⟩
    · rcases bind_eq_error.mp h with h | ⟨_, _, h⟩
      · obtain ⟨he, items, hitems⟩ := ihr h
        exact ⟨he, items, List.mem_cons_of_mem _ (List.mem_append_right _ hitems)⟩
      · cases h
  | resolve path => cases h

theorem toJson_ne_ok {q : Query} {items : List Value} (h : .literal (.array items) ∈ q.parts)
    (document : Json) : q.toJson ≠ .ok document := by
  induction q generalizing document with
  | literal v =>
    cases List.mem_singleton.mp h
    exact nofun
  | not operand ih =>
    intro hok
    obtain ⟨d, hd, _⟩ := bind_eq_ok.mp hok
    rcases List.mem_cons.mp h with h | h
    · cases h
    · exact ih h d hd
  | binary op left right ihl ihr =>
    intro hok
    obtain ⟨l, hl, hok⟩ := bind_eq_ok.mp hok
    obtain ⟨r, hr, _⟩ := bind_eq_ok.mp hok
    rcases List.mem_cons.mp h with h | h
    · cases h
    · rcases List.mem_append.mp h with h | h
      · exact ihl h l hl
      · exact ihr h r hr
  | resolve path => cases List.mem_singleton.mp h

theorem exists_toJson_eq_error_iff {q : Query} :
    (∃ e, q.toJson = .error e) ↔ ∃ items, .literal (.array items) ∈ q.parts := by
  constructor
  · rintro ⟨e, h⟩
    exact (toJson_eq_error h).2
  · rintro ⟨items, hitems⟩
    cases h : q.toJson with
    | error e => exact ⟨e, rfl⟩
    | ok document => exact absurd h (toJson_ne_ok hitems document)

/-! ## Reading -/

theorem Step.ofText_text (step : Step) : ofText step.text = step.normal := by
  cases step with
  | property name => rfl
  | item => rfl

theorem depth_normal (q : Query) : q.normal.depth = q.depth := by
  induction q with
  | literal v => rfl
  | not operand ih => rw [normal, depth, depth, ih]
  | binary op left right ihl ihr => rw [normal, depth, depth, ihl, ihr]
  | resolve path => rfl

/-- Documents of values that may be literals are not taken for calls. -/
theorem toJson_ne_array {v : Value} (h : ∀ items, v ≠ .array items) (documents : List Json) :
    v.toJson ≠ .array documents := by
  cases v with
  | array items => exact absurd rfl (h items)
  | float x =>
    rw [Value.toJson, Value.ofFloat]
    split
    · exact nofun
    · exact nofun
  | null | boolean | integer | string | object => exact nofun

/-- A written form stands for the query it is written from, but for the lossy corners. -/
theorem reads_of_toJson {q : Query} {document : Json} (h : q.toJson = .ok document) :
    Reads document q.normal := by
  induction q generalizing document with
  | literal v =>
    have hv : ∀ items, v ≠ .array items := by
      rintro items rfl
      cases h
    rw [toJson_literal hv] at h
    cases h
    rw [normal, ← Value.ofJson_toJson]
    exact .literal (toJson_ne_array hv)
  | not operand ih =>
    obtain ⟨d, hd, h⟩ := bind_eq_ok.mp h
    cases h
    exact .not (Operator.isToken_token _) (ih hd)
  | binary op left right ihl ihr =>
    obtain ⟨l, hl, h⟩ := bind_eq_ok.mp h
    obtain ⟨r, hr, h⟩ := bind_eq_ok.mp h
    cases h
    exact .binary (Operator.isToken_token _) (ihl hl) (ihr hr)
  | resolve path =>
    cases h
    have hread := Reads.resolve (Operator.isToken_token _) (path.map Step.text)
    rw [List.map_map, List.map_map] at hread
    rw [normal, ← funext Step.ofText_text]
    exact hread

/-- A written query is read again when its depth fits into the room. -/
theorem readWithin_of_toJson {limits : Limits} {room : Nat} {q : Query} {document : Json}
    (h : q.toJson = .ok document) : readWithin limits room document =
      if q.depth ≤ room then .ok q.normal
      else .error (.tooComplex (.nesting limits.maxDepth)) := by
  rw [readWithin_of_reads (reads_of_toJson h), depth_normal]

/-- **Writing and reading.** A query has a written form unless one of its literals is an array. Read
with any limits, this form is the query itself where the depth is permitted, and too complex where
it is not; it has null for infinities and NaN, and an item step for a property of that name. -/
theorem ofJson_of_toJson (q : Query) :
    ((∃ e, q.toJson = .error e) ↔ ∃ items, .literal (.array items) ∈ q.parts) ∧
    (∀ e, q.toJson = .error e → e = .malformed .arrayLiteral) ∧
    (∀ document, q.toJson = .ok document → ∀ limits, ofJson limits document =
      if q.depth ≤ limits.maxDepth then .ok q.normal
      else .error (.tooComplex (.nesting limits.maxDepth))) ∧
    (q.normal = q ↔ (∀ v, .literal v ∈ q.parts → v.allFloats Binary64.isFinite = true) ∧
      ∀ path ∈ q.paths, .property Step.itemText ∉ path) :=
  ⟨exists_toJson_eq_error_iff, fun _ h => (toJson_eq_error h).1,
    fun _ h _ => readWithin_of_toJson h, normal_eq_self_iff⟩

/-- An object is no array, whatever it contains. -/
example :
    let q : Query := .literal (.object (.ofList [("tags", .array [.string "a", .integer 1])]))
    ∃ document, q.toJson = .ok document ∧ ofJson {} document = .ok q :=
  ⟨_, rfl, rfl⟩

end Query

end RecordQuery
