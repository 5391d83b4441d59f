import RecordQuery.Proofs.Conformance

/-!
Violations at any place of a record. A check finds the first one: all that it passes before conforms
(`firstViolation_eq_some_iff`), and down the record and the schema in step its place leads to a
value that is at fault at its own node (`First.leads`, `First.mismatched`). Below a record that
conforms nothing is at fault (`Leads.conforms`, `Conforms.not_mismatched`).
-/

namespace RecordQuery.Schema

/-- A way down a record and a schema in step, by declared properties and by items. -/
inductive Leads : Schema → Value → List Segment → Schema → Value → Prop
  | here (schema : Schema) (v : Value) : Leads schema v [] schema v
  | field {properties : List (String × Schema)} {required : List String} {fields : Fields none}
      {name : String} {child node : Schema} {v w : Value} {position : List Segment}
      (declared : (name, child) ∈ properties) (present : fields.get? name = some v)
      (below : Leads child v position node w) :
      Leads (.object properties required) (.object fields) (.field name :: position) node w
  | item {items node : Schema} {elements : List Value} {index : Nat} {v w : Value}
      {position : List Segment} (present : elements[index]? = some v)
      (below : Leads items v position node w) :
      Leads (.array items) (.array elements) (.item index :: position) node w

/-- A value is of the kind of a node, whatever stands below. -/
inductive TakesKind : Schema → Value → Prop
  | object (properties : List (String × Schema)) (required : List String) (fields : Fields none) :
      TakesKind (.object properties required) (.object fields)
  | array (items : Schema) (elements : List Value) : TakesKind (.array items) (.array elements)
  | scalar {kind : Scalar} {v : Value} (takes : kind.Takes v) : TakesKind (.scalar kind) v

/-- What is wrong with a value at a node itself. -/
inductive Mismatched : Schema → Value → Mismatch → Prop
  | missing {properties : List (String × Schema)} {required : List String} {fields : Fields none}
      {name : String} (mem : name ∈ required) (absent : fields.get? name = none) :
      Mismatched (.object properties required) (.object fields) (.missing name)
  | wrongKind {node : Schema} {v : Value} (other : ¬ node.TakesKind v) :
      Mismatched node v (.wrongKind node.kind v.kind)

/-- Something is wrong at the place of a violation, the first one or not. -/
def Violates (schema : Schema) (data : Value) (x : Violation) : Prop :=
  ∃ node v, Leads schema data x.position node v ∧ Mismatched node v x.mismatch

/-- A violation before which all conforms. -/
inductive First : Schema → Value → Violation → Prop
  | missing {properties : List (String × Schema)} {front back : List String} {fields : Fields none}
      {name : String} (before : ∀ n ∈ front, (fields.get? n).isSome)
      (absent : fields.get? name = none) :
      First (.object properties (front ++ name :: back)) (.object fields) ⟨[], .missing name⟩
  | wrongKind {node : Schema} {v : Value} (other : ¬ node.TakesKind v) :
      First node v ⟨[], .wrongKind node.kind v.kind⟩
  | field {front back : List (String × Schema)} {required : List String} {fields : Fields none}
      {name : String} {child : Schema} {v : Value} {position : List Segment} {m : Mismatch}
      (complete : ∀ n ∈ required, (fields.get? n).isSome)
      (before : ∀ p ∈ front, ∀ u, fields.get? p.1 = some u → p.2.Conforms u)
      (present : fields.get? name = some v) (below : First child v ⟨position, m⟩) :
      First (.object (front ++ (name, child) :: back) required) (.object fields)
        ⟨.field name :: position, m⟩
  | item {items : Schema} {front back : List Value} {v : Value} {position : List Segment}
      {m : Mismatch} (before : ∀ u ∈ front, items.Conforms u)
      (below : First items v ⟨position, m⟩) :
      First (.array items) (.array (front ++ v :: back)) ⟨.item front.length :: position, m⟩

variable {schema node : Schema} {data v : Value} {x y : Violation} {m : Mismatch}
  {position : List Segment}

/-! ## The search -/

/-- A search by index stops at an element when it passes all before it. -/
theorem findSome?_zipIdx_eq_some_iff {α β : Type} {f : α × Nat → Option β} {l : List α} {b : β} :
    l.zipIdx.findSome? f = some b ↔ ∃ front a back, l = front ++ a :: back ∧
      f (a, front.length) = some b ∧ ∀ p ∈ front.zipIdx, f p = none := by
  rw [List.findSome?_eq_some_iff]
  constructor
  · rintro ⟨l₁, p, l₂, hl, hp, hnone⟩
    obtain ⟨front, rest, rfl, rfl, hrest⟩ := List.zipIdx_eq_append_iff.mp hl
    obtain ⟨a, back, rfl, rfl, -⟩ := List.zipIdx_eq_cons_iff.mp hrest.symm
    exact ⟨front, a, back, rfl, by simpa using hp, hnone⟩
  · rintro ⟨front, a, back, rfl, ha, hnone⟩
    exact ⟨front.zipIdx, (a, front.length), back.zipIdx (front.length + 1),
      by simp [List.zipIdx_append], ha, hnone⟩

theorem find?_missing_eq_none_iff {required : List String} {fields : Fields none} :
    (required.find? fun n => (fields.get? n).isNone) = none ↔
      ∀ n ∈ required, (fields.get? n).isSome := by
  rw [List.find?_eq_none]
  simp only [Bool.not_eq_true, Option.isNone_eq_false_iff]

theorem firstInProperties_append {front back : List (String × Schema)} {fields : Fields none}
    (hfront : ∀ p ∈ front, ∀ u, fields.get? p.1 = some u → p.2.Conforms u) :
    firstInProperties (front ++ back) fields = firstInProperties back fields := by
  induction front with
  | nil => rfl
  | cons p front ih =>
    obtain ⟨hp, hfront⟩ := List.forall_mem_cons.mp hfront
    have hpass : (fields.get? p.1).bind p.2.firstViolation = none := by
      rw [Option.bind_eq_none_iff]
      exact fun u hu => (firstViolation_eq_none_iff p.2 u).mpr (hp u hu)
    rw [List.cons_append, firstInProperties, hpass]
    exact ih hfront

theorem firstViolation_of_not_takesKind (h : ¬ node.TakesKind v) :
    node.firstViolation v = some ⟨[], .wrongKind node.kind v.kind⟩ := by
  cases node with
  | object properties required =>
    cases v with
    | object fields => exact absurd (.object properties required fields) h
    | null | boolean | integer | float | string | array => rfl
  | array items =>
    cases v with
    | array elements => exact absurd (.array items elements) h
    | null | boolean | integer | float | string | object => rfl
  | scalar kind =>
    rw [firstViolation, if_neg fun haccepts => h (.scalar (Scalar.accepts_iff_takes.mp haccepts))]
    rfl

theorem First.firstViolation_eq (h : First schema v x) : schema.firstViolation v = some x := by
  induction h with
  | @missing _ front back fields name before absent =>
    have hfind : (front ++ name :: back).find? (fun n => (fields.get? n).isNone) = some name := by
      rw [List.find?_eq_some_iff_append]
      refine ⟨by rw [absent]; rfl, front, back, rfl, fun n hn => ?_⟩
      simpa using before n hn
    rw [firstViolation, hfind]
  | wrongKind other => exact firstViolation_of_not_takesKind other
  | field complete before present _ ih =>
    rw [firstViolation, find?_missing_eq_none_iff.mpr complete]
    dsimp only
    rw [firstInProperties_append before, firstInProperties, present, Option.bind_some, ih]
    rfl
  | @item items front back v _ _ before _ ih =>
    rw [firstViolation, findSome?_zipIdx_eq_some_iff]
    refine ⟨front, v, back, rfl, ?_, ?_⟩
    · dsimp only
      rw [ih]
      rfl
    · rintro ⟨u, i⟩ hu
      have hmem := List.mem_of_getElem? (List.mem_zipIdx_iff_getElem?.mp hu)
      simp [(firstViolation_eq_none_iff items u).mpr (before u hmem)]

mutual

theorem first_of_firstViolation :
    ∀ (schema : Schema) (v : Value) (x : Violation), schema.firstViolation v = some x →
      First schema v x
  | .object properties required, .object fields, x, h => by
    rw [firstViolation] at h
    cases hfind : required.find? fun n => (fields.get? n).isNone with
    | some name =>
      rw [hfind] at h
      cases h
      obtain ⟨habsent, front, back, rfl, hfront⟩ := List.find?_eq_some_iff_append.mp hfind
      refine .missing (fun n hn => ?_) (Option.isNone_iff_eq_none.mp habsent)
      simpa using hfront n hn
    | none =>
      rw [hfind] at h
      have hcomplete := find?_missing_eq_none_iff.mp hfind
      exact first_of_firstInProperties properties [] required fields x hcomplete nofun h
  | .array items, .array elements, x, h => by
    rw [firstViolation, findSome?_zipIdx_eq_some_iff] at h
    obtain ⟨front, v, back, rfl, hv, hfront⟩ := h
    obtain ⟨y, hy, rfl⟩ := Option.map_eq_some_iff.mp hv
    refine .item (fun u hu => ?_) (first_of_firstViolation items v y hy)
    obtain ⟨i, hi⟩ := List.getElem?_of_mem hu
    have hpass := hfront (u, i) (List.mem_zipIdx_iff_getElem?.mpr hi)
    exact (firstViolation_eq_none_iff items u).mp (Option.map_eq_none_iff.mp hpass)
  | .scalar kind, v, x, h => by
    rw [firstViolation] at h
    split at h
    · cases h
    · rename_i hrejects
      cases h
      refine .wrongKind fun htakes => hrejects ?_
      cases htakes with
      | scalar takes => exact Scalar.accepts_iff_takes.mpr takes
  | .object _ _, .null, x, h | .object _ _, .boolean _, x, h | .object _ _, .integer _, x, h
  | .object _ _, .float _, x, h | .object _ _, .string _, x, h | .object _ _, .array _, x, h
  | .array _, .null, x, h | .array _, .boolean _, x, h | .array _, .integer _, x, h
  | .array _, .float _, x, h | .array _, .string _, x, h | .array _, .object _, x, h => by
    cases h
    exact .wrongKind nofun

/-- The properties searched so far stand in front of those that are left. -/
theorem first_of_firstInProperties :
    ∀ (properties front : List (String × Schema)) (required : List String) (fields : Fields none)
      (x : Violation), (∀ n ∈ required, (fields.get? n).isSome) →
      (∀ p ∈ front, ∀ u, fields.get? p.1 = some u → p.2.Conforms u) →
      firstInProperties properties fields = some x →
      First (.object (front ++ properties) required) (.object fields) x
  | [], _, _, _, _, _, _, h => nomatch h
  | (name, child) :: rest, front, required, fields, x, hcomplete, hfront, h => by
    rw [firstInProperties] at h
    cases hfound : (fields.get? name).bind child.firstViolation with
    | some y =>
      rw [hfound] at h
      cases h
      obtain ⟨v, hv, hy⟩ := Option.bind_eq_some_iff.mp hfound
      exact .field hcomplete hfront hv (first_of_firstViolation child v y hy)
    | none =>
      rw [hfound] at h
      rw [List.append_cons]
      refine first_of_firstInProperties rest _ required fields x hcomplete (fun p hp => ?_) h
      rcases List.mem_append.mp hp with hp | hp
      · exact hfront p hp
      · cases List.mem_singleton.mp hp
        intro u hu
        exact (firstViolation_eq_none_iff child u).mp (Option.bind_eq_none_iff.mp hfound u hu)

end

/-- A check finds the violation before which all conforms. -/
theorem firstViolation_eq_some_iff : schema.firstViolation v = some x ↔ First schema v x :=
  ⟨first_of_firstViolation schema v x, First.firstViolation_eq⟩

theorem structural_eq_error_iff {r : Rejection} :
    structural data schema = .error r ↔ ∃ x, First schema data x ∧ x.rejection = r := by
  unfold structural
  simp only [← firstViolation_eq_some_iff]
  cases schema.firstViolation data with
  | none => simp
  | some x => simp

/-! ## Places of violations -/

/-- The way to the first violation ends where it is the first one at the node itself. -/
theorem First.leads (h : First schema data x) :
    ∃ node v, Leads schema data x.position node v ∧ First node v ⟨[], x.mismatch⟩ := by
  induction h with
  | missing before absent => exact ⟨_, _, .here _ _, .missing before absent⟩
  | wrongKind other => exact ⟨_, _, .here _ _, .wrongKind other⟩
  | field _ _ present _ ih =>
    obtain ⟨node, w, hleads, hfirst⟩ := ih
    exact ⟨node, w, .field (by simp) present hleads, hfirst⟩
  | item _ _ ih =>
    obtain ⟨node, w, hleads, hfirst⟩ := ih
    exact ⟨node, w, .item (by simp) hleads, hfirst⟩

theorem First.mismatched (h : First node v ⟨[], m⟩) : Mismatched node v m := by
  cases h with
  | missing _ absent => exact .missing (by simp) absent
  | wrongKind other => exact .wrongKind other

theorem Conforms.takesKind (h : node.Conforms v) : node.TakesKind v := by
  cases h with
  | scalar takes => exact .scalar takes
  | array => exact .array _ _
  | object => exact .object _ _ _

theorem Leads.conforms (h : Leads schema data position node v) (hconforms : schema.Conforms data) :
    node.Conforms v := by
  induction h with
  | here => exact hconforms
  | field declared present _ ih =>
    cases hconforms with
    | object _ below => exact ih (below _ declared _ present)
  | item present _ ih =>
    cases hconforms with
    | array each => exact ih (each _ (List.mem_of_getElem? present))

theorem Conforms.not_mismatched (h : node.Conforms v) : ¬ Mismatched node v m := by
  intro hmismatched
  cases hmismatched with
  | missing mem absent =>
    cases h with
    | object present _ => simpa [absent] using present _ mem
  | wrongKind other => exact other h.takesKind

end RecordQuery.Schema
