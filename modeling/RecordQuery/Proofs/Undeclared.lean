import RecordQuery.Proofs.Causes
import RecordQuery.Proofs.Parallel

/-!
Fields that a schema does not declare. Trimming deletes them, at any depth. A path reads nothing
that trimming deletes (`pathCongruence_sameDeclared`), so accepted records that are trimmed to the
same value give the same result, outcome or error, on every query that ends at scalars
(`evaluateChecked_of_trim_eq`).
-/

namespace RecordQuery

/-! ## Trimming -/

namespace Schema

mutual

/-- A value without the fields that the schema does not declare. -/
def trim : Schema → Value → Value
  | .object properties required, .object fields =>
    .object (trimFields (.object properties required) fields)
  | .array items, .array elements => .array (trimItems items elements)
  | _, v => v
termination_by structural _ v => v

def trimItems (items : Schema) : List Value → List Value
  | [] => []
  | v :: rest => items.trim v :: trimItems items rest
termination_by structural vs => vs

def trimFields (node : Schema) {low : Option String} : Fields low → Fields none
  | .nil => .nil
  | .cons name _ v rest =>
    match node.property? name with
    | some child => (trimFields node rest).insert name (Fields.above_none name) (child.trim v)
    | none => trimFields node rest
termination_by structural fields => fields

end

theorem trimItems_eq_map {items : Schema} {elements : List Value} :
    trimItems items elements = elements.map items.trim := by
  induction elements with
  | nil => rfl
  | cons v rest ih => rw [trimItems, List.map_cons, ih]

/-- Under each declared name stands what stood there, trimmed; nothing stands under other names. -/
theorem get?_trimFields {node : Schema} {name : String} :
    ∀ {low : Option String} (fields : Fields low), (trimFields node fields).get? name =
      (node.property? name).bind fun child => (fields.get? name).map child.trim
  | _, .nil => by
    rw [trimFields, Fields.get?]
    cases node.property? name <;> rfl
  | _, .cons key _ v rest => by
    rw [trimFields, Fields.get?]
    cases hkey : node.property? key with
    | none =>
      rw [get?_trimFields rest]
      by_cases hname : name = key
      · rw [hname, hkey]
        rfl
      · rw [if_neg hname]
    | some child =>
      rw [Fields.get?_insert, get?_trimFields rest]
      by_cases hname : name = key
      · rw [hname, hkey, if_pos rfl, if_pos rfl]
        rfl
      · rw [if_neg hname, if_neg hname]

theorem trim_null (node : Schema) : node.trim .null = .null := by
  cases node <;> rfl

theorem trim_scalar (kind : Scalar) (v : Value) : (scalar kind).trim v = v := by
  cases v <;> rfl

/-! ## Steps below trimmed values -/

section

variable {node child : Schema} {name : String} {v v' : Value} {vs : List Value}
  {walked : List Query.Step}

theorem field_trim (hchild : node.property? name = some child)
    (h : Query.field walked name v = .ok v') :
    Query.field walked name (node.trim v) = .ok (child.trim v') := by
  cases v with
  | null =>
    cases h
    rw [trim_null, trim_null]
    rfl
  | object fields =>
    cases h
    cases node with
    | object properties required =>
      rw [trim, Query.field, get?_trimFields, hchild, Option.bind_some]
      cases fields.get? name with
      | none =>
        rw [Option.getD_none, trim_null]
        rfl
      | some v => rfl
    | array | scalar => cases hchild
  | boolean | integer | float | string | array => cases h

theorem elements_trim (items : Schema) (h : Query.elements walked v = .ok vs) :
    Query.elements walked ((array items).trim v) = .ok (vs.map items.trim) := by
  cases v with
  | null =>
    cases h
    rfl
  | array elements =>
    cases h
    rw [trim, trimItems_eq_map]
    rfl
  | boolean | integer | float | string | object => cases h

end

/-! ## Values that differ in undeclared fields only -/

/-- Values that fit a schema node and are the same once they are trimmed. -/
def SameDeclared (node : Schema) (v w : Value) : Prop :=
  node.Fits v ∧ node.Fits w ∧ node.trim v = node.trim w

theorem forall₂_sameDeclared {items : Schema} {vs ws : List Value} (hv : ∀ v ∈ vs, items.Fits v)
    (hw : ∀ w ∈ ws, items.Fits w) (h : vs.map items.trim = ws.map items.trim) :
    List.Forall₂ items.SameDeclared vs ws := by
  induction vs generalizing ws with
  | nil =>
    cases ws with
    | nil => exact .nil
    | cons w ws => cases h
  | cons v vs ih =>
    cases ws with
    | nil => cases h
    | cons w ws =>
      obtain ⟨hfitsv, hv⟩ := List.forall_mem_cons.mp hv
      obtain ⟨hfitsw, hw⟩ := List.forall_mem_cons.mp hw
      obtain ⟨htrim, h⟩ := List.cons.inj h
      exact .cons ⟨hfitsv, hfitsw, htrim⟩ (ih hv hw h)

end Schema

open Schema (SameDeclared)

namespace Query

theorem pathCongruence_sameDeclared : PathCongruence (· = ·) SameDeclared where
  error _ := rfl
  field {walked node child name v w} hchild h := by
    obtain ⟨hv, hw, htrim⟩ := h
    cases node with
    | array | scalar => cases hchild
    | object properties required =>
      obtain ⟨v', hv', hfitsv⟩ := hv.field hchild walked
      obtain ⟨w', hw', hfitsw⟩ := hw.field hchild walked
      have hv := Schema.field_trim hchild hv'
      rw [htrim, Schema.field_trim hchild hw'] at hv
      rw [hv', hw']
      exact .ok ⟨hfitsv, hfitsw, (Except.ok.inj hv).symm⟩
  elements {walked items v w} h := by
    obtain ⟨hv, hw, htrim⟩ := h
    obtain ⟨vs, hvs, hfitsv⟩ := hv.elements walked
    obtain ⟨ws, hws, hfitsw⟩ := hw.elements walked
    have hv := Schema.elements_trim items hvs
    rw [htrim, Schema.elements_trim items hws] at hv
    rw [hvs, hws]
    exact .ok (Schema.forall₂_sameDeclared hfitsv hfitsw (Except.ok.inj hv).symm)

/-- No path of a query ends at an object or an array of the schema. -/
def EndsAtScalars (schema : Schema) (q : Query) : Prop :=
  ∀ path ∈ q.paths, ∀ node, schema.Reaches path node → ∃ kind, node = .scalar kind

variable {limits : Limits} {data data' : Value} {schema : Schema} {q : Query}

theorem parallel_resolvePath {path : List Step} (h : schema.SameDeclared data data')
    (hends : ∀ node, schema.Reaches path node → ∃ kind, node = .scalar kind) :
    Parallel (· = ·) (Outcome.Pointwise (· = ·)) (resolvePath limits path data schema)
      (resolvePath limits path data' schema) := by
  refine (pathCongruence_sameDeclared.resolvePath h).mono ?_
  rintro o o' ⟨node, hnode, ho⟩
  obtain ⟨kind, rfl⟩ := hends node hnode
  refine ho.mono fun v w hvw => ?_
  obtain ⟨_, _, htrim⟩ := hvw
  rw [Schema.trim_scalar, Schema.trim_scalar] at htrim
  exact htrim

/-- **Undeclared fields.** Two accepted records that differ only in fields that the schema does not
declare, at any depth, give the same outcome or the same error on every query whose paths end at
scalars. Of two declarations of one name the first counts. -/
theorem evaluateChecked_of_trim_eq (haccepted : Schema.structural data schema = .ok ())
    (haccepted' : Schema.structural data' schema = .ok ())
    (htrim : schema.trim data = schema.trim data') (hends : q.EndsAtScalars schema) :
    q.evaluateChecked Schema.structural limits data schema =
      q.evaluateChecked Schema.structural limits data' schema := by
  have hfits : schema.Fits data := Or.inr (Schema.structural_eq_ok_iff.mp haccepted)
  have hfits' : schema.Fits data' := Or.inr (Schema.structural_eq_ok_iff.mp haccepted')
  rw [evaluateChecked_of_accepted haccepted, evaluateChecked_of_accepted haccepted']
  have hrun : Parallel (· = ·) (Outcome.Pointwise (· = ·)) (q.evaluate limits data schema)
      (q.evaluate limits data' schema) := by
    refine (congruence_eq fun _ => rfl).evaluate (.refl (fun _ => rfl) q) fun path hpath => ?_
    exact parallel_resolvePath ⟨hfits, hfits', htrim⟩ (hends path hpath)
  exact (hrun.mono fun _ _ ho => ho.eq).eq

/-- A name that is declared elsewhere and a field below an item are undeclared all the same, and a
query that ends at a scalar does not tell the records apart. -/
theorem evaluateChecked_of_trim_eq_labels :
    let label : Value := .string "a"
    let data : Value := .object (.ofList [("items", .array
      [.object (.ofList [("label", label), ("size", .integer 1)])]), ("label", .integer 2)])
    let data' : Value := .object (.ofList [("items", .array
      [.object (.ofList [("label", label)])])])
    let schema : Schema := .object [("items", .array (.object [("label", .scalar .string)] []))] []
    let q : Query := .binary (.compare .eq)
      (.resolve [.property "items", .item, .property "label"]) (.literal label)
    Schema.structural data schema = .ok () ∧ Schema.structural data' schema = .ok () ∧
      schema.trim data = schema.trim data' ∧ q.EndsAtScalars schema ∧
      q.evaluateChecked Schema.structural {} data schema =
        q.evaluateChecked Schema.structural {} data' schema := by
  intro label data data' schema q
  have haccepted : Schema.structural data schema = .ok () := by decide +kernel
  have haccepted' : Schema.structural data' schema = .ok () := rfl
  have htrim : schema.trim data = schema.trim data' := by
    simp only [data, Fields.ofList, List.foldl]
    rfl
  have hends : q.EndsAtScalars schema := by
    intro path hpath node hnode
    cases List.mem_singleton.mp hpath
    have hlabel : schema.Reaches [.property "items", .item, .property "label"] (.scalar .string) :=
      .property rfl (.item (.property rfl .here))
    exact ⟨.string, hnode.unique hlabel⟩
  exact ⟨haccepted, haccepted', htrim, hends,
    evaluateChecked_of_trim_eq haccepted haccepted' htrim hends⟩

end Query

end RecordQuery
