import RecordQuery.Proofs.CompatibleSchemas
import RecordQuery.Proofs.Narrowing
import RecordQuery.Schema.Reader

/-!
What documents declare. A document declares a schema, or it is no schema document; members that its
type does not use have no part in it (`Declares`). The reader gives the schema that is declared
(`read_of_declares`). No object of such a schema declares a name again, and every schema of that
kind is declared by a document of its own form (`declares_toJson`).
-/

namespace RecordQuery

namespace Schema

/-! ## Declarations -/

/-- The declarations under `properties` in document order; there are none without the member. -/
inductive ListsProperties : Option Json → List (String × Json) → Prop
  | absent : ListsProperties none []
  | object (declared : Members []) : ListsProperties (some (.object declared)) declared.toList

/-- The names under `required`; there are none without the member. -/
inductive ListsNames : Option Json → List String → Prop
  | absent : ListsNames none []
  | array (names : List String) : ListsNames (some (.array (names.map .string))) names

/-- A name, the document under it and the schema that this document declares. -/
structure Declaration where
  name : String
  document : Json
  schema : Schema

namespace Declaration

def member (d : Declaration) : String × Json := (d.name, d.document)

def property (d : Declaration) : String × Schema := (d.name, d.schema)

end Declaration

/-- A document declares a schema. Members that its type does not use may be anything, and may be
there or not. -/
inductive Declares : Json → Schema → Prop
  | scalar {members : Members []} {kind : Scalar}
      (type : members.get? "type" = some (.string kind.name)) :
      Declares (.object members) (.scalar kind)
  | array {members : Members []} {document : Json} {items : Schema}
      (type : members.get? "type" = some (.string "array"))
      (member : members.get? "items" = some document) (below : Declares document items) :
      Declares (.object members) (.array items)
  | object {members : Members []} {declarations : List Declaration} {required : List String}
      (type : members.get? "type" = some (.string "object"))
      (properties : ListsProperties (members.get? "properties")
        (declarations.map Declaration.member))
      (names : ListsNames (members.get? "required") required)
      (below : ∀ d ∈ declarations, Declares d.document d.schema) :
      Declares (.object members) (.object (declarations.map Declaration.property) required)

section

variable {members : Members []} {document : Json} {schema : Schema} {position : List Step}

/-! ## Reading -/

theorem read_scalar {kind : Scalar} (h : members.get? "type" = some (.string kind.name)) :
    read position (.object members) = .ok (.scalar kind) := by
  cases kind <;> simp only [read, h, Scalar.name]

theorem read_array (h : members.get? "type" = some (.string "array")) :
    read position (.object members) = do return .array (← readItems position members) := by
  simp only [read, h]

theorem read_object (h : members.get? "type" = some (.string "object")) :
    read position (.object members) = do
      let properties ← readProperties position members
      let required ← requiredNames position (members.get? "required")
      return .object properties required := by
  simp only [read, h]

theorem readItems_eq : ∀ {taken : List String} (members : Members taken),
    readItems position members = match members.get? "items" with
      | none => .error ⟨position, .missingItems⟩
      | some document => read (position ++ [.items]) document
  | _, .nil => by rw [readItems, Members.get?]
  | _, .cons name _ value rest => by
    rw [readItems, Members.get?]
    by_cases h : name = "items"
    · rw [if_pos h, if_pos h.symm]
    · rw [if_neg h, if_neg (Ne.symm h)]
      exact readItems_eq rest

theorem readProperties_eq : ∀ {taken : List String} (members : Members taken),
    readProperties position members = match members.get? "properties" with
      | none => .ok []
      | some (.object declared) => readEach position declared
      | some _ => .error ⟨position, .propertiesNotObject⟩
  | _, .nil => by rw [readProperties, Members.get?]
  | _, .cons name _ value rest => by
    unfold readProperties
    rw [Members.get?]
    by_cases h : name = "properties"
    · rw [if_pos h, if_pos h.symm]
      cases value <;> rfl
    · rw [if_neg h, if_neg (Ne.symm h)]
      exact readProperties_eq rest

theorem requiredNames_of_listsNames {d : Option Json} {names : List String}
    (h : ListsNames d names) : requiredNames position d = .ok names := by
  cases h with
  | absent => rfl
  | array =>
    rw [requiredNames]
    induction names with
    | nil => rfl
    | cons name names ih =>
      rw [List.map_cons, List.mapM_cons, ih]
      rfl

theorem readEach_of_forall : ∀ {taken : List String} (declared : Members taken)
    (declarations : List Declaration), declared.toList = declarations.map Declaration.member →
    (∀ d ∈ declarations, ∀ position, read position d.document = .ok d.schema) →
      readEach position declared = .ok (declarations.map Declaration.property)
  | _, .nil, [], _, _ => by rw [readEach, List.map_nil]
  | _, .nil, _ :: _, h, _ => nomatch h
  | _, .cons .., [], h, _ => nomatch h
  | _, .cons name _ document rest, d :: declarations, h, hread => by
    obtain ⟨hd, hrest⟩ := List.cons.inj h
    cases hd
    obtain ⟨hdocument, hread⟩ := List.forall_mem_cons.mp hread
    rw [readEach, hdocument, readEach_of_forall rest declarations hrest hread]
    rfl

theorem readProperties_of_forall {declarations : List Declaration}
    (h : ListsProperties (members.get? "properties") (declarations.map Declaration.member))
    (hread : ∀ d ∈ declarations, ∀ position, read position d.document = .ok d.schema) :
    readProperties position members = .ok (declarations.map Declaration.property) := by
  rw [readProperties_eq]
  generalize members.get? "properties" = properties at h
  generalize hlisted : declarations.map Declaration.member = listed at h
  cases h with
  | absent => rw [List.map_eq_nil_iff.mp hlisted, List.map_nil]
  | object declared => exact readEach_of_forall declared declarations hlisted.symm hread

/-- The reader gives the schema that a document declares, wherever the document stands. -/
theorem read_of_declares (h : Declares document schema) :
    ∀ position, read position document = .ok schema := by
  induction h with
  | scalar type => exact fun _ => read_scalar type
  | array type member _ ih =>
    intro position
    rw [read_array type, readItems_eq, member]
    dsimp only
    rw [ih]
    rfl
  | object type properties names _ ih =>
    intro position
    rw [read_object type, readProperties_of_forall properties ih,
      requiredNames_of_listsNames names]
    rfl

theorem ListsProperties.nodup_names {d : Option Json} {declared : List (String × Json)}
    (h : ListsProperties d declared) : (declared.map Prod.fst).Nodup := by
  cases h with
  | absent => exact List.nodup_nil
  | object declared => exact declared.nodup_names

theorem Declares.distinctNames (h : Declares document schema) : schema.DistinctNames := by
  induction h with
  | @scalar _ kind => exact .scalar kind
  | array _ _ _ ih => exact .array ih
  | @object _ declarations _ _ properties _ _ ih =>
    refine .object ?_ fun p hp => ?_
    · have hnodup := properties.nodup_names
      rw [List.map_map] at hnodup ⊢
      exact hnodup
    · obtain ⟨d, hd, rfl⟩ := List.mem_map.mp hp
      exact ih d hd

end

/-! ## Writing -/

mutual

/-- The document of a schema. -/
def toJson : Schema → Json
  | .object properties required =>
    .object (.ofList [("type", .string "object"),
      ("properties", .object (.ofList (toMembers properties))),
      ("required", .array (required.map .string))])
  | .array items => .object (.ofList [("type", .string "array"), ("items", items.toJson)])
  | .scalar kind => .object (.ofList [("type", .string kind.name)])

def toMembers : List (String × Schema) → List (String × Json)
  | [] => []
  | (name, schema) :: rest => (name, schema.toJson) :: toMembers rest

end

theorem toMembers_eq_map (properties : List (String × Schema)) :
    toMembers properties = properties.map fun p => (p.1, p.2.toJson) := by
  induction properties with
  | nil => rw [toMembers, List.map_nil]
  | cons p properties ih => rw [toMembers, ih, List.map_cons]

theorem declares_toJson {schema : Schema} (h : schema.DistinctNames) :
    Declares schema.toJson schema := by
  induction h with
  | scalar kind => exact .scalar rfl
  | array _ ih => exact .array rfl rfl ih
  | @object properties required distinct _ ih =>
    let declarations := properties.map fun p => Declaration.mk p.1 p.2.toJson p.2
    have hmembers : (Members.ofList (toMembers properties)).toList =
        declarations.map Declaration.member := by
      rw [Members.toList_ofList, toMembers_eq_map, List.map_map]
      · rfl
      · rw [toMembers_eq_map, List.map_map]
        exact distinct
    have hproperties : declarations.map Declaration.property = properties := by
      rw [List.map_map]
      exact List.map_id _
    have hdeclared : ListsProperties (some (.object (.ofList (toMembers properties))))
        (declarations.map Declaration.member) := hmembers ▸ .object _
    have hbelow : ∀ d ∈ declarations, Declares d.document d.schema := by
      intro d hd
      obtain ⟨p, hp, rfl⟩ := List.mem_map.mp hd
      exact ih p hp
    have hobject : Declares (toJson (.object properties required))
        (.object (declarations.map Declaration.property) required) :=
      .object rfl hdeclared (.array required) hbelow
    rwa [hproperties] at hobject

end Schema

end RecordQuery
