import RecordQuery.Proofs.Declarations
import RecordQuery.Proofs.Precedence

/-!
Faults of schema documents. A document declares a schema, or it has a first fault before which all
declares schemas (`declares_or_firstFault`). The reader tells this fault with its position
(`read_of_firstFault`), and it comes before all other faults of the document (`FirstFault.before`).
Members that a type does not use are never at fault (`ofJson_declared_or_first_fault`).
-/

namespace RecordQuery

/-! ## Induction over documents -/

section

variable {motive : Json → Prop}

mutual

/-- What holds of an object may be taken for granted of the documents under its names. -/
theorem Json.object_induction
    (object : ∀ members : Members [], (∀ m ∈ members.toList, motive m.2) →
      motive (.object members))
    (other : ∀ document, (∀ members, document ≠ .object members) → motive document) :
    ∀ document, motive document
  | .object members => object members (Members.object_induction object other members)
  | .null | .boolean _ | .number _ | .string _ | .array _ => other _ nofun

theorem Members.object_induction {taken : List String}
    (object : ∀ members : Members [], (∀ m ∈ members.toList, motive m.2) →
      motive (.object members))
    (other : ∀ document, (∀ members, document ≠ .object members) → motive document) :
    ∀ members : Members taken, ∀ m ∈ members.toList, motive m.2
  | .nil, _, h => nomatch h
  | .cons _ _ document rest, m, h => by
    rw [Members.toList] at h
    rcases List.mem_cons.mp h with rfl | h
    · exact Json.object_induction object other document
    · exact Members.object_induction object other rest m h

end

end

namespace Schema

/-! ## Faults -/

/-- What is wrong with a document itself, whatever stands below it. -/
inductive Faulty : Json → Fault → Prop
  | notObject {document : Json} (other : ∀ members, document ≠ .object members) :
      Faulty document .notObject
  | missingType {members : Members []} (absent : members.get? "type" = none) :
      Faulty (.object members) .missingType
  | typeNotString {members : Members []} {found : Json} (type : members.get? "type" = some found)
      (other : ∀ name, found ≠ .string name) : Faulty (.object members) (.typeNotString found)
  | unknownType {members : Members []} {name : String}
      (type : members.get? "type" = some (.string name)) (other : ∀ kind : Kind, name ≠ kind.name) :
      Faulty (.object members) (.unknownType name)
  | propertiesNotObject {members : Members []}
      (type : members.get? "type" = some (.string "object"))
      (other : ∀ declared, ¬ ListsProperties (members.get? "properties") declared) :
      Faulty (.object members) .propertiesNotObject
  | requiredNotStrings {members : Members []}
      (type : members.get? "type" = some (.string "object"))
      (other : ∀ names, ¬ ListsNames (members.get? "required") names) :
      Faulty (.object members) .requiredNotStrings
  | missingItems {members : Members []} (type : members.get? "type" = some (.string "array"))
      (absent : members.get? "items" = none) : Faulty (.object members) .missingItems

/-- Something is wrong at a position of a document, first or not. -/
inductive HasFault : Json → Error → Prop
  | own {document : Json} {fault : Fault} (faulty : Faulty document fault) :
      HasFault document ⟨[], fault⟩
  | property {members : Members []} {declared : List (String × Json)} {name : String}
      {child : Json} {position : List Step} {fault : Fault}
      (type : members.get? "type" = some (.string "object"))
      (properties : ListsProperties (members.get? "properties") declared)
      (mem : (name, child) ∈ declared) (below : HasFault child ⟨position, fault⟩) :
      HasFault (.object members) ⟨.property name :: position, fault⟩
  | items {members : Members []} {child : Json} {position : List Step} {fault : Fault}
      (type : members.get? "type" = some (.string "array"))
      (member : members.get? "items" = some child) (below : HasFault child ⟨position, fault⟩) :
      HasFault (.object members) ⟨.items :: position, fault⟩

/-- The order of faults: those of a document itself, then those below it in document order, and at
last its required names. -/
inductive Before : Json → Error → Error → Prop
  | own {document : Json} {fault : Fault} (leading : fault ≠ .requiredNotStrings) :
      Before document ⟨[], fault⟩ ⟨[], .requiredNotStrings⟩
  | above {document : Json} {fault fault' : Fault} {step : Step} {position : List Step}
      (leading : fault ≠ .requiredNotStrings) :
      Before document ⟨[], fault⟩ ⟨step :: position, fault'⟩
  | required {document : Json} {fault : Fault} {step : Step} {position : List Step} :
      Before document ⟨step :: position, fault⟩ ⟨[], .requiredNotStrings⟩
  | declared {members : Members []} {declared : List (String × Json)} {name name' : String}
      {position position' : List Step} {fault fault' : Fault}
      (properties : ListsProperties (members.get? "properties") declared)
      (before : (declared.map Prod.fst).idxOf name < (declared.map Prod.fst).idxOf name') :
      Before (.object members) ⟨.property name :: position, fault⟩
        ⟨.property name' :: position', fault'⟩
  | property {members : Members []} {declared : List (String × Json)} {name : String}
      {child : Json} {position position' : List Step} {fault fault' : Fault}
      (properties : ListsProperties (members.get? "properties") declared)
      (mem : (name, child) ∈ declared)
      (below : Before child ⟨position, fault⟩ ⟨position', fault'⟩) :
      Before (.object members) ⟨.property name :: position, fault⟩
        ⟨.property name :: position', fault'⟩
  | items {members : Members []} {child : Json} {position position' : List Step}
      {fault fault' : Fault} (member : members.get? "items" = some child)
      (below : Before child ⟨position, fault⟩ ⟨position', fault'⟩) :
      Before (.object members) ⟨.items :: position, fault⟩ ⟨.items :: position', fault'⟩

/-- A fault before which all is in order. -/
inductive FirstFault : Json → Error → Prop
  | own {document : Json} {fault : Fault} (faulty : Faulty document fault)
      (leading : fault ≠ .requiredNotStrings) : FirstFault document ⟨[], fault⟩
  | property {members : Members []} {front back : List (String × Json)} {name : String}
      {child : Json} {position : List Step} {fault : Fault}
      (type : members.get? "type" = some (.string "object"))
      (properties : ListsProperties (members.get? "properties") (front ++ (name, child) :: back))
      (before : ∀ m ∈ front, ∃ schema, Declares m.2 schema)
      (below : FirstFault child ⟨position, fault⟩) :
      FirstFault (.object members) ⟨.property name :: position, fault⟩
  | required {members : Members []} {declared : List (String × Json)}
      (type : members.get? "type" = some (.string "object"))
      (properties : ListsProperties (members.get? "properties") declared)
      (before : ∀ m ∈ declared, ∃ schema, Declares m.2 schema)
      (other : ∀ names, ¬ ListsNames (members.get? "required") names) :
      FirstFault (.object members) ⟨[], .requiredNotStrings⟩
  | items {members : Members []} {child : Json} {position : List Step} {fault : Fault}
      (type : members.get? "type" = some (.string "array"))
      (member : members.get? "items" = some child) (below : FirstFault child ⟨position, fault⟩) :
      FirstFault (.object members) ⟨.items :: position, fault⟩

variable {document child : Json} {schema : Schema} {members : Members []}
  {declared : List (String × Json)} {e e' : Error} {fault : Fault} {position : List Step}

/-! ## Reading faults -/

theorem exists_declarations (h : ∀ m ∈ declared, ∃ schema, Declares m.2 schema) :
    ∃ declarations : List Declaration, declared = declarations.map Declaration.member ∧
      ∀ d ∈ declarations, Declares d.document d.schema := by
  induction declared with
  | nil => exact ⟨[], rfl, nofun⟩
  | cons m declared ih =>
    obtain ⟨⟨schema, hschema⟩, hrest⟩ := List.forall_mem_cons.mp h
    obtain ⟨declarations, rfl, hdeclarations⟩ := ih hrest
    exact ⟨⟨m.1, m.2, schema⟩ :: declarations, rfl, List.forall_mem_cons.mpr
      ⟨hschema, hdeclarations⟩⟩

theorem requiredNames_of_not_listsNames {d : Option Json} (h : ∀ names, ¬ ListsNames d names) :
    requiredNames position d = .error ⟨position, .requiredNotStrings⟩ := by
  cases d with
  | none => exact absurd .absent (h [])
  | some d =>
    cases d with
    | array items =>
      rw [requiredNames]
      induction items with
      | nil => exact absurd (.array []) (h [])
      | cons item items ih =>
        cases item with
        | string name =>
          rw [List.mapM_cons, ih]
          · rfl
          · rintro _ ⟨⟩
            exact h (name :: _) (.array (name :: _))
        | null | boolean | number | array | object => rfl
    | null | boolean | number | string | object => rfl

theorem readProperties_of_not_listsProperties
    (h : ∀ declared, ¬ ListsProperties (members.get? "properties") declared) :
    readProperties position members = .error ⟨position, .propertiesNotObject⟩ := by
  rw [readProperties_eq]
  generalize members.get? "properties" = properties at h
  cases properties with
  | none => exact absurd .absent (h [])
  | some d =>
    cases d with
    | object declared => exact absurd (.object declared) (h _)
    | null | boolean | number | string | array => rfl

theorem read_of_faulty (h : Faulty document fault) (leading : fault ≠ .requiredNotStrings) :
    read position document = .error ⟨position, fault⟩ := by
  cases h with
  | notObject other =>
    cases document with
    | object members => exact absurd rfl (other members)
    | null | boolean | number | string | array => rfl
  | missingType absent => simp only [read, absent]
  | @typeNotString _ found type other =>
    cases found with
    | string name => exact absurd rfl (other name)
    | null | boolean | number | array | object => simp only [read, type]
  | @unknownType _ name type other =>
    have hobject : name ≠ "object" := other .object
    have harray : name ≠ "array" := other .array
    have hstring : name ≠ "string" := other (.scalar .string)
    have hnumber : name ≠ "number" := other (.scalar .number)
    have hinteger : name ≠ "integer" := other (.scalar .integer)
    have hboolean : name ≠ "boolean" := other (.scalar .boolean)
    simp only [read, type]
  | propertiesNotObject type other =>
    rw [read_object type, readProperties_of_not_listsProperties other]
    rfl
  | requiredNotStrings => exact absurd rfl leading
  | missingItems type absent =>
    rw [read_array type, readItems_eq, absent]
    rfl

theorem readEach_of_front {name : String} {back : List (String × Json)} :
    ∀ {taken : List String} (members : Members taken) (front : List (String × Json)),
      members.toList = front ++ (name, child) :: back →
      (∀ m ∈ front, ∃ schema, Declares m.2 schema) →
      (∀ position, read position child = .error ⟨position ++ e.position, e.fault⟩) →
      readEach position members = .error ⟨position ++ .property name :: e.position, e.fault⟩
  | _, .nil, [], h, _, _ => nomatch h
  | _, .nil, _ :: _, h, _, _ => nomatch h
  | _, .cons _ _ _ rest, [], h, _, hchild => by
    cases (List.cons.inj h).1
    rw [readEach, hchild, List.append_assoc]
    rfl
  | _, .cons _ _ _ rest, m :: front, h, hfront, hchild => by
    obtain ⟨hm, hrest⟩ := List.cons.inj h
    cases hm
    obtain ⟨⟨schema, hschema⟩, hfront⟩ := List.forall_mem_cons.mp hfront
    rw [readEach, read_of_declares hschema, readEach_of_front rest front hrest hfront hchild]
    rfl

/-- The reader tells the first fault of a document, wherever the document stands. -/
theorem read_of_firstFault (h : FirstFault document e) :
    ∀ position, read position document = .error ⟨position ++ e.position, e.fault⟩ := by
  induction h with
  | own faulty leading =>
    intro position
    rw [List.append_nil]
    exact read_of_faulty faulty leading
  | @property members front back name child below fault type properties before _ ih =>
    intro position
    have hread : readProperties position members =
        .error ⟨position ++ .property name :: below, fault⟩ := by
      rw [readProperties_eq]
      generalize members.get? "properties" = d at properties
      generalize hlisted : front ++ (name, child) :: back = listed at properties
      cases properties with
      | absent => simp at hlisted
      | object declared => exact readEach_of_front declared front hlisted.symm before ih
    rw [read_object type, hread]
    rfl
  | @required members declared type properties before other =>
    intro position
    obtain ⟨declarations, rfl, hdeclarations⟩ := exists_declarations before
    have hread : readProperties position members =
        .ok (declarations.map Declaration.property) :=
      readProperties_of_forall properties fun d hd => read_of_declares (hdeclarations d hd)
    rw [read_object type, hread, requiredNames_of_not_listsNames other, List.append_nil]
    rfl
  | items type member _ ih =>
    intro position
    rw [read_array type, readItems_eq, member]
    dsimp only
    rw [ih, List.append_assoc]
    rfl

/-! ## Documents with and without a schema -/

/-- One after the other the documents declare schemas, or there is a first one that does not. -/
theorem declare_or_front
    (h : ∀ m ∈ declared, (∃ schema, Declares m.2 schema) ∨ ∃ e, FirstFault m.2 e) :
    (∀ m ∈ declared, ∃ schema, Declares m.2 schema) ∨
      ∃ front name child back e, declared = front ++ (name, child) :: back ∧
        (∀ m ∈ front, ∃ schema, Declares m.2 schema) ∧ FirstFault child e := by
  induction declared with
  | nil => exact Or.inl nofun
  | cons m declared ih =>
    obtain ⟨hm, hrest⟩ := List.forall_mem_cons.mp h
    rcases hm with hm | ⟨e, he⟩
    · rcases ih hrest with hall | ⟨front, name, child, back, e, rfl, hfront, he⟩
      · exact Or.inl (List.forall_mem_cons.mpr ⟨hm, hall⟩)
      · exact Or.inr ⟨m :: front, name, child, back, e, rfl,
          List.forall_mem_cons.mpr ⟨hm, hfront⟩, he⟩
    · exact Or.inr ⟨[], m.1, m.2, declared, e, rfl, nofun, he⟩

theorem declares_or_firstFault_object (type : members.get? "type" = some (.string "object"))
    (h : ∀ declared, ListsProperties (members.get? "properties") declared → ∀ m ∈ declared,
      (∃ schema, Declares m.2 schema) ∨ ∃ e, FirstFault m.2 e) :
    (∃ schema, Declares (.object members) schema) ∨ ∃ e, FirstFault (.object members) e := by
  by_cases hproperties : ∃ declared, ListsProperties (members.get? "properties") declared
  · obtain ⟨declared, hdeclared⟩ := hproperties
    rcases declare_or_front (h declared hdeclared) with
      hall | ⟨front, name, child, back, e, rfl, hfront, he⟩
    · by_cases hnames : ∃ names, ListsNames (members.get? "required") names
      · obtain ⟨names, hnames⟩ := hnames
        obtain ⟨declarations, rfl, hdeclarations⟩ := exists_declarations hall
        exact Or.inl ⟨_, .object type hdeclared hnames hdeclarations⟩
      · exact Or.inr ⟨_, .required type hdeclared hall (not_exists.mp hnames)⟩
    · exact Or.inr ⟨_, .property type hdeclared hfront he⟩
  · exact Or.inr ⟨_, .own (.propertiesNotObject type (not_exists.mp hproperties)) nofun⟩

/-- A document declares a schema or has a first fault. -/
theorem declares_or_firstFault (document : Json) :
    (∃ schema, Declares document schema) ∨ ∃ e, FirstFault document e := by
  -- the declarations stand two objects below the document that lists them
  have hboth : ((∃ schema, Declares document schema) ∨ ∃ e, FirstFault document e) ∧
      ∀ members, document = .object members → ∀ m ∈ members.toList,
        (∃ schema, Declares m.2 schema) ∨ ∃ e, FirstFault m.2 e := by
    induction document using Json.object_induction with
    | other document other =>
      exact ⟨Or.inr ⟨_, .own (.notObject other) nofun⟩, fun members h => absurd h (other members)⟩
    | object members ih =>
      refine ⟨?_, ?_⟩
      · cases htype : members.get? "type" with
        | none => exact Or.inr ⟨_, .own (.missingType htype) nofun⟩
        | some found =>
          by_cases hstring : ∃ name, found = .string name
          · obtain ⟨name, rfl⟩ := hstring
            by_cases hkind : ∃ kind : Kind, name = kind.name
            · obtain ⟨kind, rfl⟩ := hkind
              cases kind with
              | scalar kind => exact Or.inl ⟨_, .scalar htype⟩
              | array =>
                cases hitems : members.get? "items" with
                | none => exact Or.inr ⟨_, .own (.missingItems htype hitems) nofun⟩
                | some child =>
                  rcases (ih _ (members.mem_toList_of_get? hitems)).1 with
                    ⟨schema, hschema⟩ | ⟨e, he⟩
                  · exact Or.inl ⟨_, .array htype hitems hschema⟩
                  · exact Or.inr ⟨_, .items htype hitems he⟩
              | object =>
                refine declares_or_firstFault_object htype fun declared hdeclared m hm => ?_
                generalize hproperties : members.get? "properties" = properties at hdeclared
                cases hdeclared with
                | absent => cases hm
                | object declared =>
                  exact (ih _ (members.mem_toList_of_get? hproperties)).2 declared rfl m hm
            · exact Or.inr ⟨_, .own (.unknownType htype (not_exists.mp hkind)) nofun⟩
          · exact Or.inr ⟨_, .own (.typeNotString htype (not_exists.mp hstring)) nofun⟩
      · rintro _ ⟨⟩ m hm
        exact (ih m hm).1
  exact hboth.1

/-! ## The order of faults -/

theorem Kind.name_injective : Function.Injective Kind.name := by
  intro kind kind' h
  rcases kind with _ | _ | (_ | _ | _ | _) <;> rcases kind' with _ | _ | (_ | _ | _ | _) <;>
    simp_all [Kind.name, Scalar.name]

theorem kind_eq_of_type {d : Option Json} (kind kind' : Kind) (h : d = some (.string kind.name))
    (h' : d = some (.string kind'.name)) : kind = kind' := by
  have hname := h.symm.trans h'
  simp only [Option.some.injEq, Json.string.injEq] at hname
  exact Kind.name_injective hname

theorem ListsProperties.unique {d : Option Json} {declared' : List (String × Json)}
    (h : ListsProperties d declared) (h' : ListsProperties d declared') : declared = declared' := by
  cases h with
  | absent =>
    cases h'
    rfl
  | object =>
    cases h'
    rfl

theorem FirstFault.unique (h : FirstFault document e) (h' : FirstFault document e') : e = e' := by
  have hread := (read_of_firstFault h []).symm.trans (read_of_firstFault h' [])
  exact Except.error.inj hread

theorem FirstFault.hasFault (h : FirstFault document e) : HasFault document e := by
  induction h with
  | own faulty _ => exact .own faulty
  | property type properties _ _ ih => exact .property type properties (by simp) ih
  | required type _ _ other => exact .own (.requiredNotStrings type other)
  | items type member _ ih => exact .items type member ih

theorem Declares.type_eq (h : Declares (.object members) schema) :
    members.get? "type" = some (.string schema.kind.name) := by
  cases h with
  | scalar type => exact type
  | array type => exact type
  | object type => exact type

/-- A document that declares a schema has no faults. -/
theorem Declares.not_hasFault (h : Declares document schema) : ¬ HasFault document e := by
  intro hfault
  induction hfault generalizing schema with
  | @own document fault faulty =>
    by_cases hrequired : fault = .requiredNotStrings
    · subst hrequired
      cases faulty with
      | requiredNotStrings type other =>
        have hkind := kind_eq_of_type .object _ type h.type_eq
        cases h with
        | scalar | array => cases hkind
        | object _ _ names _ => exact other _ names
    · cases (read_of_declares h []).symm.trans (read_of_faulty faulty hrequired)
  | property type properties mem _ ih =>
    have hkind := kind_eq_of_type .object _ type h.type_eq
    cases h with
    | scalar | array => cases hkind
    | object _ properties' _ below =>
      rw [properties.unique properties'] at mem
      obtain ⟨d, hd, hmember⟩ := List.mem_map.mp mem
      cases hmember
      exact ih (below d hd)
  | items type member _ ih =>
    have hkind := kind_eq_of_type .array _ type h.type_eq
    cases h with
    | scalar | object => cases hkind
    | array _ member' below =>
      cases member.symm.trans member'
      exact ih below

/-- A document's own fault is its first one, unless it is that of the required names. -/
theorem FirstFault.eq_own (h : FirstFault document e) (faulty : Faulty document fault)
    (leading : fault ≠ .requiredNotStrings) : e = ⟨[], fault⟩ :=
  h.unique (.own faulty leading)

/-- What does not declare a schema under another name stands after all that was passed. -/
theorem before_of_name_ne {front back : List (String × Json)} {name name' : String}
    {child' : Json} {position' : List Step} {fault' : Fault}
    (properties : ListsProperties (members.get? "properties") (front ++ (name, child) :: back))
    (hfront : ∀ m ∈ front, ∃ schema, Declares m.2 schema)
    (hmem : (name', child') ∈ front ++ (name, child) :: back)
    (hfault : HasFault child' ⟨position', fault'⟩) (hne : name ≠ name') :
    Before (.object members) ⟨.property name :: position, fault⟩
      ⟨.property name' :: position', fault'⟩ := by
  refine .declared properties ?_
  rw [List.map_append, List.map_cons]
  refine idxOf_lt_idxOf (fun h => ?_) hne
  obtain ⟨m, hm, hname⟩ := List.mem_map.mp h
  have hsame : m = (name', child') :=
    List.inj_on_of_nodup_map properties.nodup_names (List.mem_append_left _ hm) hmem hname
  subst hsame
  obtain ⟨schema, hschema⟩ := hfront _ hm
  exact hschema.not_hasFault hfault

/-- All faults of a document but the first come after it. -/
theorem FirstFault.before (h : FirstFault document e) (hfault : HasFault document e')
    (hne : e' ≠ e) : Before document e e' := by
  induction h generalizing e' with
  | @own document fault faulty leading =>
    cases hfault with
    | @own _ fault' faulty' =>
      by_cases hrequired : fault' = .requiredNotStrings
      · subst hrequired
        exact .own leading
      · exact absurd ((FirstFault.own faulty leading).eq_own faulty' hrequired).symm hne
    | property | items => exact .above leading
  | @property members front back name child position fault type properties before below ih =>
    cases hfault with
    | @own _ fault' faulty' =>
      by_cases hrequired : fault' = .requiredNotStrings
      · subst hrequired
        exact .required
      · cases (FirstFault.property type properties before below).eq_own faulty' hrequired
    | @property _ declared name' child' position' fault' _ properties' mem' below' =>
      rw [← properties.unique properties'] at mem'
      by_cases hname : name = name'
      · have hmem : (name, child) ∈ front ++ (name, child) :: back := by simp
        cases List.inj_on_of_nodup_map properties.nodup_names hmem mem' hname
        refine .property properties hmem (ih below' ?_)
        rintro ⟨⟩
        exact hne rfl
      · exact before_of_name_ne properties before mem' below' hname
    | items type' => cases kind_eq_of_type .object .array type type'
  | @required members declared type properties before other =>
    cases hfault with
    | @own _ fault' faulty' =>
      by_cases hrequired : fault' = .requiredNotStrings
      · exact absurd (congrArg _ hrequired) hne
      · cases (FirstFault.required type properties before other).eq_own faulty' hrequired
        exact absurd rfl hne
    | property _ properties' mem' below' =>
      rw [← properties.unique properties'] at mem'
      obtain ⟨schema, hschema⟩ := before _ mem'
      exact absurd below' hschema.not_hasFault
    | items type' => cases kind_eq_of_type .object .array type type'
  | @items members child position fault type member below ih =>
    cases hfault with
    | @own _ fault' faulty' =>
      by_cases hrequired : fault' = .requiredNotStrings
      · exact hrequired ▸ .required
      · cases (FirstFault.items type member below).eq_own faulty' hrequired
    | property type' => cases kind_eq_of_type .array .object type type'
    | items _ member' below' =>
      cases member.symm.trans member'
      refine .items member (ih below' ?_)
      rintro ⟨⟩
      exact hne rfl

theorem Before.asymm (h : Before document e e') : ¬ Before document e' e := by
  intro hback
  induction h with
  | own leading =>
    cases hback with
    | own leading' => exact leading' rfl
  | above leading =>
    cases hback with
    | required => exact leading rfl
  | required =>
    cases hback with
    | above leading => exact leading rfl
  | declared properties before =>
    cases hback with
    | declared properties' after =>
      cases properties.unique properties'
      exact absurd after before.asymm
    | property => exact absurd before (lt_irrefl _)
  | property properties mem _ ih =>
    cases hback with
    | declared _ after => exact absurd after (lt_irrefl _)
    | property properties' mem' below =>
      cases properties.unique properties'
      cases List.inj_on_of_nodup_map properties.nodup_names mem mem' rfl
      exact ih below
  | items member _ ih =>
    cases hback with
    | items member' below =>
      cases member.symm.trans member'
      exact ih below

/-! ## Reading documents -/

theorem ofJson_eq_ok_iff : ofJson document = .ok schema ↔ Declares document schema := by
  refine ⟨fun hread => ?_, fun h => read_of_declares h []⟩
  rcases declares_or_firstFault document with ⟨schema', h⟩ | ⟨e, h⟩
  · cases hread.symm.trans (read_of_declares h [])
    exact h
  · cases hread.symm.trans (read_of_firstFault h [])

theorem ofJson_eq_error_iff : ofJson document = .error e ↔ FirstFault document e := by
  refine ⟨fun hread => ?_, fun h => read_of_firstFault h []⟩
  rcases declares_or_firstFault document with ⟨schema, h⟩ | ⟨e', h⟩
  · cases hread.symm.trans (read_of_declares h [])
  · cases hread.symm.trans (read_of_firstFault h [])
    exact h

/-- The fault that all others come after is the first one. -/
theorem firstFault_iff_hasFault : FirstFault document e ↔
    HasFault document e ∧ ∀ e', HasFault document e' → e' ≠ e → Before document e e' := by
  refine ⟨fun h => ⟨h.hasFault, fun e' => h.before⟩, ?_⟩
  rintro ⟨hfault, hbefore⟩
  rcases declares_or_firstFault document with ⟨schema, h⟩ | ⟨e', h⟩
  · exact absurd hfault h.not_hasFault
  · by_cases hsame : e' = e
    · exact hsame ▸ h
    · exact absurd (h.before hfault (Ne.symm hsame)) (hbefore e' h.hasFault hsame).asymm

/-- The documents of schemas are those that declare one, and they give it; all others are told by
the fault that stands before all their others. The schemas that come from documents are those in
which no object declares a name again, and each comes from its own. -/
theorem ofJson_declared_or_first_fault :
    (∀ document schema, ofJson document = .ok schema ↔ Declares document schema) ∧
    (∀ document e, ofJson document = .error e ↔
      HasFault document e ∧ ∀ e', HasFault document e' → e' ≠ e → Before document e e') ∧
    (∀ schema : Schema, schema.DistinctNames ↔ ofJson schema.toJson = .ok schema) ∧
    ∀ schema : Schema, schema.DistinctNames ↔ ∃ document, ofJson document = .ok schema := by
  refine ⟨fun _ _ => ofJson_eq_ok_iff, fun _ _ => ?_, fun schema => ?_, fun schema => ?_⟩
  · exact ofJson_eq_error_iff.trans firstFault_iff_hasFault
  · refine ⟨fun h => ofJson_eq_ok_iff.mpr (declares_toJson h), fun h => ?_⟩
    exact (ofJson_eq_ok_iff.mp h).distinctNames
  · refine ⟨fun h => ⟨_, ofJson_eq_ok_iff.mpr (declares_toJson h)⟩, ?_⟩
    rintro ⟨document, h⟩
    exact (ofJson_eq_ok_iff.mp h).distinctNames

/-- Faulty in two of its properties and in its required names. -/
def thriceFaulty : Json :=
  .object (.ofList [("type", .string "object"), ("required", .null), ("items", .null),
    ("properties", .object (.ofList
      [("id", .object (.ofList [("type", .string "string"), ("items", .null)])),
        ("tags", .object (.ofList [("type", .string "array")])), ("label", .null)]))])

theorem ofJson_declared_or_first_fault_thriceFaulty :
    ofJson thriceFaulty = .error ⟨[.property "tags"], .missingItems⟩ ∧
      HasFault thriceFaulty ⟨[.property "label"], .notObject⟩ ∧
      HasFault thriceFaulty ⟨[], .requiredNotStrings⟩ ∧
      Before thriceFaulty ⟨[.property "tags"], .missingItems⟩
        ⟨[.property "label"], .notObject⟩ ∧
      Before thriceFaulty ⟨[.property "tags"], .missingItems⟩ ⟨[], .requiredNotStrings⟩ := by
  have hread : ofJson thriceFaulty = .error ⟨[.property "tags"], .missingItems⟩ := rfl
  have hlabel : HasFault thriceFaulty ⟨[.property "label"], .notObject⟩ :=
    .property rfl (.object _) (.tail _ (.tail _ (.head _))) (.own (.notObject nofun))
  have hrequired : HasFault thriceFaulty ⟨[], .requiredNotStrings⟩ := by
    refine .own (.requiredNotStrings rfl ?_)
    rintro _ ⟨⟩
  obtain ⟨-, hbefore⟩ := (ofJson_declared_or_first_fault.2.1 _ _).mp hread
  exact ⟨hread, hlabel, hrequired, hbefore _ hlabel (by simp),
    hbefore _ hrequired (by simp)⟩

end Schema

end RecordQuery
