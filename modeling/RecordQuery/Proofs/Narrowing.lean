import RecordQuery.Proofs.Documents
import RecordQuery.Proofs.Rounding

/-!
JSON documents through values. A document that is read and written again is the same up to the order
of members, but for whole numbers past the greatest that a value holds: these become the nearest
double, at any depth (`alike_toJson_ofJson`).
-/

namespace RecordQuery

/-! ## Documents up to the order of members -/

/-- Documents are the same up to the order in which members stand in objects. -/
inductive Json.Alike : Json → Json → Prop
  | null : Alike .null .null
  | boolean (b : Bool) : Alike (.boolean b) (.boolean b)
  | number (n : Json.Number) : Alike (.number n) (.number n)
  | string (s : String) : Alike (.string s) (.string s)
  | array {items others : List Json} (h : List.Forall₂ Alike items others) :
      Alike (.array items) (.array others)
  | object {members others : Members []}
      (names : ∀ name, (members.get? name).isSome = (others.get? name).isSome)
      (values : ∀ name value other, members.get? name = some value →
        others.get? name = some other → Alike value other) :
      Alike (.object members) (.object others)

namespace Members

theorem get?_eq_lookup {name : String} : ∀ {taken : List String} (members : Members taken),
    members.get? name = members.toList.lookup name
  | _, .nil => rfl
  | _, .cons key _ _ rest => by
    rw [get?, toList, List.lookup_cons, get?_eq_lookup rest]
    by_cases h : name = key
    · rw [if_pos h, beq_iff_eq.mpr h]
    · rw [if_neg h, beq_eq_false_iff_ne.mpr h]

end Members

/-! ## Whole numbers that values do not hold -/

/-- A whole number past the greatest of 64 bits becomes the nearest double. -/
def Json.Number.narrow : Json.Number → Json.Number
  | .integer n inRange =>
    if h : 0x8000000000000000 ≤ n then
      .float (Binary64.ofInt n) (Binary64.isNearest_ofInt h inRange.2).finite
    else .integer n inRange
  | .float x finite => .float x finite

mutual

/-- Whole numbers past the greatest of 64 bits become the nearest double, at any depth. -/
def Json.narrow : Json → Json
  | .number n => .number n.narrow
  | .array items => .array (Json.narrowItems items)
  | .object members => .object members.narrow
  | document => document
termination_by structural document => document

def Json.narrowItems : List Json → List Json
  | [] => []
  | item :: rest => item.narrow :: Json.narrowItems rest
termination_by structural items => items

def Members.narrow {taken : List String} : Members taken → Members taken
  | .nil => .nil
  | .cons name fresh value rest => .cons name fresh value.narrow rest.narrow
termination_by structural members => members

end

namespace Json.Number

theorem narrow_narrow (n : Json.Number) : n.narrow.narrow = n.narrow := by
  cases n with
  | integer n inRange =>
    by_cases h : 0x8000000000000000 ≤ n
    · rw [narrow, dif_pos h]
      rfl
    · rw [narrow, dif_neg h, narrow, dif_neg h]
  | float x finite => rfl

theorem ofNumber_narrow (n : Json.Number) : Value.ofNumber n.narrow = Value.ofNumber n := by
  cases n with
  | integer n inRange =>
    by_cases h : 0x8000000000000000 ≤ n
    · rw [narrow, dif_pos h, Value.ofNumber, Value.ofNumber, if_neg (Int.not_lt.mpr h)]
    · rw [narrow, dif_neg h]
  | float x finite => rfl

theorem toJson_ofNumber (n : Json.Number) : (Value.ofNumber n).toJson = .number n.narrow := by
  cases n with
  | integer n inRange =>
    by_cases h : 0x8000000000000000 ≤ n
    · rw [narrow, dif_pos h, Value.ofNumber, if_neg (Int.not_lt.mpr h), Value.toJson,
        Value.ofFloat, dif_pos]
    · have hint : (Int64.ofInt n).toInt = n :=
        Int64.toInt_ofInt_of_le inRange.1 (Int.not_le.mp h)
      simp only [narrow, dif_neg h, Value.ofNumber, if_pos (Int.not_le.mp h), Value.toJson, hint]
  | float x finite => rw [narrow, Value.ofNumber, Value.toJson, Value.ofFloat, dif_pos]

end Json.Number

/-! ## What narrowing keeps -/

theorem Members.get?_narrow {name : String} : ∀ {taken : List String} (members : Members taken),
    members.narrow.get? name = (members.get? name).map Json.narrow
  | _, .nil => rfl
  | _, .cons key _ _ rest => by
    rw [narrow, get?, get?, get?_narrow rest]
    split
    · rfl
    · rfl

mutual

theorem Json.narrow_narrow : ∀ document : Json, document.narrow.narrow = document.narrow
  | .null | .boolean _ | .string _ => rfl
  | .number n => by rw [Json.narrow, Json.narrow, Json.Number.narrow_narrow]
  | .array items => by rw [Json.narrow, Json.narrow, Json.narrowItems_narrowItems items]
  | .object members => by rw [Json.narrow, Json.narrow, Members.narrow_narrow members]

theorem Json.narrowItems_narrowItems :
    ∀ items : List Json, Json.narrowItems (Json.narrowItems items) = Json.narrowItems items
  | [] => rfl
  | item :: rest => by
    rw [Json.narrowItems, Json.narrowItems, Json.narrow_narrow item,
      Json.narrowItems_narrowItems rest]

theorem Members.narrow_narrow {taken : List String} :
    ∀ members : Members taken, members.narrow.narrow = members.narrow
  | .nil => rfl
  | .cons _ _ value rest => by
    rw [Members.narrow, Members.narrow, Json.narrow_narrow value, Members.narrow_narrow rest]

end

mutual

/-- Narrowing does what reading does anyway. -/
theorem Value.ofJson_narrow : ∀ document : Json, ofJson document.narrow = ofJson document
  | .null | .boolean _ | .string _ => rfl
  | .number n => Json.Number.ofNumber_narrow n
  | .array items => by rw [Json.narrow, ofJson, ofJson, ofItems_narrowItems items]
  | .object members => by rw [Json.narrow, ofJson, ofJson, ofMembers_narrow members]

theorem Value.ofItems_narrowItems :
    ∀ items : List Json, ofItems (Json.narrowItems items) = ofItems items
  | [] => rfl
  | item :: rest => by
    rw [Json.narrowItems, ofItems, ofItems, ofJson_narrow item, ofItems_narrowItems rest]

theorem Value.ofMembers_narrow {taken : List String} :
    ∀ members : Members taken, ofMembers members.narrow = ofMembers members
  | .nil => rfl
  | .cons _ _ value rest => by
    rw [Members.narrow, ofMembers, ofMembers, ofJson_narrow value, ofMembers_narrow rest]

end

/-! ## Reading and writing -/

namespace Value

theorem get?_ofMembers {name : String} : ∀ {taken : List String} (members : Members taken),
    (ofMembers members).get? name = (members.get? name).map ofJson
  | _, .nil => rfl
  | _, .cons key _ _ rest => by
    rw [ofMembers, Fields.get?_insert, Members.get?, get?_ofMembers rest]
    split
    · rfl
    · rfl

theorem lookup_toMembers {name : String} : ∀ {low : Option String} (fields : Fields low),
    (toMembers fields).lookup name = (fields.get? name).map toJson
  | _, .nil => rfl
  | _, .cons key _ _ rest => by
    rw [toMembers, List.lookup_cons, Fields.get?, lookup_toMembers rest]
    by_cases h : name = key
    · rw [if_pos h, beq_iff_eq.mpr h]
      rfl
    · rw [if_neg h, beq_eq_false_iff_ne.mpr h]

theorem get?_ofList_toMembers {name : String} (fields : Fields none) :
    (Members.ofList (toMembers fields)).get? name = (fields.get? name).map toJson := by
  rw [Members.get?_eq_lookup, Members.toList_ofList (nodup_names_toMembers fields),
    lookup_toMembers]

mutual

/-- Reading and writing narrows whole numbers and moves members, and does nothing else. -/
theorem alike_toJson_ofJson : ∀ document : Json, (ofJson document).toJson.Alike document.narrow
  | .null => .null
  | .boolean b => .boolean b
  | .string s => .string s
  | .number n => by
    rw [ofJson, Json.Number.toJson_ofNumber, Json.narrow]
    exact .number n.narrow
  | .array items => .array (alike_toItems_ofItems items)
  | .object members => by
    have hget (name : String) :
        (Members.ofList (toMembers (ofMembers members))).get? name =
          (members.get? name).map fun value => (ofJson value).toJson := by
      rw [get?_ofList_toMembers, get?_ofMembers, Option.map_map]
      rfl
    rw [ofJson, toJson, Json.narrow]
    refine .object (fun name => ?_) fun name value other hvalue hother => ?_
    · rw [hget, Members.get?_narrow, Option.isSome_map, Option.isSome_map]
    · rw [hget] at hvalue
      rw [Members.get?_narrow] at hother
      obtain ⟨v, hv, rfl⟩ := Option.map_eq_some_iff.mp hvalue
      obtain ⟨w, hw, rfl⟩ := Option.map_eq_some_iff.mp hother
      cases hv.symm.trans hw
      exact alike_of_get? members hv

theorem alike_toItems_ofItems : ∀ items : List Json,
    List.Forall₂ Json.Alike (toItems (ofItems items)) (Json.narrowItems items)
  | [] => .nil
  | item :: rest => .cons (alike_toJson_ofJson item) (alike_toItems_ofItems rest)

theorem alike_of_get? {name : String} {taken : List String} :
    ∀ members : Members taken, ∀ {v : Json}, members.get? name = some v →
      (ofJson v).toJson.Alike v.narrow
  | .nil, _, h => nomatch h
  | .cons key _ value rest, v, h => by
    rw [Members.get?] at h
    split at h
    · exact Option.some.inj h ▸ alike_toJson_ofJson value
    · exact alike_of_get? rest h

end

end Value

end RecordQuery
