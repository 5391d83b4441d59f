import RecordQuery.Proofs.Values
import RecordQuery.Value.Json

/-!
Values through JSON documents. A value that is written and read again is the same but for infinities
and NaN, which become null at any depth (`ofJson_toJson`). Names stand in increasing order in the
document, so no field meets another one of its name on the way back.
-/

namespace RecordQuery

/-! ## Members of documents -/

namespace Members

/-- A new name goes to the end. -/
theorem toList_put {name : String} {value : Json} : ∀ {taken : List String}
    (fresh : name ∉ taken) (members : Members taken), name ∉ members.toList.map Prod.fst →
      (members.put name fresh value).toList = members.toList ++ [(name, value)]
  | _, _, .nil, _ => rfl
  | _, _, .cons key _ _ rest, h => by
    rw [toList, List.map_cons, List.mem_cons, not_or] at h
    obtain ⟨hne, hrest⟩ := h
    rw [put, dif_neg hne, toList, toList, toList_put _ rest hrest, List.cons_append]

theorem toList_foldl_put (l : List (String × Json)) (members : Members [])
    (h : ((members.toList ++ l).map Prod.fst).Nodup) :
    (l.foldl (fun before m => before.put m.1 List.not_mem_nil m.2) members).toList =
      members.toList ++ l := by
  induction l generalizing members with
  | nil => exact (List.append_nil _).symm
  | cons m l ih =>
    have hfresh : m.1 ∉ members.toList.map Prod.fst := by
      rw [List.map_append, List.nodup_append] at h
      exact fun hm => h.2.2 m.1 hm m.1 (List.mem_cons_self ..) rfl
    have hput : (members.put m.1 List.not_mem_nil m.2).toList = members.toList ++ [m] :=
      toList_put _ members hfresh
    rw [List.foldl_cons, ih, hput, List.append_assoc]
    · rfl
    · rw [hput, List.append_assoc]
      exact h

/-- Members with names of their own stand as they are listed. -/
theorem toList_ofList {l : List (String × Json)} (h : (l.map Prod.fst).Nodup) :
    (ofList l).toList = l :=
  toList_foldl_put l .nil h

theorem mem_toList_of_get? {name : String} {document : Json} : ∀ {taken : List String}
    (members : Members taken), members.get? name = some document →
      (name, document) ∈ members.toList
  | _, .nil, h => nomatch h
  | _, .cons key _ value rest, h => by
    rw [get?] at h
    rw [toList]
    split at h
    · rename_i hname
      cases h
      rw [hname]
      exact List.mem_cons_self ..
    · exact List.mem_cons_of_mem _ (mem_toList_of_get? rest h)

theorem not_mem_taken {m : String × Json} : ∀ {taken : List String} (members : Members taken),
    m ∈ members.toList → m.1 ∉ taken
  | _, .nil, h => nomatch h
  | _, .cons name fresh value rest, h => by
    rw [toList] at h
    rcases List.mem_cons.mp h with rfl | h
    · exact fresh
    · exact fun hm => not_mem_taken rest h (List.mem_cons_of_mem _ hm)

/-- No name stands twice in one object. -/
theorem nodup_names : ∀ {taken : List String} (members : Members taken),
    (members.toList.map Prod.fst).Nodup
  | _, .nil => List.nodup_nil
  | _, .cons name _ _ rest => by
    rw [toList, List.map_cons, List.nodup_cons]
    refine ⟨fun h => ?_, nodup_names rest⟩
    obtain ⟨m, hm, rfl⟩ := List.mem_map.mp h
    exact not_mem_taken rest hm (List.mem_cons_self ..)

end Members

namespace Value

/-! ## What becomes of a value -/

mutual

/-- Infinities and NaN, at any depth, become null. -/
def normal : Value → Value
  | .float x => if x.isFinite then .float x else .null
  | .array items => .array (normalItems items)
  | .object fields => .object (normalFields fields)
  | v => v
termination_by structural v => v

def normalItems : List Value → List Value
  | [] => []
  | v :: rest => v.normal :: normalItems rest
termination_by structural vs => vs

def normalFields {low : Option String} : Fields low → Fields low
  | .nil => .nil
  | .cons name above v rest => .cons name above v.normal (normalFields rest)
termination_by structural fields => fields

end

mutual

/-- Exactly the values without infinities and NaN stay as they are. -/
theorem normal_eq_self_iff :
    ∀ v : Value, v.normal = v ↔ v.allFloats Binary64.isFinite = true
  | .null | .boolean _ | .integer _ | .string _ => ⟨fun _ => rfl, fun _ => rfl⟩
  | .float x => by
    rw [normal, allFloats]
    split
    · exact ⟨fun _ => ‹_›, fun _ => rfl⟩
    · exact ⟨nofun, fun h => absurd h ‹_›⟩
  | .array items => by
    rw [normal, allFloats, ← normalItems_eq_self_iff items, array.injEq]
  | .object fields => by
    rw [normal, allFloats, ← normalFields_eq_self_iff fields, object.injEq]

theorem normalItems_eq_self_iff :
    ∀ items : List Value, normalItems items = items ↔ allFloatsIn Binary64.isFinite items = true
  | [] => ⟨fun _ => rfl, fun _ => rfl⟩
  | v :: rest => by
    rw [normalItems, allFloatsIn, Bool.and_eq_true, ← normal_eq_self_iff v,
      ← normalItems_eq_self_iff rest, List.cons.injEq]

theorem normalFields_eq_self_iff {low : Option String} :
    ∀ fields : Fields low,
      normalFields fields = fields ↔ allFloatsUnder Binary64.isFinite fields = true
  | .nil => ⟨fun _ => rfl, fun _ => rfl⟩
  | .cons name above v rest => by
    rw [normalFields, allFloatsUnder, Bool.and_eq_true, ← normal_eq_self_iff v,
      ← normalFields_eq_self_iff rest]
    simp

end

/-! ## Writing and reading -/

theorem ofNumber_toInt (n : Int64)
    (inRange : -0x8000000000000000 ≤ n.toInt ∧ n.toInt < 0x10000000000000000) :
    ofNumber (.integer n.toInt inRange) = .integer n := by
  have hlt : n.toInt < 0x8000000000000000 := n.toInt_lt
  rw [ofNumber, if_pos hlt, Int64.ofInt_toInt]

/-- The object that is read from members in the given order. -/
def ofPairs : List (String × Json) → Fields none
  | [] => .nil
  | (name, document) :: rest =>
    (ofPairs rest).insert name (Fields.above_none name) (ofJson document)

theorem ofMembers_eq_ofPairs {taken : List String} :
    ∀ members : Members taken, ofMembers members = ofPairs members.toList
  | .nil => rfl
  | .cons name _ document rest =>
    congrArg (fun before => Fields.insert name (Fields.above_none name) (ofJson document) before)
      (ofMembers_eq_ofPairs rest)

theorem names_toMembers {low : Option String} :
    ∀ fields : Fields low, (toMembers fields).map Prod.fst = fields.toList.map Prod.fst
  | .nil => rfl
  | .cons _ _ _ rest => by
    rw [toMembers, Fields.toList, List.map_cons, List.map_cons, names_toMembers rest]

theorem nodup_names_toMembers {low : Option String} (fields : Fields low) :
    ((toMembers fields).map Prod.fst).Nodup := by
  rw [names_toMembers]
  exact List.pairwise_map.mpr (fields.pairwise_toList.imp fun h => String.ne_of_lt h)

mutual

/-- Writing and reading changes infinities and NaN, and nothing else. -/
theorem ofJson_toJson : ∀ v : Value, ofJson v.toJson = v.normal
  | .null | .boolean _ | .string _ => rfl
  | .integer n => by
    rw [toJson, ofJson, ofNumber_toInt]
    rfl
  | .float x => by
    rw [toJson, ofFloat, normal]
    split
    · rfl
    · rfl
  | .array items => by rw [toJson, ofJson, normal, ofItems_toItems items]
  | .object fields => by
    rw [toJson, ofJson, normal, ofMembers_eq_ofPairs,
      Members.toList_ofList (nodup_names_toMembers fields), ofPairs_toMembers fields,
      Fields.widen_eq_self]

theorem ofItems_toItems : ∀ items : List Value, ofItems (toItems items) = normalItems items
  | [] => rfl
  | v :: rest => by rw [toItems, ofItems, normalItems, ofJson_toJson v, ofItems_toItems rest]

theorem ofPairs_toMembers {low : Option String} :
    ∀ fields : Fields low, ofPairs (toMembers fields) = (normalFields fields).widen
  | .nil => rfl
  | .cons name _ v rest => by
    rw [toMembers, ofPairs, ofPairs_toMembers rest, ofJson_toJson v, Fields.insert_widen]
    rfl

end

end Value

end RecordQuery
