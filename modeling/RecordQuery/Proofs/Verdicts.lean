import RecordQuery.Proofs.Causes
import RecordQuery.Proofs.Typing

/-!
Verdicts on paths. A path that is too long, or that has a step that does not fit the node before it,
is refused, and all others lead to a node of the schema (`destination_eq_error_iff`,
`destination_eq_ok_iff`). On records that are accepted there is nothing else to decide: a refused
path fails on each of them with one error, and any other succeeds on each of them
(`resolvePath_decided_by_schema`).
-/

namespace RecordQuery

namespace Query

/-- A step that does not fit the node to which the steps before it lead, and the error it gives. -/
inductive Unfit (walked : List Step) : Schema → Step → Error → Prop
  | unknownProperty {properties : List (String × Schema)} {required : List String} {name : String}
      (undeclared : name ∉ properties.map Prod.fst) :
      Unfit walked (.object properties required) (.property name) (.unknownProperty name)
  | propertyOfArray {items : Schema} {name : String} :
      Unfit walked (.array items) (.property name) (.arrayAccess (.propertyOfArray name walked))
  | itemsOfObject {properties : List (String × Schema)} {required : List String} :
      Unfit walked (.object properties required) .item
        (.arrayAccess (.itemsOfOther walked .object))
  | itemsOfScalar {kind : Schema.Scalar} :
      Unfit walked (.scalar kind) .item (.arrayAccess (.itemsOfOther walked (.scalar kind)))
  | intoScalar {kind : Schema.Scalar} {name : String} :
      Unfit walked (.scalar kind) (.property name) (.intoScalar name)
  | nestedArrays {items : Schema} (crossed : .item ∈ walked) :
      Unfit walked (.array items) .item (.tooComplex (.nestedArrays walked))

/-- A path that is too long, or whose first step that does not fit gives the error. -/
inductive Refused (limits : Limits) (schema : Schema) : List Step → Error → Prop
  | tooLong {path : List Step} (long : limits.maxPathLength < path.length) :
      Refused limits schema path (.tooComplex (.pathLength path.length limits.maxPathLength))
  | unfit {walked rest : List Step} {step : Step} {node : Schema} {e : Error}
      (short : (walked ++ step :: rest).length ≤ limits.maxPathLength)
      (reaches : schema.Reaches walked node) (once : walked.count .item ≤ 1)
      (unfit : Unfit walked node step e) : Refused limits schema (walked ++ step :: rest) e

end Query

theorem Schema.property?_eq_none_iff {properties : List (String × Schema)} {required : List String}
    {name : String} :
    (object properties required).property? name = none ↔ name ∉ properties.map Prod.fst := by
  rw [property?, Option.map_eq_none_iff, List.find?_eq_none, List.mem_map]
  constructor
  · rintro h ⟨p, hp, hname⟩
    exact h p hp (by simpa using hname)
  · intro h p hp hname
    exact h ⟨p, hp, by simpa using hname⟩

namespace Query

/-! ## One step -/

section

variable {limits : Limits} {walked path rest : List Step} {crossed crossed' : Bool}
  {schema node child : Schema} {step : Step} {e : Error}

/-- A step fails where it does not fit. Whether an array lies behind is told by the way to here. -/
theorem advance_eq_error_iff (hcrossed : walked.count .item = crossed.toNat) :
    advance walked crossed node step = .error e ↔ Unfit walked node step e := by
  constructor
  · intro h
    cases node with
    | object properties required =>
      cases step with
      | property name =>
        cases hchild : (Schema.object properties required).property? name with
        | none =>
          simp only [advance, hchild] at h
          cases h
          exact .unknownProperty (Schema.property?_eq_none_iff.mp hchild)
        | some child =>
          simp only [advance, hchild] at h
          cases h
      | item =>
        cases h
        exact .itemsOfObject
    | array items =>
      cases step with
      | property name =>
        cases h
        exact .propertyOfArray
      | item =>
        cases crossed with
        | false => cases h
        | true =>
          cases h
          have hpos : 0 < walked.count .item := hcrossed ▸ Nat.one_pos
          exact .nestedArrays (List.count_pos_iff.mp hpos)
    | scalar kind =>
      cases step with
      | property name =>
        cases h
        exact .intoScalar
      | item =>
        cases h
        exact .itemsOfScalar
  · intro h
    cases h with
    | unknownProperty undeclared =>
      simp only [advance, Schema.property?_eq_none_iff.mpr undeclared]
    | nestedArrays hmem =>
      cases crossed with
      | false => exact absurd hmem (List.count_eq_zero.mp hcrossed)
      | true => rfl
    | propertyOfArray | itemsOfObject | itemsOfScalar | intoScalar => rfl

theorem advance_eq_ok (h : advance walked crossed node step = .ok (child, crossed')) :
    node.Reaches [step] child ∧ crossed'.toNat = crossed.toNat + [step].count .item := by
  unfold advance at h
  split at h
  · split at h
    · cases h
    · rename_i hchild
      cases h
      exact ⟨.property hchild .here, rfl⟩
  · split at h
    · cases h
    · rename_i hcrossed
      cases h
      rw [Bool.eq_false_iff.mpr hcrossed]
      exact ⟨.item .here, rfl⟩
  · cases h
  · cases h
  · cases h

/-! ## Routes -/

theorem reaches_of_route (h : route walked crossed schema path = .ok node) :
    schema.Reaches path node ∧ path.count .item + crossed.toNat ≤ 1 := by
  induction path generalizing walked crossed schema with
  | nil =>
    cases h
    exact ⟨.here, by simpa using crossed.toNat_le⟩
  | cons step path ih =>
    obtain ⟨⟨child, crossed'⟩, hstep, h⟩ := bind_eq_ok.mp h
    obtain ⟨hchild, hcrossed⟩ := advance_eq_ok hstep
    obtain ⟨hbelow, hcount⟩ := ih h
    refine ⟨hchild.append hbelow, ?_⟩
    rw [← List.singleton_append, List.count_append]
    omega

/-- Past the steps that fit a route goes on from the node they lead to. -/
theorem route_append_of_reaches (h : schema.Reaches path node)
    (hcount : path.count .item + crossed.toNat = crossed'.toNat) :
    route walked crossed schema (path ++ rest) = route (walked ++ path) crossed' node rest := by
  induction h generalizing walked crossed with
  | here =>
    rw [List.count_nil, Nat.zero_add] at hcount
    have hsame : crossed = crossed' := by
      cases crossed <;> cases crossed' <;> first | rfl | cases hcount
    rw [hsame, List.nil_append, List.append_nil]
  | @property _ _ name _ _ path declared _ ih =>
    have hstep : path.count .item + crossed.toNat = crossed'.toNat := by simpa using hcount
    simp only [List.cons_append, route, advance, declared]
    rw [List.append_cons walked (.property name) path]
    exact ih hstep
  | @item _ _ path _ ih =>
    rw [List.count_cons_self] at hcount
    have hle := crossed'.toNat_le
    cases crossed with
    | true =>
      rw [Bool.toNat_true] at hcount
      omega
    | false =>
      rw [List.append_cons walked .item path]
      exact ih (by simpa using hcount)

/-- A route that fails leads to a node that the next step does not fit. -/
theorem unfit_of_route (hcrossed : walked.count .item = crossed.toNat)
    (h : route walked crossed schema path = .error e) : ∃ front step back node,
      path = front ++ step :: back ∧ schema.Reaches front node ∧
        (walked ++ front).count .item ≤ 1 ∧ Unfit (walked ++ front) node step e := by
  induction path generalizing walked crossed schema with
  | nil => cases h
  | cons step path ih =>
    rcases bind_eq_error.mp h with h | ⟨⟨child, crossed'⟩, hstep, h⟩
    · refine ⟨[], step, path, schema, rfl, .here, ?_, ?_⟩
      · rw [List.append_nil, hcrossed]
        exact crossed.toNat_le
      · rw [List.append_nil]
        exact (advance_eq_error_iff hcrossed).mp h
    · obtain ⟨hchild, hcrossed'⟩ := advance_eq_ok hstep
      have hcount : (walked ++ [step]).count .item = crossed'.toNat := by
        rw [List.count_append, hcrossed, hcrossed']
      obtain ⟨front, next, back, node, rfl, hnode, honce, hunfit⟩ := ih hcount h
      rw [← List.append_cons] at honce hunfit
      exact ⟨step :: front, next, back, node, rfl, hchild.append hnode, honce, hunfit⟩

/-! ## Verdicts -/

theorem destination_eq_ok_iff : destination limits path schema = .ok node ↔
    schema.Reaches path node ∧ path.count .item ≤ 1 ∧ path.length ≤ limits.maxPathLength := by
  constructor
  · intro h
    unfold destination at h
    split at h
    · cases h
    · rename_i hlength
      obtain ⟨hnode, hcount⟩ := reaches_of_route h
      exact ⟨hnode, hcount, Nat.not_lt.mp hlength⟩
  · rintro ⟨hnode, hcount, hlength⟩
    exact destination_of_reaches hnode hcount hlength

theorem destination_eq_error_iff :
    destination limits path schema = .error e ↔ Refused limits schema path e := by
  constructor
  · intro h
    unfold destination at h
    split at h
    · rename_i hlength
      cases h
      exact .tooLong hlength
    · rename_i hlength
      obtain ⟨front, step, back, node, rfl, hnode, honce, hunfit⟩ := unfit_of_route rfl h
      exact .unfit (Nat.not_lt.mp hlength) hnode honce hunfit
  · intro h
    cases h with
    | tooLong long => rw [destination, if_pos long]
    | @unfit walked rest step node _ short reaches once unfit =>
      rw [destination, if_neg (Nat.not_lt.mpr short)]
      obtain ⟨crossed, hcrossed⟩ : ∃ crossed : Bool, walked.count .item = crossed.toNat := by
        rcases Nat.le_one_iff_eq_zero_or_eq_one.mp once with h | h
        · exact ⟨false, h⟩
        · exact ⟨true, h⟩
      have hcount : walked.count .item + false.toNat = crossed.toNat := hcrossed
      rw [route_append_of_reaches reaches hcount, List.nil_append]
      exact bind_eq_error.mpr (Or.inl ((advance_eq_error_iff hcrossed).mpr unfit))

end

/-- **Paths are typed by the schema.** One of two things is the case for all accepted records at
once. Either the path is refused, and fails on each of them with the error of the refusal, which
never blames the record. Or it leads to a node of the schema and succeeds on each of them: with a
broadcast exactly where it has an item step, and with values that are null or accepted for the
node. -/
theorem resolvePath_decided_by_schema (limits : Limits) (path : List Step) (schema : Schema) :
    (∃ e, Refused limits schema path e ∧ e.isInputError = true ∧
      ∀ data, Schema.structural data schema = .ok () →
        resolvePath limits path data schema = .error e) ∨
    ∃ node, schema.Reaches path node ∧
      ∀ data, Schema.structural data schema = .ok () →
        ∃ o, resolvePath limits path data schema = .ok o ∧ (o.isBroadcast = true ↔ .item ∈ path) ∧
          ∀ v ∈ o.values, v = .null ∨ Schema.structural v node = .ok () := by
  cases hroute : destination limits path schema with
  | error e =>
    left
    refine ⟨e, destination_eq_error_iff.mp hroute, ?_, fun data haccepted => ?_⟩
    · exact (ofRoute_of_destination hroute).isInputError
    · exact (resolvePath_of_conforms (Schema.structural_eq_ok_iff.mp haccepted)).1 e hroute
  | ok node =>
    right
    refine ⟨node, (destination_eq_ok_iff.mp hroute).1, fun data haccepted => ?_⟩
    have hdata := Schema.structural_eq_ok_iff.mp haccepted
    obtain ⟨o, ho, hfits⟩ := (resolvePath_of_conforms hdata).2 node hroute
    refine ⟨o, ho, (resolvePath_eq_ok ho).2, fun v hv => ?_⟩
    exact (hfits v hv).imp_right Schema.structural_eq_ok_iff.mpr

end Query

end RecordQuery
