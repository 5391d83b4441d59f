import RecordQuery.Proofs.Meaning
import RecordQuery.Proofs.Route
import RecordQuery.Proofs.Values

/-!
Records in which an array stands in another order. A record still conforms when some of its arrays
is rearranged (`Conforms.replaceAt`). A path through the array ends at the same values below each
item as before (`targets_append`), and a path that leads elsewhere notices nothing
(`targets_replaceAt`).
-/

namespace RecordQuery

open Query (Step targets)

/-! ## Places below properties -/

namespace Value

/-- The value at the end of a chain of property names. -/
def at? : Value → List String → Option Value
  | v, [] => some v
  | .object fields, name :: p => (fields.get? name).bind fun v => v.at? p
  | _, _ :: _ => none
termination_by structural _ p => p

/-- Another value at the end of a chain of property names. -/
def replaceAt : Value → List String → Value → Value
  | _, [], new => new
  | .object fields, name :: p, new =>
    match fields.get? name with
    | some v => .object (fields.insert name (Fields.above_none name) (v.replaceAt p new))
    | none => .object fields
  | v, _ :: _, _ => v
termination_by structural _ p => p

variable {data v new : Value} {name : String} {p : List String}

theorem at?_cons_eq_some (h : data.at? (name :: p) = some v) : ∃ fields child,
    data = .object fields ∧ fields.get? name = some child ∧ child.at? p = some v := by
  cases data with
  | object fields =>
    obtain ⟨child, hchild, hv⟩ := Option.bind_eq_some_iff.mp h
    exact ⟨fields, child, rfl, hchild, hv⟩
  | null | boolean | integer | float | string | array => cases h

theorem replaceAt_object {fields : Fields none} {child : Value}
    (h : fields.get? name = some child) : (object fields).replaceAt (name :: p) new =
      .object (fields.insert name (Fields.above_none name) (child.replaceAt p new)) := by
  simp only [replaceAt, h]

theorem at?_replaceAt (h : data.at? p = some v) : (data.replaceAt p new).at? p = some new := by
  induction p generalizing data with
  | nil => rfl
  | cons name p ih =>
    obtain ⟨fields, child, rfl, hchild, hv⟩ := at?_cons_eq_some h
    rw [replaceAt_object hchild, at?, Fields.get?_insert, if_pos rfl]
    exact ih hv

end Value

/-! ## Conformance -/

variable {data v new : Value} {p : List String} {es es' : List Value} {path : List Step}

theorem Schema.Conforms.replaceAt {schema : Schema} (h : schema.Conforms data)
    (hat : data.at? p = some (.array es)) (hes : ∀ v ∈ es', v ∈ es) :
    schema.Conforms (data.replaceAt p (.array es')) := by
  induction p generalizing schema data with
  | nil =>
    cases hat
    obtain ⟨items, rfl, each⟩ := h.of_array
    exact .array fun v hv => each v (hes v hv)
  | cons name p ih =>
    obtain ⟨fields, child, rfl, hchild, hv⟩ := Value.at?_cons_eq_some hat
    obtain ⟨properties, required, rfl, present, declared⟩ := h.of_object
    rw [Value.replaceAt_object hchild]
    refine .object (fun key hkey => ?_) (fun q hq w hw => ?_)
    · rw [Fields.get?_insert]
      split
      · rfl
      · exact present key hkey
    · rw [Fields.get?_insert] at hw
      split at hw
      · rename_i hname
        cases hw
        exact ih (declared q hq child (hname ▸ hchild)) hv
      · exact declared q hq w hw

/-! ## Paths -/

/-- The way along a chain of property names. -/
def Query.along (p : List String) : List Step := p.map .property

/-- A path that follows the chain goes on from what stands at its end. -/
theorem Query.targets_append (h : data.at? p = some v) :
    targets (along p ++ path) data = targets path v := by
  induction p generalizing data with
  | nil =>
    cases h
    rfl
  | cons name p ih =>
    obtain ⟨fields, child, rfl, hchild, hv⟩ := Value.at?_cons_eq_some h
    have htargets : (Step.property name).targets (.object fields) = [child] := by
      rw [Step.targets, hchild]
      rfl
    rw [along, List.map_cons, List.cons_append, targets, htargets, List.flatMap_singleton]
    exact ih hv

/-- A path that goes on to the items of the array finds what its rest finds from each of them. -/
theorem Query.targets_append_item {rest : List Step} (h : data.at? p = some (.array es)) :
    targets (along p ++ .item :: rest) data = es.flatMap (targets rest) := by
  rw [targets_append h]
  rfl

/-- Another array at the end of a chain changes nothing for a path that neither ends on the chain
nor goes on to the items. -/
theorem Query.targets_replaceAt (hat : data.at? p = some (.array es))
    (hbelow : ¬ along p ++ [.item] <+: path) (habove : ¬ path <+: along p) :
    targets path (data.replaceAt p (.array es')) = targets path data := by
  induction p generalizing data path with
  | nil =>
    cases hat
    cases path with
    | nil => exact absurd List.nil_prefix habove
    | cons step rest =>
      cases step with
      | property name => rfl
      | item => exact absurd (List.prefix_append [Step.item] rest) hbelow
  | cons name p ih =>
    obtain ⟨fields, child, rfl, hchild, hv⟩ := Value.at?_cons_eq_some hat
    rw [Value.replaceAt_object hchild]
    cases path with
    | nil => exact absurd List.nil_prefix habove
    | cons step rest =>
      cases step with
      | item => rfl
      | property key =>
        rw [targets, targets, Step.targets, Step.targets, Fields.get?_insert]
        by_cases hkey : key = name
        · subst hkey
          rw [if_pos rfl, hchild, List.flatMap_singleton, List.flatMap_singleton]
          exact ih hv (fun h => hbelow (List.cons_prefix_cons.mpr ⟨rfl, h⟩))
            (fun h => habove (List.cons_prefix_cons.mpr ⟨rfl, h⟩))
        · rw [if_neg hkey]

/-! ## Values below the items -/

/-- Past an array a path ends at one value below each item. -/
theorem Query.targets_of_route {walked : List Step} {node target : Schema}
    (h : route walked true node path = .ok target) (hv : node.Fits v) :
    ∃ w, targets path v = [w] := by
  induction path generalizing walked node v with
  | nil => exact ⟨v, rfl⟩
  | cons step path ih =>
    obtain ⟨⟨child, crossed⟩, hadv, h⟩ := bind_eq_ok.mp h
    unfold advance at hadv
    split at hadv
    · split at hadv
      · cases hadv
      · rename_i hchild
        cases hadv
        obtain ⟨w, hw, hfits⟩ := hv.field hchild []
        rw [targets, field_eq_ok hw, List.flatMap_singleton]
        exact ih h hfits
    · cases hadv
    · cases hadv
    · cases hadv
    · cases hadv

theorem Query.route_append {walked : List Step} {crossed : Bool} {schema target : Schema}
    (hdata : schema.Conforms data) (hat : data.at? p = some v)
    (h : route walked crossed schema (along p ++ path) = .ok target) :
    ∃ walked' node, node.Conforms v ∧ route walked' crossed node path = .ok target := by
  induction p generalizing walked schema data with
  | nil =>
    cases hat
    exact ⟨walked, schema, hdata, h⟩
  | cons name p ih =>
    obtain ⟨fields, child, rfl, hchild, hv⟩ := Value.at?_cons_eq_some hat
    obtain ⟨properties, required, rfl, _, declared⟩ := hdata.of_object
    obtain ⟨⟨node, crossed'⟩, hadv, h⟩ := bind_eq_ok.mp h
    simp only [advance] at hadv
    split at hadv
    · cases hadv
    · rename_i hnode
      cases hadv
      exact ih (declared _ (Schema.mem_of_property?_eq_some hnode) child hchild) hv h

/-- Where a path goes on to the items of an array, it finds one value below each of them. -/
theorem Query.targets_item_of_resolvePath {limits : Limits} {schema : Schema} {o : Outcome}
    {rest : List Step} (hdata : schema.Conforms data) (hat : data.at? p = some (.array es))
    (h : resolvePath limits (along p ++ .item :: rest) data schema = .ok o) :
    ∀ v ∈ es, ∃ w, targets rest v = [w] := by
  have hfail : ∀ e, destination limits (along p ++ .item :: rest) schema = .error e →
      resolvePath limits (along p ++ .item :: rest) data schema = .error e :=
    (resolvePath_of_conforms hdata).1
  cases hroute : destination limits (along p ++ .item :: rest) schema with
  | error e =>
    rw [hfail e hroute] at h
    cases h
  | ok target =>
    unfold destination at hroute
    split at hroute
    · cases hroute
    · obtain ⟨walked, node, hnode, hroute⟩ := route_append hdata hat hroute
      obtain ⟨items, rfl, each⟩ := hnode.of_array
      intro v hv
      exact targets_of_route hroute (Or.inr (each v hv))

end RecordQuery
