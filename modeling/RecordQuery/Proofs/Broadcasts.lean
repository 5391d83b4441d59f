import RecordQuery.Proofs.Elementwise
import RecordQuery.Proofs.Verdicts

/-!
Broadcasts, on records that need not conform. A path that is cut in two is walked along its front
and from there along its back (`walk_append_eq_ok_iff`). A path of properties succeeds where the
schema has such a path and each value that was reached has one value at its end (`walk_eq_ok_iff`),
so it does not matter whether the values are walked from at once or one by one. Hence a broadcast
has one value for each item of the array, in their order (`resolvePath_past_array`).
-/

namespace RecordQuery

theorem Outcome.ext_values {o o' : Outcome} (hshape : o.isBroadcast = o'.isBroadcast)
    (hvalues : o.values = o'.values) : o = o' := by
  cases o with
  | scalar v =>
    cases o' with
    | scalar w => exact congrArg scalar (List.singleton_inj.mp hvalues)
    | broadcast ws => cases hshape
  | broadcast vs =>
    cases o' with
    | scalar w => cases hshape
    | broadcast ws => exact congrArg broadcast hvalues

namespace Query

section

variable {limits : Limits} {data v : Value} {schema node child target : Schema}
  {walked path p q rest : List Step} {step : Step} {here there o : Outcome} {es : List Value}

/-! ## Cutting a path -/

theorem reaches_cons_iff (h : node.Reaches [step] child) :
    node.Reaches (step :: path) target ↔ child.Reaches path target := by
  constructor
  · intro htarget
    cases h with
    | property declared below =>
      cases below
      cases htarget with
      | property declared' below =>
        cases declared.symm.trans declared'
        exact below
    | item below =>
      cases below
      cases htarget with
      | item below => exact below
  · exact h.append

theorem reaches_of_enter (h : enter walked node here step = .ok (child, there)) :
    node.Reaches [step] child :=
  (advance_eq_ok (advance_of_enter_eq_ok h)).1

/-- A path is walked along its front, and from the node and the values there along its back. -/
theorem walk_append_eq_ok_iff : walk walked node here (p ++ rest) = .ok o ↔
    ∃ mid there, node.Reaches p mid ∧ walk walked node here p = .ok there ∧
      walk (walked ++ p) mid there rest = .ok o := by
  induction p generalizing walked node here with
  | nil =>
    rw [List.append_nil]
    constructor
    · exact fun h => ⟨node, here, .here, rfl, h⟩
    · rintro ⟨mid, there, hmid, hfront, hback⟩
      cases hmid
      cases hfront
      exact hback
  | cons step p ih =>
    rw [List.append_cons walked step p]
    constructor
    · intro h
      obtain ⟨⟨child, next⟩, hstep, h⟩ := bind_eq_ok.mp h
      obtain ⟨mid, there, hmid, hfront, hback⟩ := ih.mp h
      have hreaches := (reaches_cons_iff (reaches_of_enter hstep)).mpr hmid
      exact ⟨mid, there, hreaches, bind_eq_ok.mpr ⟨_, hstep, hfront⟩, hback⟩
    · rintro ⟨mid, there, hmid, hfront, hback⟩
      obtain ⟨⟨child, next⟩, hstep, hfront⟩ := bind_eq_ok.mp hfront
      have hreaches := (reaches_cons_iff (reaches_of_enter hstep)).mp hmid
      exact bind_eq_ok.mpr ⟨_, hstep, ih.mpr ⟨mid, there, hreaches, hfront, hback⟩⟩

/-! ## Properties -/

theorem field_eq_ok_iff {name : String} {w : Value} :
    field walked name v = .ok w ↔ (Step.property name).targets v = [w] := by
  constructor
  · exact field_eq_ok
  · intro h
    cases v with
    | null | object =>
      cases h
      rfl
    | boolean | integer | float | string | array => cases h

theorem enter_property_eq_ok_iff {name : String} :
    enter walked node here (.property name) = .ok (child, there) ↔
      node.property? name = some child ∧ here.mapM (field walked name) = .ok there := by
  cases node with
  | object properties required =>
    simp only [enter]
    cases (Schema.object properties required).property? name with
    | none => simp
    | some child' =>
      simp only [bind_eq_ok, Option.some.injEq]
      constructor
      · rintro ⟨o, ho, h⟩
        cases h
        exact ⟨rfl, ho⟩
      · rintro ⟨rfl, ho⟩
        exact ⟨there, ho, rfl⟩
  | array items => simp [enter, Schema.property?]
  | scalar kind => simp [enter, Schema.property?]

/-- One more property ends at one value exactly if there is one, from which the rest ends at one. -/
theorem exists_targets_property_iff {name : String} :
    (∃ w, targets (.property name :: q) v = [w]) ↔
      ∃ u, field walked name v = .ok u ∧ ∃ w, targets q u = [w] := by
  simp only [field_eq_ok_iff]
  constructor
  · rintro ⟨w, hw⟩
    cases v with
    | object fields =>
      rw [targets, Step.targets, List.flatMap_singleton] at hw
      exact ⟨_, rfl, w, hw⟩
    | null =>
      rw [targets, Step.targets, List.flatMap_singleton] at hw
      exact ⟨_, rfl, w, hw⟩
    | boolean | integer | float | string | array => cases hw
  · rintro ⟨u, hu, w, hw⟩
    exact ⟨w, by rw [targets, hu, List.flatMap_singleton, hw]⟩

/-- A path of properties succeeds from several values when it does from each of them. -/
theorem exists_walk_iff (hq : .item ∉ q) : (∃ o, walk walked node here q = .ok o) ↔
    (∃ target, node.Reaches q target) ∧ ∀ v ∈ here.values, ∃ w, targets q v = [w] := by
  induction q generalizing walked node here with
  | nil =>
    exact iff_of_true ⟨here, rfl⟩ ⟨⟨node, .here⟩, fun v _ => ⟨v, rfl⟩⟩
  | cons step q ih =>
    obtain ⟨hstep, hback⟩ := not_or.mp (mt List.mem_cons.mpr hq)
    cases step with
    | item => exact absurd rfl hstep
    | property name =>
      constructor
      · rintro ⟨o, h⟩
        obtain ⟨⟨child, there⟩, henter, h⟩ := bind_eq_ok.mp h
        obtain ⟨⟨target, htarget⟩, hthere⟩ := (ih hback).mp ⟨o, h⟩
        refine ⟨⟨target, (reaches_of_enter henter).append htarget⟩, fun v hv => ?_⟩
        have hfields := (Outcome.mapM_eq_ok (enter_property_eq_ok_iff.mp henter).2).2
        obtain ⟨u, hu, hfield⟩ := exists_of_mem_right hfields.flip v hv
        exact exists_targets_property_iff.mpr ⟨u, hfield, hthere u hu⟩
      · rintro ⟨⟨target, htarget⟩, hvalues⟩
        cases htarget with
        | property declared below =>
          have hfields : ∀ v ∈ here.values, ∃ u, field walked name v = .ok u ∧
              ∃ w, targets q u = [w] :=
            fun v hv => exists_targets_property_iff.mp (hvalues v hv)
          obtain ⟨there, hthere, -, hends⟩ := Outcome.exists_mapM_eq_ok hfields
          obtain ⟨o, ho⟩ := (ih hback).mpr ⟨⟨target, below⟩, hends⟩
          have henter := enter_property_eq_ok_iff.mpr ⟨declared, hthere⟩
          exact ⟨o, bind_eq_ok.mpr ⟨_, henter, ho⟩⟩

/-- From each value that was reached a path of properties ends at one value, in its place. -/
theorem walk_eq_ok_iff (hq : .item ∉ q) : walk walked node here q = .ok o ↔
    (∃ target, node.Reaches q target) ∧ o.isBroadcast = here.isBroadcast ∧
      List.Forall₂ (fun v w => targets q v = [w]) here.values o.values := by
  have hends {o' : Outcome} (h : walk walked node here q = .ok o') :
      o'.isBroadcast = here.isBroadcast ∧ o'.values = here.values.flatMap (targets q) := by
    obtain ⟨hvalues, hshape⟩ := walk_eq_ok h
    refine ⟨?_, hvalues⟩
    rw [Bool.eq_iff_iff, hshape, or_iff_left hq]
  constructor
  · intro h
    obtain ⟨hreaches, hone⟩ := (exists_walk_iff hq).mp ⟨o, h⟩
    obtain ⟨hshape, hvalues⟩ := hends h
    refine ⟨hreaches, hshape, hvalues ▸ forall₂_flatMap fun v hv => ?_⟩
    obtain ⟨w, hw⟩ := hone v hv
    exact ⟨w, hw, hw⟩
  · rintro ⟨hreaches, hshape, hvalues⟩
    obtain ⟨o', ho'⟩ := (exists_walk_iff hq).mpr ⟨hreaches, fun v hv => by
      obtain ⟨w, -, hw⟩ := exists_of_mem_right hvalues.flip v hv
      exact ⟨w, hw⟩⟩
    obtain ⟨hshape', hvalues'⟩ := hends ho'
    rw [ho', Outcome.ext_values (hshape'.trans hshape.symm)
      (hvalues'.trans (flatMap_eq_of_forall₂ hvalues))]

/-! ## Items -/

theorem elements_eq_ok_iff :
    elements walked v = .ok es ↔ v = .array es ∨ v = .null ∧ es = [] := by
  cases v <;> simp [elements, eq_comm]

theorem enter_item_eq_ok_iff : enter walked node here .item = .ok (child, there) ↔
    ∃ a es, node = .array child ∧ here = .scalar a ∧ elements walked a = .ok es ∧
      there = .broadcast es := by
  constructor
  · intro h
    cases node with
    | array items =>
      cases here with
      | scalar a =>
        obtain ⟨es, hes, h⟩ := bind_eq_ok.mp h
        cases h
        exact ⟨a, es, rfl, rfl, hes, rfl⟩
      | broadcast vs => cases h
    | object | scalar => cases h
  · rintro ⟨a, es, rfl, rfl, hes, rfl⟩
    exact bind_eq_ok.mpr ⟨es, hes, rfl⟩

/-- A walk that succeeds follows its route. -/
theorem route_of_walk (h : walk walked node here path = .ok o) :
    ∃ target, route walked here.isBroadcast node path = .ok target := by
  induction path generalizing walked node here with
  | nil => exact ⟨node, rfl⟩
  | cons step path ih =>
    obtain ⟨⟨child, there⟩, hstep, h⟩ := bind_eq_ok.mp h
    obtain ⟨target, htarget⟩ := ih h
    exact ⟨target, bind_eq_ok.mpr ⟨_, advance_of_enter_eq_ok hstep, htarget⟩⟩

/-- No path that succeeds crosses two arrays. -/
theorem count_item_of_resolvePath (h : resolvePath limits path data schema = .ok o) :
    path.count .item ≤ 1 := by
  rw [resolvePath_eq_walk (length_le_of_resolvePath h)] at h
  obtain ⟨target, htarget⟩ := route_of_walk h
  exact (reaches_of_route htarget).2

theorem resolvePath_eq_ok_scalar_iff {w : Value} (hq : .item ∉ q)
    (hlength : q.length ≤ limits.maxPathLength) :
    resolvePath limits q v schema = .ok (.scalar w) ↔
      (∃ target, schema.Reaches q target) ∧ targets q v = [w] := by
  rw [resolvePath_eq_walk hlength, walk_eq_ok_iff hq]
  simp [Outcome.isBroadcast, Outcome.values]

/-- A path past an array goes on from each of its items as from the root of a record. -/
theorem resolvePath_append_item_eq_ok_iff (hq : .item ∉ q)
    (hlength : (p ++ .item :: q).length ≤ limits.maxPathLength) :
    resolvePath limits (p ++ .item :: q) data schema = .ok o ↔
      ∃ items a es vs, schema.Reaches p (.array items) ∧
        resolvePath limits p data schema = .ok (.scalar a) ∧
        (a = .array es ∨ a = .null ∧ es = []) ∧ (∃ target, items.Reaches q target) ∧
        o = .broadcast vs ∧
        List.Forall₂ (fun e v => resolvePath limits q e items = .ok (.scalar v)) es vs := by
  have hlengths : p.length ≤ limits.maxPathLength ∧ q.length ≤ limits.maxPathLength := by
    rw [List.length_append, List.length_cons] at hlength
    omega
  rw [resolvePath_eq_walk hlength, resolvePath_eq_walk hlengths.1, walk_append_eq_ok_iff]
  constructor
  · rintro ⟨mid, there, hmid, hfront, hback⟩
    obtain ⟨⟨items, here⟩, henter, hback⟩ := bind_eq_ok.mp hback
    obtain ⟨a, es, rfl, rfl, hes, rfl⟩ := enter_item_eq_ok_iff.mp henter
    obtain ⟨htarget, hshape, hvalues⟩ := (walk_eq_ok_iff hq).mp hback
    cases o with
    | scalar v => cases hshape
    | broadcast vs =>
      refine ⟨items, a, es, vs, hmid, hfront, elements_eq_ok_iff.mp hes, htarget, rfl, ?_⟩
      refine hvalues.imp fun e v hv => ?_
      exact (resolvePath_eq_ok_scalar_iff hq hlengths.2).mpr ⟨htarget, hv⟩
  · rintro ⟨items, a, es, vs, hmid, hfront, hes, htarget, rfl, hvalues⟩
    have henter : enter ([] ++ p) (.array items) (.scalar a) .item = .ok (items, .broadcast es) :=
      enter_item_eq_ok_iff.mpr ⟨a, es, rfl, rfl, elements_eq_ok_iff.mpr hes, rfl⟩
    refine ⟨.array items, .scalar a, hmid, hfront, bind_eq_ok.mpr ⟨_, henter, ?_⟩⟩
    refine (walk_eq_ok_iff hq).mpr ⟨htarget, rfl, hvalues.imp fun e v hv => ?_⟩
    exact ((resolvePath_eq_ok_scalar_iff hq hlengths.2).mp hv).2

end

/-- **A broadcast has one value for each item.** No path with two item steps succeeds. A path with
an item step, and only properties past it, succeeds if and only if its front leads to an array or to
null at an array of the schema, the schema of the items has its back, and its back succeeds from
each item under that schema. It then yields a broadcast of what its back yields from the items, in
their order; null has none. -/
theorem resolvePath_past_array (limits : Limits) (data : Value) (schema : Schema) :
    (∀ path : List Step, 2 ≤ path.count .item → ∀ o, resolvePath limits path data schema ≠ .ok o) ∧
    ∀ p q : List Step, .item ∉ q → (p ++ .item :: q).length ≤ limits.maxPathLength →
      (∀ o, resolvePath limits (p ++ .item :: q) data schema = .ok o →
        ∃ items a es vs, schema.Reaches p (.array items) ∧
          resolvePath limits p data schema = .ok (.scalar a) ∧
          (a = .array es ∨ a = .null ∧ es = []) ∧ o = .broadcast vs ∧
          List.Forall₂ (fun e v => resolvePath limits q e items = .ok (.scalar v)) es vs) ∧
      ∀ items a es target, schema.Reaches p (.array items) →
        resolvePath limits p data schema = .ok (.scalar a) →
        (a = .array es ∨ a = .null ∧ es = []) → items.Reaches q target →
        (∀ e ∈ es, ∃ o, resolvePath limits q e items = .ok o) →
        ∃ o, resolvePath limits (p ++ .item :: q) data schema = .ok o := by
  refine ⟨fun path hcount o h => ?_, fun p q hq hlength => ⟨fun o h => ?_, ?_⟩⟩
  · have hle := count_item_of_resolvePath h
    omega
  · obtain ⟨items, a, es, vs, harray, ha, hes, -, ho, hvalues⟩ :=
      (resolvePath_append_item_eq_ok_iff hq hlength).mp h
    exact ⟨items, a, es, vs, harray, ha, hes, ho, hvalues⟩
  · intro items a es target harray ha hes htarget heach
    have hvalues : List.Forall₂ (fun e v => resolvePath limits q e items = .ok (.scalar v)) es
        (es.flatMap (targets q)) := by
      refine forall₂_flatMap fun e he => ?_
      obtain ⟨o, ho⟩ := heach e he
      obtain ⟨htargets, hshape⟩ := resolvePath_eq_ok ho
      cases o with
      | scalar v => exact ⟨v, ho, htargets.symm⟩
      | broadcast vs => exact absurd (hshape.mp rfl) hq
    refine ⟨.broadcast (es.flatMap (targets q)), ?_⟩
    exact (resolvePath_append_item_eq_ok_iff hq hlength).mpr
      ⟨items, a, es, _, harray, ha, hes, ⟨target, htarget⟩, rfl, hvalues⟩

end Query

end RecordQuery
