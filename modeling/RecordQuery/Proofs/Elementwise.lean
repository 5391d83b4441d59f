import RecordQuery.Proofs.Admission
import RecordQuery.Proofs.Replacement
import RecordQuery.Proofs.Typing

/-!
Comparisons with the items of an array. A search that stops at the first success or failure has the
result of the first test that is not refused (`map_anyM_eq_firstDecided`). Below each item a path
past an array finds what the rest of the path finds on its own (`resolvePath_items`). So a query
that compares the values at such a path with a literal is that query on one item after the other
(`evaluate_items`).
-/

namespace RecordQuery

namespace Query

/-! ## The first decision -/

/-- Whether a result is the boolean `false`. -/
def refuses : Except Error Outcome → Bool
  | .ok (.scalar (.boolean false)) => true
  | _ => false

/-- The first result that is not the boolean `false`, an error as well as an outcome. -/
def firstDecided (results : List (Except Error Outcome)) : Except Error Outcome :=
  (results.find? fun r => !refuses r).getD (.ok (.ofBool false))

/-- A search whose tests have these results has the first of them that is decided. -/
theorem map_anyM_eq_firstDecided {f : Value → Except Error Bool}
    {result : Value → Except Error Outcome} {es vs : List Value}
    (h : List.Forall₂ (fun e v => result e = (f v).map .ofBool) es vs) :
    (vs.anyM f).map .ofBool = firstDecided (es.map result) := by
  induction h with
  | nil => rfl
  | @cons e v es vs hresult _ ih =>
    rw [List.map_cons, hresult, List.anyM]
    cases f v with
    | error e => rfl
    | ok b =>
      cases b with
      | true => rfl
      | false => exact ih

end Query

open Query (Step along targets)

/-! ## Paths past an array -/

/-- What stands at the end of a chain of properties conforms to the node where the chain leads. -/
theorem Schema.Conforms.of_reaches {schema node : Schema} {data v : Value} {p : List String}
    (hdata : schema.Conforms data) (h : schema.Reaches (along p) node) (hat : data.at? p = some v) :
    node.Conforms v := by
  induction p generalizing schema data with
  | nil =>
    cases h
    cases hat
    exact hdata
  | cons name p ih =>
    obtain ⟨fields, child, rfl, hchild, hv⟩ := Value.at?_cons_eq_some hat
    cases h with
    | property declared below =>
      cases hdata with
      | object _ each =>
        have hproperty := Schema.mem_of_property?_eq_some declared
        exact ih (each _ hproperty child hchild) below hv

namespace Query

variable {limits : Limits} {data : Value} {schema items target : Schema} {p q : List String}
  {es : List Value}

theorem count_item_along (p : List String) : (along p).count .item = 0 := by
  rw [List.count_eq_zero, along, List.mem_map]
  rintro ⟨name, -, h⟩
  cases h

theorem resolvePath_along (hdata : schema.Conforms data) (hnode : schema.Reaches (along q) target)
    (hlength : (along q).length ≤ limits.maxPathLength) :
    ∃ v, resolvePath limits (along q) data schema = .ok (.scalar v) ∧
      targets (along q) data = [v] := by
  have hproperties : .item ∉ along q := List.count_eq_zero.mp (count_item_along q)
  obtain ⟨v, hv, -⟩ := resolvePath_properties hdata hproperties hnode hlength
  exact ⟨v, hv, (resolvePath_eq_ok hv).1.symm⟩

theorem forall₂_flatMap {R : Value → Value → Prop} {f : Value → List Value}
    (h : ∀ e ∈ es, ∃ v, R e v ∧ f e = [v]) : List.Forall₂ R es (es.flatMap f) := by
  induction es with
  | nil => exact .nil
  | cons e es ih =>
    obtain ⟨⟨v, hv, hf⟩, hrest⟩ := List.forall_mem_cons.mp h
    rw [List.flatMap_cons, hf]
    exact .cons hv (ih hrest)

/-- Below each item stands what the rest of the path finds there. -/
theorem resolvePath_items (hdata : schema.Conforms data)
    (harray : schema.Reaches (along p) (.array items)) (hat : data.at? p = some (.array es))
    (hnode : items.Reaches (along q) target)
    (hlength : (along p ++ .item :: along q).length ≤ limits.maxPathLength) :
    ∃ o, resolvePath limits (along p ++ .item :: along q) data schema = .ok o ∧
      List.Forall₂ (fun e v => resolvePath limits (along q) e items = .ok (.scalar v)) es
        o.values := by
  have hcount : (along p ++ .item :: along q).count .item ≤ 1 := by
    rw [List.count_append, List.count_cons_self, count_item_along, count_item_along]
  have hreaches := harray.append (.item hnode)
  have hdestination := destination_of_reaches hreaches hcount hlength
  obtain ⟨o, ho, -⟩ := (resolvePath_of_conforms hdata).2 target hdestination
  refine ⟨o, ho, ?_⟩
  -- the values of the whole path are those below the items, in their order
  rw [(resolvePath_eq_ok ho).1, targets_append_item hat]
  refine forall₂_flatMap fun e he => ?_
  obtain ⟨_, hitems, each⟩ := (hdata.of_reaches harray hat).of_array
  cases hitems
  refine resolvePath_along (each e he) hnode ?_
  rw [List.length_append, List.length_cons] at hlength
  omega

/-! ## Queries on items -/

/-- A query of one path that searches its values for one that passes a test. -/
def Searches (limits : Limits) (test : Value → Except Error Bool) (query : List Step → Query) :
    Prop :=
  ∀ path data schema o, resolvePath limits path data schema = .ok o →
    (query path).evaluate limits data schema = (o.values.anyM test).map .ofBool

section

variable {op : BinaryOp} {c : Value}

theorem searches_left (hdepth : 2 ≤ limits.maxDepth) :
    Searches limits (fun v => op.apply v c) fun path =>
      .binary op (.resolve path) (.literal c) := by
  intro path data schema o ho
  obtain ⟨room, hroom⟩ := Nat.exists_eq_add_of_le' hdepth
  have hleft : evaluateWithin limits data schema (room + 1) (.resolve path) = .ok o := ho
  have hright : evaluateWithin limits data schema (room + 1) (.literal c) = .ok (.scalar c) := rfl
  have hpair : o.anyPair op.apply (.scalar c) = o.values.anyM fun v => op.apply v c := by
    simp only [Outcome.anyPair, Outcome.values, anyM_singleton]
  rw [evaluate, hroom, evaluateWithin_binary hleft hright, hpair]

theorem searches_right (hdepth : 2 ≤ limits.maxDepth) :
    Searches limits (op.apply c) fun path => .binary op (.literal c) (.resolve path) := by
  intro path data schema o ho
  obtain ⟨room, hroom⟩ := Nat.exists_eq_add_of_le' hdepth
  have hleft : evaluateWithin limits data schema (room + 1) (.literal c) = .ok (.scalar c) := rfl
  have hright : evaluateWithin limits data schema (room + 1) (.resolve path) = .ok o := ho
  have hpair : (Outcome.scalar c).anyPair op.apply o = o.values.anyM (op.apply c) :=
    anyM_singleton c
  rw [evaluate, hroom, evaluateWithin_binary hleft hright, hpair]

end

/-- A search past an array is decided by the first item that decides it. -/
theorem Searches.past_array {test : Value → Except Error Bool} {query : List Step → Query}
    (hquery : Searches limits test query) (hdata : schema.Conforms data)
    (harray : schema.Reaches (along p) (.array items)) (hat : data.at? p = some (.array es))
    (hnode : items.Reaches (along q) target)
    (hlength : (along p ++ .item :: along q).length ≤ limits.maxPathLength) :
    (query (along p ++ .item :: along q)).evaluate limits data schema =
      firstDecided (es.map fun e => (query (along q)).evaluate limits e items) := by
  obtain ⟨o, ho, hitems⟩ := resolvePath_items hdata harray hat hnode hlength
  rw [hquery _ _ _ _ ho]
  refine map_anyM_eq_firstDecided (hitems.imp fun e v hv => ?_)
  rw [hquery _ _ _ _ hv, Outcome.values, anyM_singleton]

/-- **A comparison with the items of an array is the comparison with one item after the other.** On
an accepted record whose array stands at a chain of properties, a path goes on past the array along
a chain that the schema of its items accepts. Then an operator between that path and a literal, on
either side, has the first result on an item that is not `false`, be it an error, and the result
`false` when there is none; as long as the limits admit the query. -/
theorem evaluate_items {limits : Limits} {data : Value} {schema items target : Schema}
    {p q : List String} {es : List Value} (op : BinaryOp) (c : Value)
    (hvalid : Schema.structural data schema = .ok ())
    (harray : schema.Reaches (along p) (.array items)) (hat : data.at? p = some (.array es))
    (hnode : items.Reaches (along q) target) :
    (limits.Admits (.binary op (.resolve (along p ++ .item :: along q)) (.literal c)) →
      (Query.binary op (.resolve (along p ++ .item :: along q)) (.literal c)).evaluate limits data
          schema =
        firstDecided (es.map fun e =>
          (Query.binary op (.resolve (along q)) (.literal c)).evaluate limits e items)) ∧
    (limits.Admits (.binary op (.literal c) (.resolve (along p ++ .item :: along q))) →
      (Query.binary op (.literal c) (.resolve (along p ++ .item :: along q))).evaluate limits data
          schema =
        firstDecided (es.map fun e =>
          (Query.binary op (.literal c) (.resolve (along q))).evaluate limits e items)) := by
  have hdata := Schema.structural_eq_ok_iff.mp hvalid
  constructor
  · rintro ⟨hdepth, hpaths⟩
    have hlength := hpaths _ (List.mem_singleton_self _)
    exact (searches_left hdepth).past_array hdata harray hat hnode hlength
  · rintro ⟨hdepth, hpaths⟩
    have hlength := hpaths _ (List.mem_singleton_self _)
    exact (searches_right hdepth).past_array hdata harray hat hnode hlength

/-- The second of three items decides, with an error. -/
theorem evaluate_items_labels :
    let item (label : Value) : Value := .object (.ofList [("label", label)])
    let es : List Value := [.object .nil, item (.string "a"), item (.string "b")]
    let items : Schema := .object [("label", .scalar .string)] []
    let schema : Schema := .object [("items", .array items)] []
    let query (path : List Step) : Query :=
      .binary (.compare .lt) (.resolve path) (.literal (.integer 3))
    (query (along ["items"] ++ .item :: along ["label"])).evaluate {}
          (.object (.ofList [("items", .array es)])) schema =
        firstDecided (es.map fun e => (query (along ["label"])).evaluate {} e items) ∧
      firstDecided (es.map fun e => (query (along ["label"])).evaluate {} e items) =
        .error (.typeMismatch (.notOrdered .lt .string .integer)) := by
  intro item es items schema query
  have harray : schema.Reaches (along ["items"]) (.array items) := .property rfl .here
  have hnode : items.Reaches (along ["label"]) (.scalar .string) := .property rfl .here
  refine ⟨(evaluate_items (.compare .lt) (.integer 3) ?_ harray ?_ hnode).1 ?_, ?_⟩
  · rfl
  · rfl
  · exact ⟨by decide, fun path hpath => List.mem_singleton.mp hpath ▸ by decide⟩
  · rfl

end Query

end RecordQuery
