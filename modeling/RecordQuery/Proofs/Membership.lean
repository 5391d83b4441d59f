import RecordQuery.Proofs.Admission
import RecordQuery.Proofs.Typing

/-!
Membership and equality. An accepted record has no null among the items of its arrays, so to search
an array is to compare each of its items, and an array that is absent has none
(`Schema.Fits.search`). Hence `co` on an array says what `eq` says on the broadcast of its items
(`evaluate_contains_items`), however many values are sought.
-/

namespace RecordQuery

open Query (Step targets)

/-! ## Searching an array -/

theorem Value.equals_null_eq_false {v : Value} (h : v ≠ .null) : v.equals .null = false := by
  cases v with
  | null => exact absurd rfl h
  | boolean | integer | float | string | array | object => rfl

theorem Value.search_array {items : List Value} {w : Value} (h : w ≠ .null) :
    (array items).search w = .ok (items.any fun item => item.equals w) := by
  cases w with
  | null => exact absurd rfl h
  | boolean | integer | float | string | array | object => rfl

/-- Where an array may stand, a search compares its items. Null is not found among them, and
nothing is found where the array is absent. -/
theorem Schema.Fits.search {items : Schema} {v : Value} (h : (array items).Fits v) (w : Value) :
    v.search w = .ok ((Step.item.targets v).any fun item => item.equals w) := by
  rcases h with rfl | h
  · rfl
  · cases h with
    | @array _ elements each =>
      by_cases hw : w = .null
      · subst hw
        have hnone : (elements.any fun item => item.equals .null) = false :=
          List.any_eq_false.mpr fun item hitem => by
            rw [Value.equals_null_eq_false (each item hitem).ne_null]
            exact Bool.false_ne_true
        exact congrArg Except.ok hnone.symm
      · exact Value.search_array hw

/-! ## Broadcasts of items -/

namespace Query

variable {limits : Limits} {data : Value} {schema items : Schema} {p : List Step} {x : Query}
  {o : Outcome}

/-- The last step is taken from each position that the others lead to. -/
theorem targets_concat (step : Step) (v : Value) :
    targets (p ++ [step]) v = (targets p v).flatMap step.targets := by
  induction p generalizing v with
  | nil =>
    show (step.targets v).flatMap (fun w => [w]) = [v].flatMap step.targets
    rw [List.flatMap_singleton', List.flatMap_singleton]
  | cons first p ih =>
    rw [List.cons_append, targets, targets, List.flatMap_assoc]
    exact List.flatMap_congr fun w _ => ih w

/-- The path to an array ends at what may stand there, and one step further at its items. -/
theorem resolvePath_array (hdata : schema.Conforms data) (hp : Step.item ∉ p)
    (harray : schema.Reaches p (.array items))
    (hlength : (p ++ [Step.item]).length ≤ limits.maxPathLength) :
    ∃ v, resolvePath limits p data schema = .ok (.scalar v) ∧ (Schema.array items).Fits v ∧
      resolvePath limits (p ++ [.item]) data schema = .ok (.broadcast (Step.item.targets v)) := by
  have hshort : p.length ≤ limits.maxPathLength :=
    (List.prefix_append p [Step.item]).length_le.trans hlength
  obtain ⟨v, hv, hfits⟩ := resolvePath_properties hdata hp harray hshort
  have hcount : (p ++ [Step.item]).count .item ≤ 1 := by
    rw [List.count_append, List.count_eq_zero.mpr hp, List.count_singleton_self]
  have hdestination := destination_of_reaches (harray.append (.item .here)) hcount hlength
  obtain ⟨o, ho, -⟩ := (resolvePath_of_conforms hdata).2 items hdestination
  refine ⟨v, hv, hfits, ?_⟩
  -- the values are the items of the one value before the last step, and an item step broadcasts
  obtain ⟨hvalues, hshape⟩ := resolvePath_eq_ok ho
  rw [targets_concat, ← (resolvePath_eq_ok hv).1, Outcome.values, List.flatMap_singleton] at hvalues
  cases o with
  | scalar w => cases hshape.mpr (List.mem_append_right p (List.mem_singleton_self _))
  | broadcast ws =>
    cases hvalues
    exact ho

/-- **Membership in an array is equality with an item.** On an accepted record `co` on the path to
an array and `eq` on the path to its items have one answer: whether some item is equal to some of
the values sought. The array may be empty or absent, and null may be sought too; it is no item. -/
theorem evaluate_contains_items (haccepted : Schema.structural data schema = .ok ())
    (hp : Step.item ∉ p) (harray : schema.Reaches p (.array items))
    (hx : x.evaluate limits data schema = .ok o)
    (hadmits : limits.Admits (.binary (.compare .eq) (.resolve (p ++ [.item])) x)) :
    ∃ found,
      (Query.binary .contains (.resolve p) x).evaluate limits data schema = .ok (.ofBool found) ∧
        (Query.binary (.compare .eq) (.resolve (p ++ [.item])) x).evaluate limits data schema =
          .ok (.ofBool found) ∧
        (found = true ↔ ∃ item ∈ targets (p ++ [.item]) data, ∃ w ∈ o.values,
          item.equals w = true) := by
  obtain ⟨hdepth, hpaths⟩ := hadmits
  have hdepth' : (Query.binary .contains (.resolve p) x).depth ≤ limits.maxDepth := hdepth
  have hlength : (p ++ [Step.item]).length ≤ limits.maxPathLength :=
    hpaths _ (List.mem_append_left x.paths (List.mem_singleton_self _))
  have hpos : 0 < limits.maxDepth := Nat.lt_of_lt_of_le (depth_pos _) hdepth
  obtain ⟨v, hv, hfits, hitems⟩ :=
    resolvePath_array (Schema.structural_eq_ok_iff.mp haccepted) hp harray hlength
  have hsearch : ∀ u ∈ (Outcome.scalar v).values, ∀ w ∈ o.values, BinaryOp.contains.apply u w =
      .ok ((Step.item.targets u).any fun item => item.equals w) := by
    intro u hu w _
    cases List.mem_singleton.mp hu
    exact hfits.search w
  refine ⟨(Step.item.targets v).any fun item => o.values.any item.equals, ?_, ?_, ?_⟩
  · rw [evaluate_binary_eq_any hdepth' ((evaluate_resolve hpos).trans hv) hx hsearch]
    congr 2
    rw [Bool.eq_iff_iff]
    simp only [Outcome.values, List.any_eq_true, List.mem_singleton, exists_eq_left]
    constructor
    · rintro ⟨w, hw, item, hitem, h⟩
      exact ⟨item, hitem, w, hw, h⟩
    · rintro ⟨item, hitem, w, hw, h⟩
      exact ⟨w, hw, item, hitem, h⟩
  · exact evaluate_binary_eq_any hdepth ((evaluate_resolve hpos).trans hitems) hx
      fun _ _ _ _ => rfl
  · rw [← (resolvePath_eq_ok hitems).1]
    simp only [Outcome.values, List.any_eq_true]

/-- A value of a broadcast is found in an array, and none in an array that is absent, by `co` and by
`eq` alike. -/
theorem evaluate_contains_items_sizes :
    let data : Value := .object (.ofList
      [("sizes", .array [.integer 1, .float ⟨0x4000000000000000⟩]),
        ("wanted", .array [.object (.ofList [("size", .integer 3)]), .object .nil,
          .object (.ofList [("size", .integer 2)])])])
    let schema : Schema := .object [("sizes", .array (.scalar .number)),
      ("spare", .array (.scalar .number)),
      ("wanted", .array (.object [("size", .scalar .number)] []))] []
    let x : Query := .resolve [.property "wanted", .item, .property "size"]
    let contains (name : String) : Query := .binary .contains (.resolve [.property name]) x
    let equal (name : String) : Query :=
      .binary (.compare .eq) (.resolve [.property name, .item]) x
    Schema.structural data schema = .ok () ∧
      x.evaluate {} data schema = .ok (.broadcast [.integer 3, .null, .integer 2]) ∧
      (contains "sizes").evaluate {} data schema = .ok (.ofBool true) ∧
      (equal "sizes").evaluate {} data schema = .ok (.ofBool true) ∧
      (contains "spare").evaluate {} data schema = .ok (.ofBool false) ∧
      (equal "spare").evaluate {} data schema = .ok (.ofBool false) := by
  intro data schema x contains equal
  have haccepted : Schema.structural data schema = .ok () := rfl
  have hx : x.evaluate {} data schema = .ok (.broadcast [.integer 3, .null, .integer 2]) := rfl
  have hsizes : schema.Reaches [.property "sizes"] (.array (.scalar .number)) :=
    .property rfl .here
  have hspare : schema.Reaches [.property "spare"] (.array (.scalar .number)) :=
    .property rfl .here
  have hadmits (name : String) : ({} : Limits).Admits (equal name) :=
    ⟨by simp [equal, x, depth], by simp [equal, x, Query.paths]⟩
  have hitems : targets [.property "sizes", .item] data =
      [.integer 1, .float ⟨0x4000000000000000⟩] := rfl
  have habsent : targets [.property "spare", .item] data = [] := rfl
  have hequal : (Value.float ⟨0x4000000000000000⟩).equals (.integer 2) = true := by decide +kernel
  obtain ⟨found, hco, heq, hfound⟩ :=
    evaluate_contains_items haccepted (by decide) hsizes hx (hadmits "sizes")
  obtain ⟨found', hco', heq', hfound'⟩ :=
    evaluate_contains_items haccepted (by decide) hspare hx (hadmits "spare")
  have hsome : found = true :=
    hfound.mpr ⟨_, hitems ▸ .tail _ (.head _), .integer 2, .tail _ (.tail _ (.head _)), hequal⟩
  have hnone : found' = false := by
    refine Bool.eq_false_iff.mpr fun h => ?_
    obtain ⟨item, hitem, _⟩ := hfound'.mp h
    rw [List.cons_append, List.nil_append, habsent] at hitem
    cases hitem
  subst hsome hnone
  exact ⟨haccepted, hx, hco, heq, hco', heq'⟩

end Query

end RecordQuery
