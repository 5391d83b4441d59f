import Mathlib.Data.List.Nodup
import Mathlib.Logic.Relation
import RecordQuery.Proofs.Parallel

/-!
Compatible changes of a schema: properties in another order, required names in another order, more
than once or left out, numbers where integers were expected. Records that conform still do
(`Change.conforms`), and as long as no object declares a name again, paths cannot tell the schemas
apart (`Change.alike`). So no number of changes makes a difference to an answer
(`agree_of_compatible`).
-/

namespace RecordQuery

namespace Schema

/-- One compatible change, at any depth. -/
inductive Change : Schema → Schema → Prop
  | reorder {properties properties' : List (String × Schema)} {required : List String}
      (perm : properties.Perm properties') :
      Change (.object properties required) (.object properties' required)
  /-- Names are dropped, repeated or put in another order. -/
  | require {properties : List (String × Schema)} {required required' : List String}
      (subset : required' ⊆ required) :
      Change (.object properties required) (.object properties required')
  | widen : Change (.scalar .integer) (.scalar .number)
  | property {before after : List (String × Schema)} {name : String} {child child' : Schema}
      {required : List String} (below : Change child child') :
      Change (.object (before ++ (name, child) :: after) required)
        (.object (before ++ (name, child') :: after) required)
  | items {items items' : Schema} (below : Change items items') :
      Change (.array items) (.array items')

/-- Any number of compatible changes lead from one schema to the other. -/
def Compatible : Schema → Schema → Prop := Relation.ReflTransGen Change

/-- No object of a schema declares a name again. -/
inductive DistinctNames : Schema → Prop
  | object {properties : List (String × Schema)} {required : List String}
      (distinct : (properties.map Prod.fst).Nodup)
      (each : ∀ p ∈ properties, DistinctNames p.2) : DistinctNames (.object properties required)
  | array {items : Schema} (each : DistinctNames items) : DistinctNames (.array items)
  | scalar (kind : Scalar) : DistinctNames (.scalar kind)

/-- Schemas that paths do not tell apart, but for the names of scalars in errors. -/
inductive Alike : Schema → Schema → Prop
  | refl (schema : Schema) : Alike schema schema
  | scalar (kind kind' : Scalar) : Alike (.scalar kind) (.scalar kind')
  | array {items items' : Schema} (below : Alike items items') :
      Alike (.array items) (.array items')
  | object {properties properties' : List (String × Schema)} {required required' : List String}
      (declared : ∀ name, Option.Rel Alike ((object properties required).property? name)
        ((object properties' required').property? name)) :
      Alike (.object properties required) (.object properties' required')

variable {schema schema' : Schema} {v : Value}

/-! ## One change -/

theorem forall_mem_middle {P : String × Schema → Prop} {before after : List (String × Schema)}
    {p : String × Schema} :
    (∀ q ∈ before ++ p :: after, P q) ↔ (∀ q ∈ before, P q) ∧ P p ∧ ∀ q ∈ after, P q := by
  rw [List.forall_mem_append, List.forall_mem_cons]

theorem Change.distinctNames (h : Change schema schema') (hdistinct : schema.DistinctNames) :
    schema'.DistinctNames := by
  induction h with
  | reorder perm =>
    cases hdistinct with
    | object distinct each =>
      refine .object ((perm.map Prod.fst).nodup_iff.mp distinct) fun p hp => ?_
      exact each p (perm.mem_iff.mpr hp)
  | require subset =>
    cases hdistinct with
    | object distinct each => exact .object distinct each
  | widen => exact .scalar .number
  | property below ih =>
    cases hdistinct with
    | object distinct each =>
      obtain ⟨hbefore, hchild, hafter⟩ := forall_mem_middle.mp each
      refine .object ?_ (forall_mem_middle.mpr ⟨hbefore, ih hchild, hafter⟩)
      simpa using distinct
  | items below ih =>
    cases hdistinct with
    | array each => exact .array (ih each)

/-- What conformed to a schema still does after a change. -/
theorem Change.conforms (h : Change schema schema') (hv : schema.Conforms v) :
    schema'.Conforms v := by
  induction h generalizing v with
  | reorder perm =>
    cases hv with
    | object present declared =>
      exact .object present fun p hp => declared p (perm.mem_iff.mpr hp)
  | require subset =>
    cases hv with
    | object present declared =>
      exact .object (fun name hname => present name (subset hname)) declared
  | widen =>
    cases hv with
    | scalar takes =>
      cases takes with
      | integer n => exact .scalar (.numberInteger n)
      | @whole x => exact .scalar (.numberFloat x)
  | property below ih =>
    cases hv with
    | object present declared =>
      obtain ⟨hbefore, hchild, hafter⟩ := forall_mem_middle.mp declared
      refine .object present (forall_mem_middle.mpr ⟨hbefore, ?_, hafter⟩)
      exact fun v hv => ih (hchild v hv)
  | items below ih =>
    cases hv with
    | array each => exact .array fun v hv => ih (each v hv)

/-! ## Declarations -/

theorem rel_alike_refl (child : Option Schema) : Option.Rel Alike child child := by
  cases child with
  | none => exact .none
  | some child => exact .some (.refl child)

/-- Where names are distinct a declaration is found wherever it stands. -/
theorem property?_eq_some_iff {properties : List (String × Schema)} {required : List String}
    (hdistinct : (properties.map Prod.fst).Nodup) {name : String} {child : Schema} :
    (object properties required).property? name = some child ↔ (name, child) ∈ properties := by
  constructor
  · exact mem_of_property?_eq_some
  · intro hmem
    cases hfind : properties.find? fun p => p.1 == name with
    | none => exact absurd (beq_self_eq_true name) (List.find?_eq_none.mp hfind _ hmem)
    | some p =>
      have hname : p.1 = name := by simpa using List.find?_some hfind
      have hp : p = (name, child) :=
        List.inj_on_of_nodup_map hdistinct (List.mem_of_find?_eq_some hfind) hmem hname
      rw [property?, hfind, hp]
      rfl

theorem property?_of_perm {properties properties' : List (String × Schema)}
    {required required' : List String} (hdistinct : (properties.map Prod.fst).Nodup)
    (hperm : properties.Perm properties') (name : String) :
    (object properties required).property? name =
      (object properties' required').property? name := by
  have hdistinct' := (hperm.map Prod.fst).nodup_iff.mp hdistinct
  refine Option.ext fun child => ?_
  rw [property?_eq_some_iff hdistinct, property?_eq_some_iff hdistinct', hperm.mem_iff]

/-- Another schema under one declaration is another one under its name at most. -/
theorem rel_property?_of_alike {before after : List (String × Schema)} {key : String}
    {child child' : Schema} {required : List String} (h : child.Alike child') (name : String) :
    Option.Rel Alike ((object (before ++ (key, child) :: after) required).property? name)
      ((object (before ++ (key, child') :: after) required).property? name) := by
  simp only [property?, List.find?_append, List.find?_cons]
  cases before.find? fun p => p.1 == name with
  | some p => exact rel_alike_refl _
  | none =>
    cases key == name with
    | true => exact .some h
    | false => exact rel_alike_refl _

/-- Paths do not tell what a change does. -/
theorem Change.alike (h : Change schema schema') (hdistinct : schema.DistinctNames) :
    schema.Alike schema' := by
  induction h with
  | reorder perm =>
    cases hdistinct with
    | object distinct each =>
      refine .object fun name => ?_
      rw [property?_of_perm distinct perm name]
      exact rel_alike_refl _
  | require subset => exact .object fun name => rel_alike_refl _
  | widen => exact .scalar .integer .number
  | property below ih =>
    cases hdistinct with
    | object distinct each =>
      exact .object (rel_property?_of_alike (ih (forall_mem_middle.mp each).2.1))
  | items below ih =>
    cases hdistinct with
    | array each => exact .array (ih each)

end Schema

/-! ## Paths -/

namespace Query

open Schema (Alike)

variable {limits : Limits} {walked path : List Step} {node node' : Schema} {here : Outcome}
  {step : Step} {data : Value} {schema schema' : Schema}

/-- Steps that end at the same values, at schemas that paths do not tell apart. -/
def SameStep (next next' : Schema × Outcome) : Prop := next.1.Alike next'.1 ∧ next.2 = next'.2

theorem parallel_refl {α : Type} (x : Except Error α) :
    Parallel Error.SameVariant (· = ·) x x :=
  .refl Error.SameVariant.refl (fun _ => rfl) x

theorem enter_of_alike (h : node.Alike node') :
    Parallel Error.SameVariant SameStep (enter walked node here step)
      (enter walked node' here step) := by
  cases h with
  | refl =>
    have hsame (next : Schema × Outcome) : SameStep next next := ⟨.refl next.1, rfl⟩
    exact .refl Error.SameVariant.refl hsame _
  | scalar =>
    cases step with
    | property | item => exact .error rfl
  | array below =>
    cases step with
    | property => exact .error rfl
    | item =>
      cases here with
      | broadcast => exact .error rfl
      | scalar v =>
        refine (parallel_refl (elements walked v)).bind fun vs vs' hvs => .ok ⟨below, ?_⟩
        exact congrArg Outcome.broadcast hvs
  | @object properties properties' required required' declared =>
    cases step with
    | item => exact .error rfl
    | property name =>
      have hname := declared name
      simp only [enter]
      generalize (Schema.object properties required).property? name = child at hname
      generalize (Schema.object properties' required').property? name = child' at hname
      cases hname with
      | none => exact .error rfl
      | some halike =>
        refine (parallel_refl (here.mapM (field walked name))).bind fun there there' hthere => ?_
        exact .ok ⟨halike, hthere⟩

theorem walk_of_alike (h : node.Alike node') :
    Parallel Error.SameVariant (· = ·) (walk walked node here path)
      (walk walked node' here path) := by
  induction path generalizing walked node node' here with
  | nil => exact .ok rfl
  | cons step path ih =>
    refine (enter_of_alike h).bind ?_
    rintro ⟨child, there⟩ ⟨child', there'⟩ ⟨hchild, hthere⟩
    cases hthere
    exact ih hchild

theorem resolvePath_of_alike (h : schema.Alike schema') :
    Parallel Error.SameVariant (· = ·) (resolvePath limits path data schema)
      (resolvePath limits path data schema') := by
  unfold resolvePath
  split
  · exact .error rfl
  · exact walk_of_alike h

/-! ## Answers -/

theorem holds_of_alike {q : Query} (h : schema.Alike schema')
    (haccepted : Schema.structural data schema = .ok ())
    (haccepted' : Schema.structural data schema' = .ok ()) :
    Parallel Error.SameVariant (· = ·) (q.holds Schema.structural limits data schema)
      (q.holds Schema.structural limits data schema') := by
  rw [holds_of_accepted haccepted, holds_of_accepted haccepted']
  have hrun : Parallel Error.SameVariant (Outcome.Pointwise (· = ·)) (q.evaluate limits data schema)
      (q.evaluate limits data schema') := by
    refine (congruence_eq Error.SameVariant.refl).evaluate (.refl (fun _ => rfl) q) ?_
    exact fun path _ => (resolvePath_of_alike h).mono fun o o' ho => ho ▸ .refl (fun _ => rfl) o
  exact hrun.map fun o o' ho => congrArg Outcome.anyTrue ho.eq

/-- Change after change the names stay distinct, the record accepted and the answer the same. -/
theorem holds_of_compatible (hdistinct : schema.DistinctNames)
    (hcompatible : schema.Compatible schema')
    (haccepted : Schema.structural data schema = .ok ()) :
    schema'.DistinctNames ∧ Schema.structural data schema' = .ok () ∧ ∀ q : Query,
      Parallel Error.SameVariant (· = ·) (q.holds Schema.structural limits data schema)
        (q.holds Schema.structural limits data schema') := by
  -- names are carried along: only where they are distinct the next change goes unnoticed
  induction hcompatible with
  | refl => exact ⟨hdistinct, haccepted, fun q => parallel_refl _⟩
  | tail _ hchange ih =>
    obtain ⟨hdistinct, haccepted, hq⟩ := ih
    have haccepted' := Schema.structural_eq_ok_iff.mpr
      (hchange.conforms (Schema.structural_eq_ok_iff.mp haccepted))
    refine ⟨hchange.distinctNames hdistinct, haccepted', fun q => ?_⟩
    exact (hq q).trans Eq.trans (holds_of_alike (hchange.alike hdistinct) haccepted haccepted')

/-- **Compatible changes of a schema never change an answer.** When no object of a schema declares a
name again, a record that the schema accepts is accepted after any number of compatible changes, and
each query then gives the same boolean or an error of the same variant. -/
theorem agree_of_compatible (hdistinct : schema.DistinctNames)
    (hcompatible : schema.Compatible schema')
    (haccepted : Schema.structural data schema = .ok ()) (q : Query) (limits : Limits) :
    Schema.structural data schema' = .ok () ∧
      Agree (q.holds Schema.structural limits data schema)
        (q.holds Schema.structural limits data schema') := by
  obtain ⟨-, haccepted', hq⟩ := holds_of_compatible hdistinct hcompatible haccepted
  exact ⟨haccepted', agree_of_parallel (hq q)⟩

/-- All three changes together keep the record accepted and the answer to a query that is refused. -/
theorem agree_of_compatible_sizes :
    let tags : Schema := .array (.scalar .string)
    let schema : Schema := .object [("size", .scalar .integer), ("tags", tags)] ["size", "tags"]
    let schema' : Schema := .object [("tags", tags), ("size", .scalar .number)] ["size", "size"]
    let data : Value := .object (.ofList [("size", .integer 2), ("tags", .array [.string "a"])])
    let q : Query := .resolve [.property "size", .item]
    schema.DistinctNames ∧ schema.Compatible schema' ∧ Schema.structural data schema = .ok () ∧
      Schema.structural data schema' = .ok () ∧
      Agree (q.holds Schema.structural {} data schema)
        (q.holds Schema.structural {} data schema') := by
  intro tags schema schema' data q
  have hdistinct : schema.DistinctNames := by
    refine .object (by decide) fun p hp => ?_
    rcases List.mem_pair.mp hp with rfl | rfl
    · exact .scalar .integer
    · exact .array (.scalar .string)
  have hcompatible : schema.Compatible schema' := by
    let between (required : List String) : Schema :=
      .object [("tags", tags), ("size", .scalar .integer)] required
    have hreorder : Schema.Change schema (between ["size", "tags"]) := .reorder (.swap ..)
    have hrequire : Schema.Change (between ["size", "tags"]) (between ["size", "size"]) :=
      .require (by decide)
    have hwiden : Schema.Change
        (.object ([("tags", tags)] ++ ("size", .scalar .integer) :: []) ["size", "size"])
        (.object ([("tags", tags)] ++ ("size", .scalar .number) :: []) ["size", "size"]) :=
      .property .widen
    exact .tail (.tail (.single hreorder) hrequire) hwiden
  have haccepted : Schema.structural data schema = .ok () := rfl
  exact ⟨hdistinct, hcompatible, haccepted,
    agree_of_compatible hdistinct hcompatible haccepted q {}⟩

end Query

end RecordQuery
