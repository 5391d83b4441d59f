import RecordQuery.Proofs.Conformance

/-!
Routes through a schema. On records that conform a path depends on the schema alone, but for the
values it ends at: it fails on each of them with the error of its route, or it succeeds on each of
them, and all it ends at fits the schema node to which the route leads (`resolvePath_of_conforms`).
-/

namespace RecordQuery.Query

/-- One step through a schema; `crossed` tells whether an array lies behind. -/
def advance (walked : List Step) (crossed : Bool) (node : Schema) (step : Step) :
    Except Error (Schema × Bool) :=
  match node, step with
  | .object _ _, .property name =>
    match node.property? name with
    | none => .error (.unknownProperty name)
    | some child => .ok (child, crossed)
  | .array items, .item =>
    if crossed then .error (.tooComplex (.nestedArrays walked)) else .ok (items, true)
  | .array _, .property name => .error (.arrayAccess (.propertyOfArray name walked))
  | node, .item => .error (.arrayAccess (.itemsOfOther walked node.kind))
  | .scalar _, .property name => .error (.intoScalar name)

/-- The schema node to which a path leads. -/
def route (walked : List Step) (crossed : Bool) (node : Schema) : List Step → Except Error Schema
  | [] => .ok node
  | step :: path => do
    let (node, crossed) ← advance walked crossed node step
    route (walked ++ [step]) crossed node path

/-- The schema node at the end of a path of permitted length. -/
def destination (limits : Limits) (path : List Step) (schema : Schema) : Except Error Schema :=
  if limits.maxPathLength < path.length then
    .error (.tooComplex (.pathLength path.length limits.maxPathLength))
  else route [] false schema path

variable {walked : List Step} {node : Schema} {here : Outcome} {step : Step} {path : List Step}

theorem enter_of_advance_eq_error {e : Error}
    (h : advance walked here.isBroadcast node step = .error e) :
    enter walked node here step = .error e := by
  unfold advance at h
  unfold enter
  split at h
  · split at h
    · cases h
      simp only [*]
    · cases h
  · cases here with
    | scalar v => cases h
    | broadcast vs =>
      cases h
      rfl
  · cases h
    rfl
  · cases h
    cases node <;> simp_all
  · cases h
    rfl

/-- One step from values that fit takes what the schema says and ends at values that fit. -/
theorem enter_of_advance_eq_ok {child : Schema} {crossed : Bool}
    (hfits : ∀ v ∈ here.values, node.Fits v)
    (h : advance walked here.isBroadcast node step = .ok (child, crossed)) :
    ∃ there, enter walked node here step = .ok (child, there) ∧ there.isBroadcast = crossed ∧
      ∀ v ∈ there.values, child.Fits v := by
  unfold advance at h
  split at h
  · rename_i name
    split at h
    · cases h
    · rename_i hchild
      cases h
      obtain ⟨there, hthere, hshape, hvalues⟩ :=
        Outcome.exists_mapM_eq_ok fun v hv => (hfits v hv).field hchild walked
      refine ⟨there, ?_, hshape, hvalues⟩
      simp only [enter, hchild, hthere]
      rfl
  · cases here with
    | broadcast vs => cases h
    | scalar v =>
      cases h
      obtain ⟨vs, hvs, hvalues⟩ := (hfits v (List.mem_singleton_self v)).elements walked
      refine ⟨.broadcast vs, ?_, rfl, hvalues⟩
      simp only [enter, hvs]
      rfl
  · cases h
  · cases h
  · cases h

theorem walk_of_conforms (hfits : ∀ v ∈ here.values, node.Fits v) :
    (∀ e, route walked here.isBroadcast node path = .error e →
      walk walked node here path = .error e) ∧
    ∀ target, route walked here.isBroadcast node path = .ok target →
      ∃ o, walk walked node here path = .ok o ∧ ∀ v ∈ o.values, target.Fits v := by
  induction path generalizing walked node here with
  | nil =>
    constructor
    · intro e h
      cases h
    · intro target h
      cases h
      exact ⟨here, rfl, hfits⟩
  | cons step path ih =>
    cases hadv : advance walked here.isBroadcast node step with
    | error e =>
      have henter := enter_of_advance_eq_error hadv
      simp only [route, walk, hadv, henter]
      constructor
      · intro e' h
        cases h
        rfl
      · intro target h
        cases h
    | ok next =>
      obtain ⟨child, crossed⟩ := next
      obtain ⟨there, henter, rfl, hthere⟩ := enter_of_advance_eq_ok hfits hadv
      simp only [route, walk, hadv, henter]
      exact ih hthere

/-- On records that conform a path does what its route through the schema says. -/
theorem resolvePath_of_conforms {limits : Limits} {data : Value} {schema : Schema}
    (h : schema.Conforms data) :
    (∀ e, destination limits path schema = .error e →
      resolvePath limits path data schema = .error e) ∧
    ∀ target, destination limits path schema = .ok target →
      ∃ o, resolvePath limits path data schema = .ok o ∧ ∀ v ∈ o.values, target.Fits v := by
  unfold destination resolvePath
  split
  · exact ⟨fun e he => (Except.error.inj he) ▸ rfl, fun target ht => (nomatch ht)⟩
  · have hfits : ∀ v ∈ (Outcome.scalar data).values, schema.Fits v :=
      fun v hv => Or.inr (List.mem_singleton.mp hv ▸ h)
    exact walk_of_conforms hfits

end RecordQuery.Query
