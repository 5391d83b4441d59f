import RecordQuery.Proofs.Kinds
import RecordQuery.Proofs.Parts

/-!
Where errors come from. A path fails with the error of its route through the schema or at data that
has another shape than the schema says (`resolvePath_eq_error`); an evaluation fails for its depth,
at one of its paths or at operands of the wrong types (`evaluateWithin_eq_error`). On records that
are accepted only the route is left, so a record is blamed exactly when it is rejected
(`blames_record_iff_rejected`).
-/

namespace RecordQuery.Query

/-! ## Paths -/

/-- The errors of a path that the schema alone decides. -/
inductive Error.OfRoute : Error → Prop
  | unknownProperty (name : String) : OfRoute (.unknownProperty name)
  | arrayAccess (cause : AccessFault) : OfRoute (.arrayAccess cause)
  | intoScalar (name : String) : OfRoute (.intoScalar name)
  | pathLength (found limit : Nat) : OfRoute (.tooComplex (.pathLength found limit))
  | nestedArrays (walked : List Step) : OfRoute (.tooComplex (.nestedArrays walked))

theorem Error.OfRoute.isInputError {e : Error} (h : e.OfRoute) : e.isInputError = true := by
  cases h <;> rfl

theorem Error.OfRoute.ne_nesting {e : Error} (h : e.OfRoute) (n : Nat) :
    e ≠ .tooComplex (.nesting n) := by
  cases h <;> exact nofun

section

variable {limits : Limits} {data : Value} {schema node child : Schema} {walked path : List Step}
  {step : Step} {crossed : Bool} {here there : Outcome} {e : Error}

theorem ofRoute_of_advance (h : advance walked crossed node step = .error e) : e.OfRoute := by
  unfold advance at h
  split at h
  · split at h
    · cases h
      exact .unknownProperty _
    · cases h
  · split at h
    · cases h
      exact .nestedArrays _
    · cases h
  · cases h
    exact .arrayAccess _
  · cases h
    exact .arrayAccess _
  · cases h
    exact .intoScalar _

theorem ofRoute_of_route (h : route walked crossed node path = .error e) : e.OfRoute := by
  induction path generalizing walked crossed node with
  | nil => cases h
  | cons step path ih =>
    rcases bind_eq_error.mp h with h | ⟨⟨child, crossed⟩, _, h⟩
    · exact ofRoute_of_advance h
    · exact ih h

theorem ofRoute_of_destination (h : destination limits path schema = .error e) : e.OfRoute := by
  unfold destination at h
  split at h
  · cases h
    exact .pathLength _ _
  · exact ofRoute_of_route h

theorem field_eq_error {name : String} {v : Value} (h : field walked name v = .error e) :
    e = .invalidData (.notObject walked v.kind) := by
  unfold field at h
  split at h
  · cases h
  · cases h
  · cases h
    rfl

theorem elements_eq_error {v : Value} (h : elements walked v = .error e) :
    e = .invalidData (.notArray walked v.kind) := by
  unfold elements at h
  split at h
  · cases h
  · cases h
  · cases h
    rfl

/-- A step fails as its route does, or at a value of the wrong shape. -/
theorem enter_eq_error (h : enter walked node here step = .error e) :
    advance walked here.isBroadcast node step = .error e ∨ ∃ cause, e = .invalidData cause := by
  cases node with
  | object properties required =>
    cases step with
    | property name =>
      cases hchild : (Schema.object properties required).property? name with
      | none =>
        left
        simp only [enter, hchild] at h
        cases h
        simp only [advance, hchild]
      | some child =>
        right
        simp only [enter, hchild] at h
        rcases bind_eq_error.mp h with h | ⟨_, _, h⟩
        · obtain ⟨v, _, hv⟩ := Outcome.mapM_eq_error h
          exact ⟨_, field_eq_error hv⟩
        · cases h
    | item =>
      cases h
      exact Or.inl rfl
  | array items =>
    cases step with
    | property name =>
      cases h
      exact Or.inl rfl
    | item =>
      cases here with
      | scalar v =>
        rcases bind_eq_error.mp h with h | ⟨_, _, h⟩
        · exact Or.inr ⟨_, elements_eq_error h⟩
        · cases h
      | broadcast vs =>
        cases h
        exact Or.inl rfl
  | scalar kind =>
    cases step with
    | property name | item =>
      cases h
      exact Or.inl rfl

/-- A step that succeeds follows its route. -/
theorem advance_of_enter_eq_ok (h : enter walked node here step = .ok (child, there)) :
    advance walked here.isBroadcast node step = .ok (child, there.isBroadcast) := by
  cases node with
  | object properties required =>
    cases step with
    | property name =>
      cases hchild : (Schema.object properties required).property? name with
      | none =>
        simp only [enter, hchild] at h
        cases h
      | some child =>
        simp only [enter, hchild] at h
        obtain ⟨o, ho, h⟩ := bind_eq_ok.mp h
        cases h
        simp only [advance, hchild, (Outcome.mapM_eq_ok ho).1]
    | item => cases h
  | array items =>
    cases step with
    | property name => cases h
    | item =>
      cases here with
      | scalar v =>
        obtain ⟨vs, _, h⟩ := bind_eq_ok.mp h
        cases h
        rfl
      | broadcast vs => cases h
  | scalar kind =>
    cases step with
    | property name | item => cases h

theorem walk_eq_error (h : walk walked node here path = .error e) :
    route walked here.isBroadcast node path = .error e ∨ ∃ cause, e = .invalidData cause := by
  induction path generalizing walked node here with
  | nil => cases h
  | cons step path ih =>
    rcases bind_eq_error.mp h with h | ⟨⟨child, there⟩, hstep, h⟩
    · exact (enter_eq_error h).imp_left fun h => bind_eq_error.mpr (Or.inl h)
    · refine (ih h).imp_left fun h => bind_eq_error.mpr (Or.inr ?_)
      exact ⟨_, advance_of_enter_eq_ok hstep, h⟩

/-- A path fails as its route does, or at a value of the wrong shape. -/
theorem resolvePath_eq_error (h : resolvePath limits path data schema = .error e) :
    destination limits path schema = .error e ∨ ∃ cause, e = .invalidData cause := by
  unfold resolvePath at h
  unfold destination
  split at h
  · rename_i hlength
    rw [if_pos hlength]
    cases h
    exact Or.inl rfl
  · rename_i hlength
    rw [if_neg hlength]
    exact walk_eq_error h

theorem ofRoute_of_conforms (hdata : schema.Conforms data)
    (h : resolvePath limits path data schema = .error e) : e.OfRoute := by
  cases hroute : destination limits path schema with
  | error e' =>
    have he := (resolvePath_of_conforms hdata).1 e' hroute
    cases h.symm.trans he
    exact ofRoute_of_destination hroute
  | ok target =>
    obtain ⟨o, ho, _⟩ := (resolvePath_of_conforms hdata).2 target hroute
    cases h.symm.trans ho

/-! ## Evaluation -/

/-- What the evaluation of a query may fail with. -/
inductive FailsWith (limits : Limits) (data : Value) (schema : Schema) (room : Nat) (q : Query) :
    Error → Prop
  | nesting (h : room < q.depth) :
      FailsWith limits data schema room q (.tooComplex (.nesting limits.maxDepth))
  | path {path : List Step} {e : Error} (mem : path ∈ q.paths)
      (h : resolvePath limits path data schema = .error e) :
      FailsWith limits data schema room q e
  | operands (cause : OperandFault) : FailsWith limits data schema room q (.typeMismatch cause)

/-- What a part fails with, the whole fails with. -/
theorem FailsWith.mono {room more : Nat} {part q : Query}
    (h : FailsWith limits data schema room part e) (hdepth : room < part.depth → more < q.depth)
    (hpaths : part.paths ⊆ q.paths) : FailsWith limits data schema more q e := by
  cases h with
  | nesting h => exact .nesting (hdepth h)
  | path mem h => exact .path (hpaths mem) h
  | operands cause => exact .operands cause

theorem depth_pos (q : Query) : 0 < q.depth := by
  cases q with
  | literal | resolve => exact Nat.one_pos
  | not | binary => exact Nat.succ_pos _

/-- An evaluation fails for its depth, at one of its paths, or at operands of the wrong types. -/
theorem evaluateWithin_eq_error {room : Nat} {q : Query}
    (h : evaluateWithin limits data schema room q = .error e) :
    FailsWith limits data schema room q e := by
  induction room generalizing q e with
  | zero =>
    rw [evaluateWithin] at h
    cases h
    exact .nesting q.depth_pos
  | succ room ih =>
    cases q with
    | literal v => cases h
    | not operand =>
      rcases bind_eq_error.mp h with h | ⟨_, _, h⟩
      · exact (ih h).mono Nat.succ_lt_succ (List.Subset.refl _)
      · cases h
    | binary op left right =>
      rcases bind_eq_error.mp h with h | ⟨l, _, h⟩
      · exact (ih h).mono
          (fun hl => Nat.succ_lt_succ (Nat.lt_of_lt_of_le hl (Nat.le_max_left ..)))
          (List.subset_append_left ..)
      · rcases bind_eq_error.mp h with h | ⟨r, _, h⟩
        · exact (ih h).mono
            (fun hr => Nat.succ_lt_succ (Nat.lt_of_lt_of_le hr (Nat.le_max_right ..)))
            (List.subset_append_right ..)
        · rcases bind_eq_error.mp h with h | ⟨_, _, h⟩
          · obtain ⟨v, _, w, _, happly⟩ := Outcome.anyPair_eq_error h
            obtain ⟨cause, rfl⟩ := BinaryOp.apply_eq_error happly
            exact .operands cause
          · cases h
    | resolve path => exact .path (List.mem_singleton_self path) h

/-- Both operands of a call are evaluated, so where there is an outcome no part of the query was too
deep and each of its paths was resolved. -/
theorem resolves_of_evaluateWithin {room : Nat} {q : Query} {o : Outcome}
    (h : evaluateWithin limits data schema room q = .ok o) : q.depth ≤ room ∧
      ∀ path ∈ q.paths, ∃ there, resolvePath limits path data schema = .ok there := by
  induction q generalizing room o with
  | literal v =>
    cases room with
    | zero => cases h
    | succ room => exact ⟨Nat.le_add_left 1 room, fun path hpath => nomatch hpath⟩
  | not operand ih =>
    cases room with
    | zero => cases h
    | succ room =>
      obtain ⟨x, hx, _⟩ := bind_eq_ok.mp h
      obtain ⟨hdepth, hpaths⟩ := ih hx
      exact ⟨Nat.succ_le_succ hdepth, hpaths⟩
  | binary op left right ihl ihr =>
    cases room with
    | zero => cases h
    | succ room =>
      obtain ⟨l, hl, h⟩ := bind_eq_ok.mp h
      obtain ⟨r, hr, _⟩ := bind_eq_ok.mp h
      obtain ⟨hdl, hpl⟩ := ihl hl
      obtain ⟨hdr, hpr⟩ := ihr hr
      exact ⟨Nat.succ_le_succ (Nat.max_le.mpr ⟨hdl, hdr⟩), List.forall_mem_append.mpr ⟨hpl, hpr⟩⟩
  | resolve path =>
    cases room with
    | zero => cases h
    | succ room =>
      refine ⟨Nat.le_add_left 1 room, fun p hp => ?_⟩
      cases List.mem_singleton.mp hp
      exact ⟨o, h⟩

/-! ## Records and queries to blame -/

theorem isInputError_of_conforms {room : Nat} {q : Query} (hdata : schema.Conforms data)
    (h : evaluateWithin limits data schema room q = .error e) : e.isInputError = true := by
  cases evaluateWithin_eq_error h with
  | nesting | operands => rfl
  | path _ hpath => exact (ofRoute_of_conforms hdata hpath).isInputError

theorem holds_eq_error_iff {validate : Schema.Validator} {q : Query} :
    q.holds validate limits data schema = .error e ↔
      q.evaluateChecked validate limits data schema = .error e :=
  map_eq_error

theorem evaluateChecked_of_rejected {validate : Schema.Validator} {q : Query}
    {r : Schema.Rejection} (h : validate data schema = .error r) :
    q.evaluateChecked validate limits data schema = .error (.invalidData (.rejected r)) := by
  rw [evaluateChecked, h]

theorem evaluateChecked_of_accepted {validate : Schema.Validator} {q : Query}
    (h : validate data schema = .ok ()) :
    q.evaluateChecked validate limits data schema = q.evaluate limits data schema := by
  rw [evaluateChecked, h]

/-- The record is to blame for an error exactly when it is rejected. -/
theorem exists_not_isInputError_iff {q : Query} :
    (∃ e, q.evaluateChecked Schema.structural limits data schema = .error e ∧
      e.isInputError = false) ↔ ∃ r, Schema.structural data schema = .error r := by
  constructor
  · rintro ⟨e, he, hblame⟩
    cases hcheck : Schema.structural data schema with
    | error r => exact ⟨r, rfl⟩
    | ok _ =>
      rw [evaluateChecked_of_accepted hcheck] at he
      have hquery := isInputError_of_conforms (Schema.structural_eq_ok_iff.mp hcheck) he
      rw [hblame] at hquery
      cases hquery
  · rintro ⟨r, hr⟩
    exact ⟨_, evaluateChecked_of_rejected hr, rfl⟩

end

/-- **Blame.** Whatever the query and the limits are, a decision or an evaluation blames the record
exactly when the check rejects it, and then it tells the rejection. On an accepted record every
error of every query and of every path is an error of the query. -/
theorem blames_record_iff_rejected (limits : Limits) (q : Query) (data : Value) (schema : Schema) :
    ((∃ e, q.evaluateChecked Schema.structural limits data schema = .error e ∧
      e.isInputError = false) ↔ ∃ r, Schema.structural data schema = .error r) ∧
    ((∃ e, q.holds Schema.structural limits data schema = .error e ∧
      e.isInputError = false) ↔ ∃ r, Schema.structural data schema = .error r) ∧
    (∀ r, Schema.structural data schema = .error r →
      q.evaluateChecked Schema.structural limits data schema =
          .error (.invalidData (.rejected r)) ∧
        q.holds Schema.structural limits data schema = .error (.invalidData (.rejected r))) ∧
    (Schema.structural data schema = .ok () →
      (∀ e, q.evaluate limits data schema = .error e → e.isInputError = true) ∧
      ∀ path e, resolvePath limits path data schema = .error e → e.isInputError = true) := by
  refine ⟨exists_not_isInputError_iff, ?_, fun r hr => ?_, fun hcheck => ?_⟩
  · simp only [holds_eq_error_iff]
    exact exists_not_isInputError_iff
  · exact ⟨evaluateChecked_of_rejected hr,
      holds_eq_error_iff.mpr (evaluateChecked_of_rejected hr)⟩
  · have hdata := Schema.structural_eq_ok_iff.mp hcheck
    refine ⟨fun e he => isInputError_of_conforms hdata he, fun path e he => ?_⟩
    exact (ofRoute_of_conforms hdata he).isInputError

end RecordQuery.Query
