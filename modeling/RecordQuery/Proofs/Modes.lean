import RecordQuery.Check
import RecordQuery.Proofs.Admission
import RecordQuery.Proofs.CanonicalForm
import RecordQuery.Proofs.Meaning

/-!
The modes of a check. All of them begin with the limits and the query, and two of them go on with
the schema, the record and one evaluation (`answerIn_of_ofText`). So a query that one mode cannot
read no mode can read, and a query that was read fails for what the schema and the record have a
part in only (`evaluateChecked_eq_error`).
-/

namespace RecordQuery

theorem Limits.validated_eq_ok {limits : Limits} (h : 1 ≤ limits.maxDepth) :
    limits.validated = .ok limits :=
  if_neg (Nat.ne_of_gt h)

theorem Outcome.anyTrue_iff_exists {o : Outcome} : o.anyTrue = true ↔
    o = .scalar (.boolean true) ∨ ∃ vs, o = .broadcast vs ∧ .boolean true ∈ vs := by
  rw [anyTrue_iff_mem]
  cases o with
  | scalar v => simp [values, eq_comm]
  | broadcast vs => simp [values]

namespace Query

variable {limits : Limits} {text : String} {q : Query}

/-- A query that was read from a text was read from a document. -/
theorem exists_ofJson_of_ofText (h : ofText limits text = .ok q) :
    ∃ document, ofJson limits document = .ok q := by
  unfold ofText at h
  split at h
  · exact ⟨_, h⟩
  · cases h

theorem exists_toJson_of_ofText (h : ofText limits text = .ok q) :
    ∃ form, q.toJson = .ok form := by
  obtain ⟨document, hdocument⟩ := exists_ofJson_of_ofText h
  obtain ⟨form, hform, _⟩ := exists_toJson_alike (reads_of_readWithin hdocument)
  exact ⟨form, hform⟩

/-- A query that was read fails at the record, along a route or at the types of operands. -/
theorem evaluateChecked_eq_error {validate : Schema.Validator} {data : Value} {schema : Schema}
    {e : Error} (hq : ofText limits text = .ok q)
    (h : q.evaluateChecked validate limits data schema = .error e) :
    (∃ cause, e = .invalidData cause) ∨ e.OfRoute ∨ ∃ cause, e = .typeMismatch cause := by
  cases hcheck : validate data schema with
  | error r =>
    rw [evaluateChecked_of_rejected hcheck] at h
    cases h
    exact Or.inl ⟨_, rfl⟩
  | ok _ =>
    rw [evaluateChecked_of_accepted hcheck] at h
    cases evaluateWithin_eq_error h with
    | nesting hdeep =>
      obtain ⟨document, hdocument⟩ := exists_ofJson_of_ofText hq
      exact absurd (readWithin_eq_ok_iff.mp hdocument).2 (Nat.not_le.mpr hdeep)
    | path _ hpath =>
      rcases resolvePath_eq_error hpath with hroute | hdata
      · exact Or.inr (Or.inl (ofRoute_of_destination hroute))
      · exact Or.inl hdata
    | operands cause => exact Or.inr (Or.inr ⟨cause, rfl⟩)

end Query

namespace Check

/-- What a request gets in a mode. -/
def answerIn (request : Request) (mode : Mode) : Except Error Answer := run { request with mode }

/-- The outcome of a query on the record of a request. -/
def outcomeOf (request : Request) (q : Query) : Except Error Outcome := do
  let (data, schema) ← record request
  (q.evaluateChecked Schema.structural request.limits data schema).mapError .query

section

variable {request : Request} {q : Query} {mode : Mode} {e : Error}

theorem document_eq_error {text : String} (h : document text = .error e) : e = .notJson := by
  unfold document at h
  split at h
  · cases h
  · cases h
    rfl

/-- The record of a request is read without a look at the query. -/
theorem record_ne_query {cause : Query.Error} : record request ≠ .error (.query cause) := by
  intro h
  unfold record at h
  rcases bind_eq_error.mp h with h | ⟨document, _, h⟩
  · cases document_eq_error h
  rcases bind_eq_error.mp h with h | ⟨schema, _, h⟩
  · obtain ⟨_, _, h⟩ := mapError_eq_error.mp h
    cases h
  split at h
  · cases h
  · rcases bind_eq_error.mp h with h | ⟨document, _, h⟩
    · cases document_eq_error h
    · cases h

theorem outcomeOf_eq_ok {o : Outcome} (h : outcomeOf request q = .ok o) :
    ∃ data schema, record request = .ok (data, schema) ∧
      q.evaluateChecked Schema.structural request.limits data schema = .ok o := by
  obtain ⟨⟨data, schema⟩, hrecord, h⟩ := bind_eq_ok.mp h
  exact ⟨data, schema, hrecord, mapError_eq_ok.mp h⟩

theorem outcomeOf_eq_error {cause : Query.Error} (h : outcomeOf request q = .error (.query cause)) :
    ∃ data schema,
      q.evaluateChecked Schema.structural request.limits data schema = .error cause := by
  rcases bind_eq_error.mp h with h | ⟨⟨data, schema⟩, _, h⟩
  · exact absurd h record_ne_query
  · obtain ⟨cause', hcause, h⟩ := mapError_eq_error.mp h
    cases h
    exact ⟨data, schema, hcause⟩

variable (hlimits : 1 ≤ request.limits.maxDepth)
include hlimits

theorem answerIn_of_not_ofText {cause : Query.Error}
    (h : Query.ofText request.limits request.query = .error cause) :
    answerIn request mode = .error (.query cause) := by
  simp only [answerIn, run, Limits.validated_eq_ok hlimits, Except.mapError, bind, Except.bind, h]

/-- Two modes tell the same outcome, each in its way. -/
theorem answerIn_of_ofText (h : Query.ofText request.limits request.query = .ok q) :
    answerIn request mode = match mode with
      | .syntaxOnly => (q.toJson.mapError .query).map .canonical
      | .decision => (outcomeOf request q).map fun o => .decided o.anyTrue
      | .evaluation => (outcomeOf request q).map fun o => .evaluated o.toJson := by
  have hrecord : record { request with mode } = record request := rfl
  simp only [answerIn, run, Limits.validated_eq_ok hlimits, h, hrecord, outcomeOf, Query.holds,
    Except.mapError, bind, Except.bind]
  cases mode with
  | syntaxOnly => rfl
  | decision | evaluation =>
    cases record request with
    | error e => rfl
    | ok read =>
      dsimp only
      cases q.evaluateChecked Schema.structural request.limits read.1 read.2 <;> rfl

end

/-- **The modes of a check.** Under limits that permit some depth the mode that reads the query only
succeeds exactly when the query can be read, and it always finds the written form. A query that
cannot be read fails in every mode with the error of the reader. A query that was read fails at the
record, along a route through the schema or at the types of operands. A decision and an evaluation
fail with one error, or both succeed, and the decision is whether the outcome is the boolean `true`
or a broadcast that contains it. -/
theorem modes_agree (request : Request) (hlimits : 1 ≤ request.limits.maxDepth) :
    ((∃ answer, answerIn request .syntaxOnly = .ok answer) ↔
      ∃ q, Query.ofText request.limits request.query = .ok q) ∧
    (∀ cause, Query.ofText request.limits request.query = .error cause →
      ∀ mode, answerIn request mode = .error (.query cause)) ∧
    (∀ q, Query.ofText request.limits request.query = .ok q →
      (∃ form, q.toJson = .ok form ∧ answerIn request .syntaxOnly = .ok (.canonical form)) ∧
      ∀ mode cause, answerIn request mode = .error (.query cause) →
        (∃ fault, cause = .invalidData fault) ∨ cause.OfRoute ∨
          ∃ fault, cause = .typeMismatch fault) ∧
    ((∃ e, answerIn request .decision = .error e ∧ answerIn request .evaluation = .error e) ∨
      ∃ q data schema o matched, Query.ofText request.limits request.query = .ok q ∧
        record request = .ok (data, schema) ∧
        q.evaluateChecked Schema.structural request.limits data schema = .ok o ∧
        answerIn request .evaluation = .ok (.evaluated o.toJson) ∧
        answerIn request .decision = .ok (.decided matched) ∧
        (matched = true ↔
          o = .scalar (.boolean true) ∨ ∃ vs, o = .broadcast vs ∧ .boolean true ∈ vs)) := by
  cases hq : Query.ofText request.limits request.query with
  | error cause =>
    have hfails (mode : Mode) : answerIn request mode = .error (.query cause) :=
      answerIn_of_not_ofText hlimits hq
    refine ⟨⟨?_, nofun⟩, ?_, nofun, Or.inl ⟨_, hfails _, hfails _⟩⟩
    · rintro ⟨answer, hanswer⟩
      cases hanswer.symm.trans (hfails _)
    · rintro _ ⟨⟩ mode
      exact hfails mode
  | ok q =>
    obtain ⟨form, hform⟩ := Query.exists_toJson_of_ofText hq
    have hsyntax : answerIn request .syntaxOnly = .ok (.canonical form) := by
      rw [answerIn_of_ofText hlimits hq, hform]
      rfl
    have hdecision : answerIn request .decision = _ := answerIn_of_ofText hlimits hq
    have hevaluation : answerIn request .evaluation = _ := answerIn_of_ofText hlimits hq
    refine ⟨⟨fun _ => ⟨q, rfl⟩, fun _ => ⟨_, hsyntax⟩⟩, nofun, ?_, ?_⟩
    · rintro _ ⟨⟩
      refine ⟨⟨form, hform, hsyntax⟩, fun mode cause hcause => ?_⟩
      have hfails : outcomeOf request q = .error (.query cause) := by
        cases mode with
        | syntaxOnly => cases hsyntax.symm.trans hcause
        | decision => exact map_eq_error.mp (hdecision.symm.trans hcause)
        | evaluation => exact map_eq_error.mp (hevaluation.symm.trans hcause)
      obtain ⟨data, schema, hchecked⟩ := outcomeOf_eq_error hfails
      exact Query.evaluateChecked_eq_error hq hchecked
    · cases ho : outcomeOf request q with
      | error e =>
        rw [ho] at hdecision hevaluation
        exact Or.inl ⟨e, hdecision, hevaluation⟩
      | ok o =>
        rw [ho] at hdecision hevaluation
        obtain ⟨data, schema, hrecord, hchecked⟩ := outcomeOf_eq_ok ho
        exact Or.inr ⟨q, data, schema, o, _, rfl, hrecord, hchecked, hevaluation, hdecision,
          Outcome.anyTrue_iff_exists⟩

instance (r : Except Error Answer) (matched : Bool) : Decidable (r = .ok (.decided matched)) :=
  match r with
  | .ok (.decided b) => decidable_of_iff (b = matched) (by simp)
  | .ok (.canonical _) | .ok (.evaluated _) | .error _ => isFalse nofun

/-- An item is found, and the evaluation tells the boolean from which the decision is made. -/
theorem modes_agree_sizes :
    let request : Request := {
      query := "[\"eq\",[\"resolve\",\"[item]\"],1]"
      schema := "\x7b\"type\":\"array\",\"items\":\x7b\"type\":\"integer\"\x7d\x7d"
      input := some "[2,1]"
      mode := .decision
      limits := {} }
    1 ≤ request.limits.maxDepth ∧ answerIn request .decision = .ok (.decided true) ∧
      ∃ o : Outcome, answerIn request .evaluation = .ok (.evaluated o.toJson) ∧
        (o = .scalar (.boolean true) ∨ ∃ vs, o = .broadcast vs ∧ .boolean true ∈ vs) := by
  intro request
  have hlimits : 1 ≤ request.limits.maxDepth := by decide
  have hdecided : answerIn request .decision = .ok (.decided true) := by decide +kernel
  obtain ⟨-, -, -, hfails | hsucceeds⟩ := modes_agree request hlimits
  · obtain ⟨e, hdecision, -⟩ := hfails
    cases hdecided.symm.trans hdecision
  · obtain ⟨q, data, schema, o, matched, -, -, -, hevaluation, hdecision, hmatched⟩ := hsucceeds
    cases hdecided.symm.trans hdecision
    exact ⟨hlimits, hdecided, o, hevaluation, hmatched.mp rfl⟩

end Check

end RecordQuery
