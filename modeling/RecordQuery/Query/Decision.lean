import RecordQuery.Query.Evaluation

/-!
Decisions on records: the record is checked first, then the query is evaluated, and the record
matches when some value of the outcome is `true`.
-/

namespace RecordQuery.Query

/-- The outcome of a query on a record that passes the check. -/
def evaluateChecked (validate : Schema.Validator) (limits : Limits) (q : Query) (data : Value)
    (schema : Schema) : Except Error Outcome :=
  match validate data schema with
  | .ok () => q.evaluate limits data schema
  | .error r => .error (.invalidData (.rejected r))

def holds (validate : Schema.Validator) (limits : Limits) (q : Query) (data : Value)
    (schema : Schema) : Except Error Bool :=
  (q.evaluateChecked validate limits data schema).map Outcome.anyTrue

end RecordQuery.Query
