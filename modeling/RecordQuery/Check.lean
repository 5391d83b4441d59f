import RecordQuery.Query.Decision
import RecordQuery.Query.Wire
import RecordQuery.Schema.Reader

/-!
One check from texts: reads a query, a schema and a record, and decides or evaluates.
-/

namespace RecordQuery.Check

inductive Mode where
  /-- Reads the query and nothing else. -/
  | syntaxOnly
  | decision
  | evaluation
  deriving DecidableEq

structure Request where
  query : String
  schema : String
  input : Option String
  mode : Mode
  limits : Limits

inductive Answer where
  /-- The query in its written form. -/
  | canonical (query : Json)
  | decided (matched : Bool)
  | evaluated (value : Json)

inductive Error where
  | limits (e : Limits.Error)
  | query (e : Query.Error)
  | notJson
  | schema (e : Schema.Error)
  | noInput

def Error.message : Error → String
  | .limits e => "Config error: " ++ e.message
  | .query e => "Query error: " ++ e.message
  | .notJson => "Invalid JSON"
  | .schema e => "Schema error: " ++ e.message
  | .noInput => "No input provided. Use --input or pipe JSON to stdin."

def document (text : String) : Except Error Json :=
  match Json.parse? text with
  | some j => .ok j
  | none => .error .notJson

/-- The record and its schema; the schema is read first. -/
def record (request : Request) : Except Error (Value × Schema) := do
  let schema ← (Schema.ofJson (← document request.schema)).mapError .schema
  match request.input with
  | none => .error .noInput
  | some input => return (Value.ofJson (← document input), schema)

def run (request : Request) : Except Error Answer := do
  let limits ← request.limits.validated.mapError .limits
  let query ← (Query.ofText limits request.query).mapError .query
  match request.mode with
  | .syntaxOnly => return .canonical (← query.toJson.mapError .query)
  | .decision =>
    let (data, schema) ← record request
    return .decided (← (query.holds Schema.structural limits data schema).mapError .query)
  | .evaluation =>
    let (data, schema) ← record request
    let outcome ← (query.evaluateChecked Schema.structural limits data schema).mapError .query
    return .evaluated outcome.toJson

end RecordQuery.Check
