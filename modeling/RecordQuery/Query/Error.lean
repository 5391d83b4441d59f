import RecordQuery.Json.Printer
import RecordQuery.Query.Basic
import RecordQuery.Schema.Conformance

/-!
Why a query has no answer. Each error is a cause; its text is written from the cause in one place.
All errors but one are the query's fault: the exception is a record that does not fit its schema.
-/

namespace RecordQuery.Query

/-- A record that does not fit its schema, found by a check or on the way along a path. -/
inductive DataFault where
  | rejected (r : Schema.Rejection)
  | notObject (walked : List Step) (found : Value.Kind)
  | notArray (walked : List Step) (found : Value.Kind)

/-- A text or document that is no query, or a query that has no written form. -/
inductive FormFault where
  | notJson
  | emptyCall
  | argumentCount (op : Operator) (found : Nat)
  | segmentNotString (found : Json)
  | arrayLiteral

inductive AccessFault where
  | propertyOfArray (name : String) (walked : List Step)
  | itemsOfOther (walked : List Step) (node : Schema.Kind)

inductive OperandFault where
  | notBoolean (op : BinaryOp) (found : Value.Kind)
  | notOrdered (c : Comparison) (left right : Value.Kind)
  | notSearchable (container element : Value.Kind)

inductive SizeFault where
  | nesting (limit : Nat)
  | pathLength (found limit : Nat)
  | nestedArrays (walked : List Step)

inductive Error where
  | invalidData (cause : DataFault)
  | malformed (cause : FormFault)
  | unknownOperator (head : Json)
  | unknownProperty (name : String)
  | arrayAccess (cause : AccessFault)
  | intoScalar (name : String)
  | typeMismatch (cause : OperandFault)
  | tooComplex (cause : SizeFault)

/-! ## Texts -/

/-- Names the place that a path has reached. -/
def placeText (walked : List Step) : String :=
  if walked = [] then "the root" else "'" ++ "/".intercalate (walked.map Step.text) ++ "'"

def DataFault.message : DataFault → String
  | .rejected r => r.message
  | .notObject walked found =>
    "expected an object at " ++ placeText walked ++ ", got " ++ found.name
  | .notArray walked found =>
    "expected an array at " ++ placeText walked ++ ", got " ++ found.name

def FormFault.message : FormFault → String
  | .notJson => "query is not valid JSON"
  | .emptyCall => "empty expression: []"
  | .argumentCount op found =>
    let expected := match op.arity? with
      | some 1 => "1 argument"
      | some n => toString n ++ " arguments"
      | none => "any number of arguments"
    "'" ++ op.token ++ "' takes " ++ expected ++ ", got " ++ toString found
  | .segmentNotString found => "resolve path segments must be strings, got " ++ found.compact
  | .arrayLiteral => "array literals cannot be serialized; JSON arrays are operator calls"

def AccessFault.message : AccessFault → String
  | .propertyOfArray name walked =>
    "cannot get property '" ++ name ++ "' of the array at " ++ placeText walked ++ "; use '"
      ++ Step.itemText ++ "'"
  | .itemsOfOther walked node =>
    "'" ++ Step.itemText ++ "' used on the " ++ node.name ++ " at " ++ placeText walked
      ++ ", which is not an array"

def OperandFault.message : OperandFault → String
  | .notBoolean op found =>
    "'" ++ (Operator.binary op).token ++ "' requires boolean operands, got " ++ found.name
  | .notOrdered c left right =>
    "cannot compare " ++ left.name ++ " and " ++ right.name ++ " with '"
      ++ (Operator.binary (.compare c)).token ++ "'"
  | .notSearchable container element =>
    "'" ++ (Operator.binary .contains).token ++ "' cannot look for " ++ element.name ++ " in "
      ++ container.name

def SizeFault.message : SizeFault → String
  | .nesting limit => "expression nesting exceeds the maximum depth of " ++ toString limit
  | .pathLength found limit =>
    "resolve path has " ++ toString found ++ " segments, the maximum is " ++ toString limit
  | .nestedArrays walked =>
    "'" ++ Step.itemText ++ "' at " ++ placeText walked
      ++ " crosses an array nested inside an array"

namespace Error

def message : Error → String
  | .invalidData cause => "Invalid data structure: " ++ cause.message
  | .malformed cause => "Malformed query: " ++ cause.message
  | .unknownOperator (.string token) => "Unknown operator: " ++ token
  | .unknownOperator head => "Unknown operator: " ++ head.compact
  | .unknownProperty name =>
    "Unknown property: '" ++ name ++ "' is not declared in the object schema"
  | .arrayAccess cause => "Invalid array access: " ++ cause.message
  | .intoScalar name => "Cannot descend into scalar: '" ++ name ++ "' follows a scalar value"
  | .typeMismatch cause => "Type mismatch: " ++ cause.message
  | .tooComplex cause => "Query too complex: " ++ cause.message

/-- Whether the query is at fault rather than the record. -/
def isInputError : Error → Bool
  | .invalidData _ => false
  | _ => true

end Error

end RecordQuery.Query
