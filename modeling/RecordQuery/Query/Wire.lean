import RecordQuery.Json.Reader
import RecordQuery.Limits
import RecordQuery.Query.Error
import RecordQuery.Value.Json

/-!
The written form of queries. A JSON array is a call: its first item is the token of the operator,
the others are the arguments. Every other document is a literal.
-/

namespace RecordQuery.Query

/-! ## Writing -/

def call (op : Operator) (args : List Json) : Json := .array (.string op.token :: args)

/-- Array literals have no written form, since an array is a call. -/
def toJson : Query → Except Error Json
  | .literal (.array _) => .error (.malformed .arrayLiteral)
  | .literal v => .ok v.toJson
  | .not operand => do return call .not [← operand.toJson]
  | .binary op left right => do return call (.binary op) [← left.toJson, ← right.toJson]
  | .resolve path => .ok (call .resolve (path.map fun step => .string step.text))

/-! ## Reading -/

def operatorOf : Json → Except Error Operator
  | .string token =>
    match Operator.ofToken? token with
    | some op => .ok op
    | none => .error (.unknownOperator (.string token))
  | head => .error (.unknownOperator head)

def stepOf : Json → Except Error Step
  | .string s => .ok (.ofText s)
  | segment => .error (.malformed (.segmentNotString segment))

/-- Reads a document that may be nested `room` calls deep. -/
def readWithin (limits : Limits) : Nat → Json → Except Error Query
  | 0, _ => .error (.tooComplex (.nesting limits.maxDepth))
  | _ + 1, .array [] => .error (.malformed .emptyCall)
  | room + 1, .array (head :: args) => do
    match ← operatorOf head, args with
    | .not, [operand] => return .not (← readWithin limits room operand)
    | .binary op, [left, right] =>
      return .binary op (← readWithin limits room left) (← readWithin limits room right)
    | .resolve, segments => return .resolve (← segments.mapM stepOf)
    | op, args => .error (.malformed (.argumentCount op args.length))
  | _ + 1, document => .ok (.literal (Value.ofJson document))

def ofJson (limits : Limits) (document : Json) : Except Error Query :=
  readWithin limits limits.maxDepth document

def ofText (limits : Limits) (text : String) : Except Error Query :=
  match Json.parse? text with
  | some document => ofJson limits document
  | none => .error (.malformed .notJson)

end RecordQuery.Query
