import RecordQuery.Query.Path
import RecordQuery.Value.Order

/-!
Evaluation. Both operands of an operator are always evaluated, the left one first; a binary operator
then holds when it holds for some pair of their values.
-/

namespace RecordQuery

/-- Null counts as false. -/
def BinaryOp.operand (op : BinaryOp) : Value → Except Query.Error Bool
  | .null => .ok false
  | .boolean b => .ok b
  | v => .error (.typeMismatch (.notBoolean op v.kind))

/-- Null is in no order with anything. -/
def Comparison.apply (c : Comparison) : Value → Value → Except Query.Error Bool
  | .null, _ => .ok false
  | _, .null => .ok false
  | v, w =>
    match v.compare w with
    | some o => .ok (c.accepts o)
    | none => .error (.typeMismatch (.notOrdered c v.kind w.kind))

/-- Null contains nothing and is contained in nothing. -/
def Value.search : Value → Value → Except Query.Error Bool
  | .null, _ => .ok false
  | _, .null => .ok false
  | v, w =>
    match v.contains w with
    | some found => .ok found
    | none => .error (.typeMismatch (.notSearchable v.kind w.kind))

/-- An operator on one pair of values. -/
def BinaryOp.apply (op : BinaryOp) (v w : Value) : Except Query.Error Bool :=
  match op with
  | .and => do
    let a ← op.operand v
    let b ← op.operand w
    return a && b
  | .or => do
    let a ← op.operand v
    let b ← op.operand w
    return a || b
  | .compare .eq => .ok (v.equals w)
  | .compare c => c.apply v w
  | .contains => v.search w

namespace Query

/-- Evaluates a query that may be nested `room` calls deep. -/
def evaluateWithin (limits : Limits) (data : Value) (schema : Schema) :
    Nat → Query → Except Error Outcome
  | 0, _ => .error (.tooComplex (.nesting limits.maxDepth))
  | _ + 1, .literal v => .ok (.scalar v)
  | room + 1, .not operand => do
    return .ofBool !(← evaluateWithin limits data schema room operand).anyTrue
  | room + 1, .binary op left right => do
    let l ← evaluateWithin limits data schema room left
    let r ← evaluateWithin limits data schema room right
    return .ofBool (← l.anyPair op.apply r)
  | _ + 1, .resolve path => resolvePath limits path data schema

/-- The outcome of a query on a record, which is not checked against the schema first. -/
def evaluate (limits : Limits) (q : Query) (data : Value) (schema : Schema) :
    Except Error Outcome :=
  evaluateWithin limits data schema limits.maxDepth q

end Query

end RecordQuery
