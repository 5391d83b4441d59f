import RecordQuery.Query.Operator

/-!
Queries: trees of operator calls over literals and paths into a record.
-/

namespace RecordQuery

namespace Query

/-- One step of a path: into a named property, or into every item of an array. -/
inductive Step where
  | property (name : String)
  | item
  deriving DecidableEq

namespace Step

def itemText : String := "[item]"

def text : Step → String
  | .property name => name
  | .item => itemText

def ofText (s : String) : Step := if s = itemText then .item else .property s

end Step

end Query

inductive Query where
  | literal (v : Value)
  | not (operand : Query)
  | binary (op : BinaryOp) (left right : Query)
  | resolve (path : List Query.Step)

namespace Query

/-- The operator at the root; literals have none. -/
def operator? : Query → Option Operator
  | .literal _ => none
  | .not _ => some .not
  | .binary op _ _ => some (.binary op)
  | .resolve _ => some .resolve

/-- How deep calls stand inside one another; a literal or a path has depth one. -/
def depth : Query → Nat
  | .literal _ => 1
  | .not operand => operand.depth + 1
  | .binary _ left right => max left.depth right.depth + 1
  | .resolve _ => 1

/-- The query under `n` negations. -/
def negated : Nat → Query → Query
  | 0, q => q
  | n + 1, q => .not (negated n q)

end Query

end RecordQuery
