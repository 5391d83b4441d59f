import RecordQuery.Value.Basic

/-!
The operator vocabulary. Its tokens are part of the written form of queries.
-/

namespace RecordQuery

inductive Comparison where
  | lt
  | le
  | eq
  | gt
  | ge
  deriving DecidableEq

/-- Whether operands in this order satisfy the comparison. -/
def Comparison.accepts : Comparison → Ordering → Bool
  | .lt, o => o == .lt
  | .le, o => o != .gt
  | .eq, o => o == .eq
  | .gt, o => o == .gt
  | .ge, o => o != .lt

/-- Operators of two operands that yield a boolean. -/
inductive BinaryOp where
  | and
  | or
  | compare (c : Comparison)
  | contains
  deriving DecidableEq

inductive Operator where
  | not
  | binary (op : BinaryOp)
  | resolve
  deriving DecidableEq

namespace Operator

def token : Operator → String
  | .binary .and => "and"
  | .binary .or => "or"
  | .not => "not"
  | .binary (.compare .lt) => "lt"
  | .binary (.compare .le) => "le"
  | .binary (.compare .eq) => "eq"
  | .binary (.compare .gt) => "gt"
  | .binary (.compare .ge) => "ge"
  | .binary .contains => "co"
  | .resolve => "resolve"

def all : List Operator :=
  [.binary .and, .binary .or, .not, .binary (.compare .lt), .binary (.compare .le),
    .binary (.compare .eq), .binary (.compare .gt), .binary (.compare .ge), .binary .contains,
    .resolve]

/-- The token without the mark that older queries put in front of it. -/
def unmarked (token : String) : String :=
  match token.toList with
  | '#' :: rest => String.ofList rest
  | _ => token

def ofToken? (token : String) : Option Operator := all.find? fun op => op.token == unmarked token

/-- The number of arguments; `resolve` takes any. -/
def arity? : Operator → Option Nat
  | .not => some 1
  | .binary _ => some 2
  | .resolve => none

end Operator

end RecordQuery
