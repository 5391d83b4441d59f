/-!
Bounds on queries from callers that are not trusted.
-/

namespace RecordQuery

structure Limits where
  /-- How deep calls may stand inside one another. -/
  maxDepth : Nat := 64
  /-- How many steps a path may have. -/
  maxPathLength : Nat := 32
  deriving DecidableEq

namespace Limits

inductive Error where
  | unreadable
  | badText
  | zeroDepth
  deriving DecidableEq

def Error.message : Error → String
  | .unreadable => "Cannot read config file"
  | .badText => "Invalid config"
  | .zeroDepth => "Invalid limit: max_depth must be at least 1"

/-- Refuses limits that would refuse every query. -/
def validated (limits : Limits) : Except Error Limits :=
  if limits.maxDepth = 0 then .error .zeroDepth else .ok limits

end Limits

end RecordQuery
