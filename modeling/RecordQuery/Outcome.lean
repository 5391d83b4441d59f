import RecordQuery.Value.Json

/-!
What an expression evaluates to: one value, or one value for every item of an array on its path.
-/

namespace RecordQuery

inductive Outcome where
  | scalar (v : Value)
  | broadcast (vs : List Value)

namespace Outcome

def ofBool (b : Bool) : Outcome := .scalar (.boolean b)

def values : Outcome → List Value
  | .scalar v => [v]
  | .broadcast vs => vs

def isBroadcast : Outcome → Bool
  | .scalar _ => false
  | .broadcast _ => true

/-- Some value is the boolean `true`. -/
def anyTrue (o : Outcome) : Bool := o.values.any fun v => v.boolean? == some true

def hasBoolean (o : Outcome) : Bool := o.values.any fun v => v.boolean?.isSome

/-- A broadcast is written as an array. -/
def toJson : Outcome → Json
  | .scalar v => v.toJson
  | .broadcast vs => .array (Value.toItems vs)

/-- Applies a step to every value and keeps the shape. -/
def mapM {m : Type → Type} [Monad m] (f : Value → m Value) : Outcome → m Outcome
  | .scalar v => do return .scalar (← f v)
  | .broadcast vs => do return .broadcast (← vs.mapM f)

/-- Looks for a pair of a left and a right value that satisfies `p`, all right values for the first
left one before the next, up to the first pair that does, or that fails. -/
def anyPair {m : Type → Type} [Monad m] (p : Value → Value → m Bool) (left right : Outcome) :
    m Bool :=
  left.values.anyM fun v => right.values.anyM fun w => p v w

end Outcome

end RecordQuery
