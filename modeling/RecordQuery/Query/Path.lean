import RecordQuery.Limits
import RecordQuery.Outcome
import RecordQuery.Query.Error

/-!
Paths into a record. The schema says what each step may be; the record supplies the values. A path
crosses one array at most, and from there on every step applies to all of its items.
-/

namespace RecordQuery.Query

/-- The value of a property. Absent properties are null, and so is every property of null. -/
def field (walked : List Step) (name : String) : Value → Except Error Value
  | .object fields => .ok ((fields.get? name).getD .null)
  | .null => .ok .null
  | v => .error (.invalidData (.notObject walked v.kind))

/-- The items of an array; null stands for an absent array and has none. -/
def elements (walked : List Step) : Value → Except Error (List Value)
  | .array items => .ok items
  | .null => .ok []
  | v => .error (.invalidData (.notArray walked v.kind))

/-- One step from a schema node and the values found there; `walked` is the way up to here. -/
def enter (walked : List Step) (node : Schema) (here : Outcome) (step : Step) :
    Except Error (Schema × Outcome) :=
  match node, step with
  | .object _ _, .property name =>
    match node.property? name with
    | none => .error (.unknownProperty name)
    | some child => do return (child, ← here.mapM (field walked name))
  | .array items, .item =>
    match here with
    | .scalar v => do return (items, .broadcast (← elements walked v))
    | .broadcast _ => .error (.tooComplex (.nestedArrays walked))
  | .array _, .property name => .error (.arrayAccess (.propertyOfArray name walked))
  | node, .item => .error (.arrayAccess (.itemsOfOther walked node.kind))
  | .scalar _, .property name => .error (.intoScalar name)

def walk (walked : List Step) (node : Schema) (here : Outcome) : List Step → Except Error Outcome
  | [] => .ok here
  | step :: path => do
    let (node, here) ← enter walked node here step
    walk (walked ++ [step]) node here path

/-- The values at the end of a path. -/
def resolvePath (limits : Limits) (path : List Step) (data : Value) (schema : Schema) :
    Except Error Outcome :=
  if limits.maxPathLength < path.length then
    .error (.tooComplex (.pathLength path.length limits.maxPathLength))
  else walk [] schema (.scalar data) path

end RecordQuery.Query
