import RecordQuery.Binary64

/-!
Values of records and queries. Whole numbers of 64 bits and doubles are kept apart. An object has
one form only: its fields stand in increasing order of their names.
-/

namespace RecordQuery

mutual

inductive Value where
  | null
  | boolean (b : Bool)
  | integer (n : Int64)
  | float (x : Binary64)
  | string (s : String)
  | array (items : List Value)
  | object (fields : Fields none)

/-- Fields of an object by increasing name; every name comes after `low`. -/
inductive Fields : Option String → Type where
  | nil {low : Option String} : Fields low
  | cons {low : Option String} (name : String) (above : ∀ l ∈ low, l < name) (value : Value)
      (rest : Fields (some name)) : Fields low

end

namespace Fields

def toList {low : Option String} : Fields low → List (String × Value)
  | .nil => []
  | .cons name _ value rest => (name, value) :: rest.toList

def size {low : Option String} (fields : Fields low) : Nat := fields.toList.length

def get? {low : Option String} (name : String) : Fields low → Option Value
  | .nil => none
  | .cons key _ value rest => if name = key then some value else rest.get? name

private theorem lt_of_not_lt_of_ne {s t : String} (h : ¬ s < t) (hne : ¬ s = t) : t < s :=
  Decidable.byContradiction fun h' =>
    hne (String.le_antisymm (String.not_lt.1 h') (String.not_lt.1 h))

/-- Sets one field; a field of that name is replaced. -/
def insert {low : Option String} (name : String) (above : ∀ l ∈ low, l < name) (value : Value) :
    Fields low → Fields low
  | .nil => .cons name above value .nil
  | .cons key lower old rest =>
    if h : name < key then .cons name above value (.cons key (by simpa using h) old rest)
    else if e : name = key then .cons key lower value rest
    else .cons key lower old (rest.insert name (by simpa using lt_of_not_lt_of_ne h e) value)

/-- The object with the given fields; of two with one name the later counts. -/
def ofList (fields : List (String × Value)) : Fields none :=
  fields.foldl (fun before f => before.insert f.1 (by simp) f.2) .nil

end Fields

namespace Value

inductive Kind where
  | null
  | boolean
  | integer
  | float
  | string
  | array
  | object
  deriving DecidableEq

def Kind.name : Kind → String
  | .null => "null"
  | .boolean => "boolean"
  | .integer => "integer"
  | .float => "float"
  | .string => "string"
  | .array => "array"
  | .object => "object"

def kind : Value → Kind
  | .null => .null
  | .boolean _ => .boolean
  | .integer _ => .integer
  | .float _ => .float
  | .string _ => .string
  | .array _ => .array
  | .object _ => .object

def isNumber : Value → Bool
  | .integer _ => true
  | .float _ => true
  | _ => false

def boolean? : Value → Option Bool
  | .boolean b => some b
  | _ => none

def string? : Value → Option String
  | .string s => some s
  | _ => none

end Value

end RecordQuery
