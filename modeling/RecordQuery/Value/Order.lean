import RecordQuery.Value.Basic

/-!
Equality, order and membership of values. Numbers are compared by their exact values, so a whole
number and a double are never rounded against each other.
-/

namespace RecordQuery

namespace Value

/-- The order of two numbers. NaN is in no order, nor is anything that is no number. -/
def compareNumbers : Value → Value → Option Ordering
  | .integer m, .integer n => some (compare m n)
  | .float x, .float y => x.compare? y
  | .integer n, .float x => Binary64.compareInt n x
  | .float x, .integer n => (Binary64.compareInt n x).map Ordering.swap
  | _, _ => none

section

variable (numbers : Value → Value → Bool)

mutual

/-- Equality with numbers compared by a test, at any depth. Objects of one size are equal when under
the name of each field of the one stands an equal value in the other. -/
def equalBy : Value → Value → Bool
  | .null, .null => true
  | .boolean a, .boolean b => a == b
  | .string s, .string t => s == t
  | .array vs, .array ws => equalItemsBy vs ws
  | .object vs, .object ws => vs.size == ws.size && equalFieldsBy vs ws
  | v, w => v.isNumber && w.isNumber && numbers v w
termination_by structural v => v

def equalItemsBy : List Value → List Value → Bool
  | [], [] => true
  | v :: vs, w :: ws => equalBy v w && equalItemsBy vs ws
  | _, _ => false
termination_by structural vs => vs

def equalFieldsBy {low : Option String} : Fields low → Fields none → Bool
  | .nil, _ => true
  | .cons name _ v vs, ws => ((ws.get? name).any fun w => equalBy v w) && equalFieldsBy vs ws
termination_by structural vs => vs

end

end

/-- Equality of queries: numbers are equal when their values are. -/
def equals : Value → Value → Bool := equalBy fun v w => v.compareNumbers w == some .eq

/-- Equality of form: as `equals`, but a whole number never equals a double. -/
def same : Value → Value → Bool :=
  equalBy fun
    | .integer m, .integer n => m == n
    | .float x, .float y => x.compare? y == some .eq
    | _, _ => false

/-- Numbers by value, strings by code points, `false` before `true`; nothing else is ordered. -/
protected def compare : Value → Value → Option Ordering
  | .string s, .string t => some (compare s t)
  | .boolean a, .boolean b => some (compare a b)
  | v, w => v.compareNumbers w

def occursIn (sought : List Char) : List Char → Bool
  | [] => sought.isEmpty
  | c :: cs => sought.isPrefixOf (c :: cs) || occursIn sought cs

/-- Whether the second value is a part of the first: of a string, a string within it; of an array,
an equal item; of an object, the name of a field. There is no answer for other pairs. -/
def contains : Value → Value → Option Bool
  | .string s, .string sought => some (occursIn sought.toList s.toList)
  | .array items, sought => some (items.any fun item => item.equals sought)
  | .object fields, .string name => some (fields.get? name).isSome
  | _, _ => none

end Value

end RecordQuery
