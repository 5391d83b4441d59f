import RecordQuery.Binary64

/-!
JSON documents. The type keeps what the text says: members stand in document order, no name stands
twice in one object, and a number is a whole one of at most 64 bits or a finite double.
-/

namespace RecordQuery

namespace Json

inductive Number where
  | integer (n : Int) (inRange : -0x8000000000000000 ≤ n ∧ n < 0x10000000000000000)
  | float (x : Binary64) (finite : x.isFinite = true)
  deriving DecidableEq

namespace Number

def float? (x : Binary64) : Option Number :=
  if h : x.isFinite = true then some (.float x h) else none

/-- A whole number that needs more than 64 bits becomes the nearest double. -/
def ofInt? (n : Int) : Option Number :=
  if h : -0x8000000000000000 ≤ n ∧ n < 0x10000000000000000 then some (.integer n h)
  else float? (Binary64.ofInt n)

end Number

end Json

mutual

inductive Json where
  | null
  | boolean (b : Bool)
  | number (n : Json.Number)
  | string (s : String)
  | array (items : List Json)
  | object (members : Members [])

/-- Members of an object in document order; the names in `taken` stand before them. -/
inductive Members : List String → Type where
  | nil {taken : List String} : Members taken
  | cons {taken : List String} (name : String) (fresh : name ∉ taken) (value : Json)
      (rest : Members (name :: taken)) : Members taken

end

namespace Members

def toList {taken : List String} : Members taken → List (String × Json)
  | .nil => []
  | .cons name _ value rest => (name, value) :: rest.toList

def get? {taken : List String} (name : String) : Members taken → Option Json
  | .nil => none
  | .cons key _ value rest => if name = key then some value else rest.get? name

/-- A name that stands already keeps its place and takes the new value; others go to the end. -/
def put {taken : List String} (name : String) (fresh : name ∉ taken) (value : Json) :
    Members taken → Members taken
  | .nil => .cons name fresh value .nil
  | .cons key free old rest =>
    if h : name = key then .cons key free value rest
    else .cons key free old (rest.put name (by simp [h, fresh]) value)

/-- The object that a sequence of members describes. -/
def ofList (members : List (String × Json)) : Members [] :=
  members.foldl (fun before m => before.put m.1 List.not_mem_nil m.2) .nil

end Members

end RecordQuery
