import RecordQuery.Json.Basic
import RecordQuery.Value.Basic

/-!
Values from JSON documents and back. A document may hold greater whole numbers than a value does,
and a value may hold infinities and NaN, which no document does.
-/

namespace RecordQuery.Value

/-- A whole number past the greatest of 64 bits becomes the nearest double. -/
def ofNumber : Json.Number → Value
  | .integer n _ =>
    if n < 0x8000000000000000 then .integer (Int64.ofInt n) else .float (Binary64.ofInt n)
  | .float x _ => .float x

private theorem inRange (n : Int64) :
    -0x8000000000000000 ≤ n.toInt ∧ n.toInt < 0x10000000000000000 :=
  ⟨Int.le_trans (by decide) n.le_toInt, Int.lt_trans n.toInt_lt (by decide)⟩

/-- A double as a document; infinities and NaN have no number there. -/
def ofFloat (x : Binary64) : Json :=
  if h : x.isFinite = true then .number (.float x h) else .null

mutual

def ofJson : Json → Value
  | .null => .null
  | .boolean b => .boolean b
  | .number n => ofNumber n
  | .string s => .string s
  | .array items => .array (ofItems items)
  | .object members => .object (ofMembers members)

def ofItems : List Json → List Value
  | [] => []
  | item :: rest => ofJson item :: ofItems rest

def ofMembers {taken : List String} : Members taken → Fields none
  | .nil => .nil
  | .cons name _ value rest => (ofMembers rest).insert name (by simp) (ofJson value)

end

mutual

/-- Infinities and NaN become null; names stand in increasing order. -/
def toJson : Value → Json
  | .null => .null
  | .boolean b => .boolean b
  | .integer n => .number (.integer n.toInt (inRange n))
  | .float x => ofFloat x
  | .string s => .string s
  | .array items => .array (toItems items)
  | .object fields => .object (Members.ofList (toMembers fields))

def toItems : List Value → List Json
  | [] => []
  | v :: rest => v.toJson :: toItems rest

def toMembers {low : Option String} : Fields low → List (String × Json)
  | .nil => []
  | .cons name _ value rest => (name, value.toJson) :: toMembers rest

end

end RecordQuery.Value
