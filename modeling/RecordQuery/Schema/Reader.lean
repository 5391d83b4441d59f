import RecordQuery.Json.Printer
import RecordQuery.Schema.Basic

/-!
Schemas from JSON documents. Of a schema document only `type`, `properties`, `required` and `items`
count, and only where the type uses them. The first fault is reported with its position.
-/

namespace RecordQuery.Schema

/-- One step down a schema document. -/
inductive Step where
  | property (name : String)
  | items
  deriving DecidableEq

inductive Fault where
  | notObject
  | missingType
  | typeNotString (found : Json)
  | unknownType (name : String)
  | propertiesNotObject
  | requiredNotStrings
  | missingItems

structure Error where
  position : List Step
  fault : Fault

namespace Error

def stepText : Step → String
  | .property name => "/properties/" ++ name
  | .items => "/items"

/-- The path of the faulty schema within its document. -/
def path (e : Error) : String :=
  if e.position = [] then "/" else String.join (e.position.map stepText)

def message (e : Error) : String :=
  let unsupported := fun found =>
    "Schema at '" ++ e.path ++ "' has unsupported type '" ++ found ++ "'"
  let malformed := fun reason => "Schema at '" ++ e.path ++ "' is malformed: " ++ reason
  match e.fault with
  | .missingType => "Schema at '" ++ e.path ++ "' has no \"type\" keyword"
  | .typeNotString found => unsupported found.compact
  | .unknownType name => unsupported name
  | .notObject => malformed "schema must be a JSON object"
  | .propertiesNotObject => malformed "\"properties\" must be an object"
  | .requiredNotStrings => malformed "\"required\" must be an array of strings"
  | .missingItems => malformed "array schema needs an \"items\" schema"

end Error

/-- The names under `required`; none where the member is absent. -/
def requiredNames (position : List Step) : Option Json → Except Error (List String)
  | none => .ok []
  | some (.array names) => names.mapM fun
    | .string name => .ok name
    | _ => .error ⟨position, .requiredNotStrings⟩
  | some _ => .error ⟨position, .requiredNotStrings⟩

mutual

/-- Reads the schema document at a position; of two faults the one of the enclosing schema comes
first, except that its required names are read after its properties. -/
def read (position : List Step) : Json → Except Error Schema
  | .object members =>
    match members.get? "type" with
    | none => .error ⟨position, .missingType⟩
    | some (.string "object") => do
      let properties ← readProperties position members
      let required ← requiredNames position (members.get? "required")
      return .object properties required
    | some (.string "array") => do return .array (← readItems position members)
    | some (.string "string") => .ok (.scalar .string)
    | some (.string "number") => .ok (.scalar .number)
    | some (.string "integer") => .ok (.scalar .integer)
    | some (.string "boolean") => .ok (.scalar .boolean)
    | some (.string name) => .error ⟨position, .unknownType name⟩
    | some found => .error ⟨position, .typeNotString found⟩
  | _ => .error ⟨position, .notObject⟩

/-- The declarations under the member `properties`; none where it is absent. -/
def readProperties (position : List Step) {taken : List String} :
    Members taken → Except Error (List (String × Schema))
  | .nil => .ok []
  | .cons name _ value rest =>
    if name = "properties" then
      match value with
      | .object declared => readEach position declared
      | _ => .error ⟨position, .propertiesNotObject⟩
    else readProperties position rest

/-- One declaration after the other, in document order. -/
def readEach (position : List Step) {taken : List String} :
    Members taken → Except Error (List (String × Schema))
  | .nil => .ok []
  | .cons name _ value rest => do
    let schema ← read (position ++ [.property name]) value
    return (name, schema) :: (← readEach position rest)

/-- The schema under the member `items`, which must be there. -/
def readItems (position : List Step) {taken : List String} : Members taken → Except Error Schema
  | .nil => .error ⟨position, .missingItems⟩
  | .cons name _ value rest =>
    if name = "items" then read (position ++ [.items]) value else readItems position rest

end

def ofJson (document : Json) : Except Error Schema := read [] document

end RecordQuery.Schema
