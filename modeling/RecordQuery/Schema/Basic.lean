import RecordQuery.Value.Basic

/-!
Schemas: finite trees that describe records. Properties of an object stand in the order of their
declaration, and a name may be declared again; the first declaration is the one that is looked up.
-/

namespace RecordQuery

namespace Schema

inductive Scalar where
  | string
  | number
  | integer
  | boolean
  deriving DecidableEq

def Scalar.name : Scalar → String
  | .string => "string"
  | .number => "number"
  | .integer => "integer"
  | .boolean => "boolean"

end Schema

inductive Schema where
  | object (properties : List (String × Schema)) (required : List String)
  | array (items : Schema)
  | scalar (kind : Schema.Scalar)

namespace Schema

inductive Kind where
  | object
  | array
  | scalar (kind : Scalar)
  deriving DecidableEq

def Kind.name : Kind → String
  | .object => "object"
  | .array => "array"
  | .scalar kind => kind.name

def kind : Schema → Kind
  | .object _ _ => .object
  | .array _ => .array
  | .scalar kind => .scalar kind

/-- The schema of a declared property. -/
def property? (name : String) : Schema → Option Schema
  | .object properties _ => (properties.find? fun p => p.1 == name).map Prod.snd
  | _ => none

/-- Adds names to those that a record must have; only objects have any. -/
def requiring (names : List String) : Schema → Schema
  | .object properties required => .object properties (required ++ names)
  | schema => schema

end Schema

end RecordQuery
