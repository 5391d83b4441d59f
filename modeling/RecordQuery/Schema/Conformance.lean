import RecordQuery.Schema.Basic

/-!
Which values conform to a schema. A check looks for the first violation, depth first: the required
names of an object in their order, then its declared properties in theirs; the items of an array by
index. Undeclared fields are never looked at.
-/

namespace RecordQuery.Schema

/-- Whole doubles count as integers; every double counts as a number. -/
def Scalar.accepts : Scalar → Value → Bool
  | .string, .string _ => true
  | .boolean, .boolean _ => true
  | .number, v => v.isNumber
  | .integer, .integer _ => true
  | .integer, .float x => x.isWhole
  | _, _ => false

/-! ## Violations -/

/-- One step down a record. -/
inductive Segment where
  | field (name : String)
  | item (index : Nat)
  deriving DecidableEq

inductive Mismatch where
  | missing (name : String)
  | wrongKind (expected : Kind) (found : Value.Kind)
  deriving DecidableEq

structure Violation where
  position : List Segment
  mismatch : Mismatch
  deriving DecidableEq

def Violation.within (segment : Segment) (v : Violation) : Violation :=
  { v with position := segment :: v.position }

mutual

def firstViolation : Schema → Value → Option Violation
  | .object properties required, .object fields =>
    match required.find? fun name => (fields.get? name).isNone with
    | some name => some ⟨[], .missing name⟩
    | none => firstInProperties properties fields
  | .array items, .array elements =>
    elements.zipIdx.findSome? fun (v, i) =>
      (items.firstViolation v).map (Violation.within (.item i))
  | .scalar kind, v =>
    if kind.accepts v then none else some ⟨[], .wrongKind (.scalar kind) v.kind⟩
  | schema, v => some ⟨[], .wrongKind schema.kind v.kind⟩

/-- Every declaration counts, a repeated one too. -/
def firstInProperties (properties : List (String × Schema)) (fields : Fields none) :
    Option Violation :=
  match properties with
  | [] => none
  | (name, schema) :: rest =>
    match (fields.get? name).bind schema.firstViolation with
    | some v => some (v.within (.field name))
    | none => firstInProperties rest fields

end

/-! ## Rejections -/

/-- Why a record is not accepted, with the place as a JSON pointer. -/
structure Rejection where
  path : String
  reason : String
  deriving DecidableEq

def Rejection.message (r : Rejection) : String :=
  (if r.path = "" then "/" else r.path) ++ ": " ++ r.reason

/-- Replaces each occurrence of a character by a text. -/
def replaceChar (c : Char) (text s : List Char) : List Char :=
  s.flatMap fun d => if d = c then text else [d]

/-- Writes `~` and `/` so that they do not read as pointer syntax. The tilde comes first, since what
a slash becomes begins with one. -/
def pointerEscape (s : List Char) : List Char :=
  replaceChar '/' ['~', '1'] (replaceChar '~' ['~', '0'] s)

def Segment.text : Segment → String
  | .field name => name
  | .item index => toString index

def pointer (position : List Segment) : String :=
  String.ofList (position.flatMap fun s => '/' :: pointerEscape s.text.toList)

def Mismatch.message : Mismatch → String
  | .missing name => "missing required property '" ++ name ++ "'"
  | .wrongKind expected found => "expected " ++ expected.name ++ ", got " ++ found.name

def Violation.rejection (v : Violation) : Rejection := ⟨pointer v.position, v.mismatch.message⟩

/-- A check that a record must pass before it is queried. -/
abbrev Validator := Value → Schema → Except Rejection Unit

/-- Accepts the values that conform to the schema. -/
def structural : Validator := fun data schema =>
  match schema.firstViolation data with
  | none => .ok ()
  | some v => .error v.rejection

end RecordQuery.Schema
