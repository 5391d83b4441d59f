/-!
The manual: an overview and one page for each topic.
-/

namespace RecordQuery.Manual

inductive Topic where
  | operators
  | paths
  | schemas
  | errors
  deriving DecidableEq

/-- A topic by one of its names, in letters of either case. -/
def Topic.ofName? (name : String) : Option Topic :=
  let plain := name.map Char.toLower
  if ["operators", "ops"].contains plain then some .operators
  else if ["paths", "path", "resolve"].contains plain then some .paths
  else if ["schemas", "schema"].contains plain then some .schemas
  else if ["errors", "error"].contains plain then some .errors
  else none

def text (lines : List String) : String := String.join (lines.map fun line => line ++ "\n")

def overview : String := text [
  "SQ DOCUMENTATION",
  "",
  "sq checks whether a JSON record satisfies a query. Queries are JSON trees:",
  "an array is an operator call [\"op\", arg...], any other value is a literal.",
  "",
  "DOCUMENTATION CATEGORIES",
  "",
  "  operators         The operator vocabulary and broadcast rule",
  "  paths             Resolve paths and the [item] wildcard",
  "  schemas           Supported JSON-Schema keywords",
  "  errors            Failure kinds and what causes them",
  "",
  "QUICK REFERENCE",
  "",
  "  [\"eq\", [\"resolve\", \"subject\", \"karyotypic_sex\"], \"XO\"]",
  "  [\"co\", [\"resolve\", \"biosamples\", \"[item]\", \"procedure\", \"code\", \"id\"], \"TE\"]",
  "  [\"and\", <query>, <query>]",
  "",
  "Run 'sq doc <category>' for detailed documentation."]

def operators : String := text [
  "OPERATORS",
  "",
  "  TOKEN     ARGS  MEANING",
  "  and       2     both operands are true",
  "  or        2     either operand is true",
  "  not       1     the operand does not match",
  "  lt        2     left < right",
  "  le        2     left <= right",
  "  eq        2     left == right (1 and 1.0 are equal)",
  "  gt        2     left > right",
  "  ge        2     left >= right",
  "  co        2     right is a member of left (array element, object key,",
  "                  or substring of a string)",
  "  resolve   0..n  value at a path, see 'sq doc paths'",
  "",
  "  Tokens may carry a leading '#' (\"#eq\"), as older serialized queries do.",
  "",
  "BROADCASTING",
  "  When a path crosses an array, it yields one value per element. Binary",
  "  operators test every left/right combination and match if any does:",
  "",
  "    Input:  \x7b\"items\": [\x7b\"v\": 1\x7d, \x7b\"v\": 2\x7d]\x7d",
  "    Query:  [\"eq\", [\"resolve\", \"items\", \"[item]\", \"v\"], 2]",
  "    Result: true",
  "",
  "  'not' negates the outcome of its whole operand, not each element.",
  "",
  "ORDERING",
  "  Numbers order numerically, strings lexicographically, booleans with",
  "  false < true. Comparing other pairings is a type mismatch.",
  "",
  "NULL",
  "  A property missing from the record resolves to null. Null never satisfies",
  "  an ordering or 'co', and counts as false inside 'and' and 'or'."]

def paths : String := text [
  "PATHS",
  "",
  "  [\"resolve\"]",
  "    The whole record.",
  "",
  "  [\"resolve\", \"subject\", \"karyotypic_sex\"]",
  "    Walk object properties. Each name must be declared by the schema.",
  "",
  "  [\"resolve\", \"biosamples\", \"[item]\", \"procedure\"]",
  "    [item] steps into every element of an array and yields one value",
  "    per element.",
  "",
  "  Constraints:",
  "    - A property missing from the data resolves to null",
  "    - Only one array level may be crossed per path",
  "    - Paths may not continue past a string, number, integer or boolean"]

def schemas : String := text [
  "SCHEMAS",
  "",
  "  Schemas use a subset of JSON Schema:",
  "",
  "    \x7b\"type\": \"object\", \"properties\": \x7b...\x7d, \"required\": [...]\x7d",
  "    \x7b\"type\": \"array\", \"items\": \x7b...\x7d\x7d",
  "    \x7b\"type\": \"string\" | \"number\" | \"integer\" | \"boolean\"\x7d",
  "",
  "  Other keywords are ignored. Records are validated before a query runs;",
  "  undeclared properties are allowed, declared ones must have the right type."]

def errors : String := text [
  "ERRORS",
  "",
  "  InvalidDataStructure      the record does not conform to the schema",
  "  MalformedQuery            empty call, wrong argument count, bad path segment",
  "  UnknownOperator           call starts with an unregistered token",
  "  UnknownProperty           path names a property the schema does not declare",
  "  InvalidArrayAccess        [item] on a non-array, or a name on an array",
  "  CannotDescendIntoScalar   path continues past a scalar",
  "  TypeMismatch              operands the operator cannot handle",
  "  QueryTooComplex           nesting, path length or nested arrays over the limit"]

def page : Topic → String
  | .operators => operators
  | .paths => paths
  | .schemas => schemas
  | .errors => errors

end RecordQuery.Manual
